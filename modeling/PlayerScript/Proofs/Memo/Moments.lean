/-
The moments of a memo. While requests are carried out, and while their computations make requests of
their own, one thing happens after another: names are looked up, computations are started, fetches are
answered. The memo changes only where a computation succeeds for a name that is then without an entry,
so every entry is written once. A fetch answers with what the memo holds for good, unless its own
computation has stored another value under the name.
-/
import PlayerScript.Memo
import PlayerScript.Proofs.Store.Scopes

namespace PlayerScript

/-! ## Tables -/

namespace Table

variable {α : Type} {t u w : Table α}

/-- The entries of a table are in another one too. -/
def Kept (t u : Table α) : Prop := ∀ name v, t.get? name = some v → u.get? name = some v

theorem Kept.refl (t : Table α) : t.Kept t := fun _ _ h => h

theorem Kept.trans (h : t.Kept u) (h' : u.Kept w) : t.Kept w := fun name v hv => h' name v (h name v hv)

theorem get?_insertNew (t : Table α) (name n : String) (v : α) :
    (t.insertNew name v).get? n = if n = name then some ((t.get? name).getD v) else t.get? n := by
  unfold insertNew contains
  cases hget : t.get? name with
  | none => exact get?_insert t name n v
  | some held =>
    show t.get? n = if n = name then some held else t.get? n
    split
    · rename_i hn
      rw [hn, hget]
    · rfl

theorem kept_insertNew (t : Table α) (name : String) (v : α) : t.Kept (t.insertNew name v) := by
  intro n held hn
  rw [get?_insertNew]
  split
  · rename_i heq
    rw [← heq, hn]
    rfl
  · exact hn

end Table

namespace MemoRequest

variable {ε α : Type} {t u w : Trace α}

/-! ## What happens while requests are carried out -/

/-- What happens to a memo: a look-up with its answer, the start of a computation, or the answer to a
fetch, with the result of its computation if one was started. -/
inductive Event (ε α : Type) where
  | looked (name : String) (answer : Except ε (Option α))
  | started (name : String)
  | fetched (name : String) (computed : Option (Except ε α)) (answer : Except ε (Option α))

/-- The name whose computation is started. -/
def Event.start? : Event ε α → Option String
  | .started name => some name
  | _ => none

/-- An event, and the traces right before and right after it. -/
structure Moment (ε α : Type) where
  before : Trace α
  event : Event ε α
  after : Trace α

mutual

/-- What happens while a request is carried out, in order, and at any depth of its computation. -/
def moments : MemoRequest ε α → Trace α → List (Moment ε α)
  | .get name, t =>
    let answer : Except ε (Option α) × Trace α := run (.get name) t
    [⟨t, .looked name answer.1, answer.2⟩]
  | .fetch name inner result, t =>
    let answer := run (.fetch name inner result) t
    if t.memo.contains name then [⟨t, .fetched name none answer.1, answer.2⟩]
    else
      ⟨t, .started name, t.start name⟩ :: (momentsAll inner (t.start name) ++
        [⟨runAll inner (t.start name), .fetched name (some result) answer.1, answer.2⟩])

/-- What happens while requests are carried out one after another. -/
def momentsAll : List (MemoRequest ε α) → Trace α → List (Moment ε α)
  | [], _ => []
  | r :: rest, t => moments r t ++ momentsAll rest (run r t).2

end

/-! ## Lawful moments -/

/-- The moments that there are. -/
inductive Moment.Lawful : Moment ε α → Prop
  | looked (t : Trace α) (name : String) : Lawful ⟨t, .looked name (.ok (t.memo.get? name)), t⟩
  | started {t : Trace α} {name : String} (absent : t.memo.get? name = none) :
      Lawful ⟨t, .started name, t.start name⟩
  | recalled {t : Trace α} {name : String} {v : α} (held : t.memo.get? name = some v) :
      Lawful ⟨t, .fetched name none (.ok (some v)), t⟩
  | computed (t : Trace α) (name : String) (v : α) :
      Lawful ⟨t, .fetched name (some (.ok v)) (.ok (some v)), ⟨t.memo.insertNew name v, t.started⟩⟩
  | failed (t : Trace α) (name : String) (e : ε) : Lawful ⟨t, .fetched name (some (.error e)) (.error e), t⟩

namespace Moment.Lawful

variable {x : Moment ε α}

theorem kept (h : x.Lawful) : x.before.memo.Kept x.after.memo := by
  cases h with
  | computed t name v => exact Table.kept_insertNew _ name v
  | _ => exact Table.Kept.refl _

theorem started_after (h : x.Lawful) : x.after.started = x.before.started ++ x.event.start?.toList := by
  cases h with
  | started absent => rfl
  | _ => exact (List.append_nil _).symm

/-- A value that is stored is the value of a successful computation for the name. -/
theorem origin (h : x.Lawful) {k : String} {v : α} (hv : x.after.memo.get? k = some v) :
    x.before.memo.get? k = some v ∨ ∃ a, x.event = .fetched k (some (.ok v)) a := by
  cases h with
  | computed t name value =>
    rw [Table.get?_insertNew] at hv
    split at hv
    · rename_i hk
      subst hk
      cases hheld : t.memo.get? k with
      | none =>
        rw [hheld] at hv
        cases hv
        exact .inr ⟨_, rfl⟩
      | some held =>
        rw [hheld] at hv
        exact .inl hv
    · exact .inl hv
  | _ => exact .inl hv

/-- After a fetch that answers with a value there is an entry. It is another one only if the computation
has stored it. -/
theorem answer (h : x.Lawful) {k : String} {computed : Option (Except ε α)} {v : α}
    (hx : x.event = .fetched k computed (.ok (some v))) :
    ∃ held, x.after.memo.get? k = some held ∧
      (held = v ↔ computed = none ∨ ∀ w, x.before.memo.get? k = some w → w = v) := by
  cases h with
  | looked | started | failed => cases hx
  | recalled held =>
    cases hx
    exact ⟨v, held, iff_of_true rfl (.inl rfl)⟩
  | computed t name value =>
    cases hx
    refine ⟨(t.memo.get? k).getD v, by rw [Table.get?_insertNew, if_pos rfl], ?_⟩
    cases t.memo.get? k <;> simp

/-- A look-up or a fetch of a name with an entry gives the entry, and starts no computation. -/
theorem of_held (h : x.Lawful) {k : String} {v : α} (hv : x.before.memo.get? k = some v) :
    x.event ≠ .started k ∧ (∀ a, x.event = .looked k a → a = .ok (some v)) ∧
      ∀ a, x.event = .fetched k none a → a = .ok (some v) := by
  refine ⟨?_, ?_, ?_⟩
  · intro hx
    cases h with
    | started absent =>
      cases hx
      rw [absent] at hv
      cases hv
    | _ => cases hx
  · intro a hx
    cases h with
    | looked =>
      cases hx
      rw [hv]
    | _ => cases hx
  · intro a hx
    cases h with
    | recalled held =>
      cases hx
      rw [← held, hv]
    | _ => cases hx

end Moment.Lawful

/-! ## Courses -/

/-- Lawful moments one after another. -/
inductive Course : Trace α → List (Moment ε α) → Trace α → Prop
  | done (t : Trace α) : Course t [] t
  | next {x : Moment ε α} {log : List (Moment ε α)} {u : Trace α} (lawful : x.Lawful)
      (rest : Course x.after log u) : Course x.before (x :: log) u

namespace Course

variable {log log' past future : List (Moment ε α)} {x : Moment ε α}

theorem append (h : Course t log u) (h' : Course u log' w) : Course t (log ++ log') w := by
  induction h with
  | done => exact h'
  | next lawful _ ih => exact .next lawful (ih h')

theorem split (h : Course t (past ++ x :: future) u) :
    x.Lawful ∧ Course t past x.before ∧ Course x.after future u := by
  induction past generalizing t with
  | nil =>
    cases h with
    | next lawful rest => exact ⟨lawful, .done _, rest⟩
  | cons y past ih =>
    cases h with
    | next lawful rest =>
      obtain ⟨hx, hpast, hfuture⟩ := ih rest
      exact ⟨hx, .next lawful hpast, hfuture⟩

theorem kept (h : Course t log u) : t.memo.Kept u.memo := by
  induction h with
  | done t => exact Table.Kept.refl _
  | next lawful _ ih => exact lawful.kept.trans ih

theorem started (h : Course t log u) : u.started = t.started ++ log.filterMap (·.event.start?) := by
  induction h with
  | done t => exact (List.append_nil _).symm
  | @next x log u lawful _ ih =>
    rw [ih, lawful.started_after, List.append_assoc, List.filterMap_cons]
    cases x.event.start? <;> rfl

theorem origin (h : Course t log u) {k : String} {v : α} (hv : u.memo.get? k = some v) :
    t.memo.get? k = some v ∨ ∃ x ∈ log, ∃ a, x.event = .fetched k (some (.ok v)) a := by
  induction h with
  | done t => exact .inl hv
  | @next x log u lawful _ ih =>
    rcases ih hv with hafter | ⟨y, hy, hevent⟩
    · rcases lawful.origin hafter with hbefore | hevent
      · exact .inl hbefore
      · exact .inr ⟨x, List.mem_cons_self, hevent⟩
    · exact .inr ⟨y, List.mem_cons_of_mem _ hy, hevent⟩

theorem of_mem (h : Course t log u) (hx : x ∈ log) :
    x.Lawful ∧ t.memo.Kept x.before.memo ∧ x.after.memo.Kept u.memo := by
  obtain ⟨past, future, rfl⟩ := List.append_of_mem hx
  obtain ⟨lawful, hpast, hfuture⟩ := h.split
  exact ⟨lawful, hpast.kept, hfuture.kept⟩

theorem pairwise_kept (h : Course t log u) : log.Pairwise fun x y => x.after.memo.Kept y.before.memo := by
  induction h with
  | done t => exact .nil
  | next _ rest ih => exact .cons (fun _ hy => (rest.of_mem hy).2.1) ih

end Course

mutual

theorem course_moments : ∀ (r : MemoRequest ε α) (t : Trace α), Course t (moments r t) (run r t).2
  | .get name, t => by
    rw [moments, run]
    exact .next (.looked t name) (.done t)
  | .fetch name inner result, t => by
    rw [moments, run, MemoView.fetch, Table.contains]
    dsimp only [Trace.view]
    cases hget : t.memo.get? name with
    | some v => exact .next (.recalled hget) (.done t)
    | none =>
      -- The moments of the computation lie between its start and the answer.
      have hinner := course_momentsAll inner (t.start name)
      refine .next (.started hget) (hinner.append ?_)
      cases result with
      | ok v => exact .next (.computed _ name v) (.done _)
      | error e => exact .next (.failed _ name e) (.done _)

/-- The moments of requests lead from the trace before to the trace after them. -/
theorem course_momentsAll : ∀ (requests : List (MemoRequest ε α)) (t : Trace α),
    Course t (momentsAll requests t) (runAll requests t)
  | [], t => by
    rw [momentsAll, runAll]
    exact .done t
  | r :: rest, t => by
    rw [momentsAll, runAll]
    exact (course_moments r t).append (course_momentsAll rest (run r t).2)

end

/-! ## Entries are written once -/

/-- Entries are written once. The requests, those that computations make and the results are arbitrary, so
that they can depend on earlier answers in any way. -/
theorem entries_written_once (requests : List (MemoRequest ε α)) (t : Trace α) :
    let log := momentsAll requests t
    let final := runAll requests t
    -- An entry stays as it is from any moment on, and look-ups show it.
    ((∀ x ∈ log, t.memo.Kept x.before.memo ∧ x.before.memo.Kept x.after.memo ∧
        x.after.memo.Kept final.memo) ∧
      log.Pairwise (fun x y => x.after.memo.Kept y.before.memo) ∧
      ∀ x ∈ log, ∀ k a, x.event = .looked k a → a = .ok (x.before.memo.get? k)) ∧
    -- The computations that are started, in their order, are those of names without an entry.
    (final.started = t.started ++ log.filterMap (·.event.start?) ∧
      ∀ x ∈ log, ∀ k, x.event = .started k → x.before.memo.get? k = none) ∧
    -- A computation that fails leaves the memo as its own requests left it.
    (∀ x ∈ log, ∀ k e a, x.event = .fetched k (some (.error e)) a → a = .error e ∧ x.after = x.before) ∧
    -- A value that is stored was there at first, or a computation for its name succeeded with it.
    (∀ k v, final.memo.get? k = some v →
      t.memo.get? k = some v ∨ ∃ x ∈ log, ∃ a, x.event = .fetched k (some (.ok v)) a) := by
  intro log final
  have h : Course t log final := course_momentsAll requests t
  refine ⟨⟨?_, h.pairwise_kept, ?_⟩, ⟨h.started, ?_⟩, ?_, fun k v => h.origin⟩
  · intro x hx
    obtain ⟨lawful, hbefore, hafter⟩ := h.of_mem hx
    exact ⟨hbefore, lawful.kept, hafter⟩
  · rintro ⟨before, event, after⟩ hx k a rfl
    cases (h.of_mem hx).1
    rfl
  · rintro ⟨before, event, after⟩ hx k rfl
    cases (h.of_mem hx).1 with
    | started absent => exact absent
  · rintro ⟨before, event, after⟩ hx k e a rfl
    cases (h.of_mem hx).1
    exact ⟨rfl, rfl⟩

/-! ## Answers and entries -/

/-- A fetch that answers with a value leaves an entry for good, and all later look-ups and fetches give the
entry. It is the value itself if and only if the computation has not stored another one under the name. -/
theorem answers_held_iff (requests : List (MemoRequest ε α)) (t : Trace α)
    {past future : List (Moment ε α)} {x : Moment ε α} (hlog : momentsAll requests t = past ++ x :: future)
    {k : String} {computed : Option (Except ε α)} {v : α}
    (hx : x.event = .fetched k computed (.ok (some v))) :
    ∃ held, x.after.memo.get? k = some held ∧ (runAll requests t).memo.get? k = some held ∧
      (held = v ↔ computed = none ∨ ∀ w, x.before.memo.get? k = some w → w = v) ∧
      ∀ y ∈ future, y.before.memo.get? k = some held ∧ y.event ≠ .started k ∧
        (∀ a, y.event = .looked k a → a = .ok (some held)) ∧
        (∀ a, y.event = .fetched k none a → a = .ok (some held)) := by
  have h : Course t (past ++ x :: future) (runAll requests t) := hlog ▸ course_momentsAll requests t
  obtain ⟨lawful, -, hfuture⟩ := h.split
  obtain ⟨held, hheld, hiff⟩ := lawful.answer hx
  refine ⟨held, hheld, hfuture.kept k held hheld, hiff, fun y hy => ?_⟩
  obtain ⟨hlawful, hkept, -⟩ := hfuture.of_mem hy
  have hy : y.before.memo.get? k = some held := hkept k held hheld
  exact ⟨hy, hlawful.of_held hy⟩

/-- A computation that fetches another name: the outer value is stored and returned. -/
theorem answers_held_iff_nested :
    let log := momentsAll [(.fetch "outer" [.fetch "inner" [] (.ok 1)] (.ok 2) : MemoRequest String Nat),
      .get "outer"] ⟨Table.empty, []⟩
    ∃ x, log = log.take 3 ++ x :: log.drop 4 ∧ x.event = .fetched "outer" (some (.ok 2)) (.ok (some 2)) ∧
      x.before.memo.get? "outer" = none ∧ x.after.memo.get? "outer" = some 2 ∧
      ∀ y ∈ log.drop 4, ∀ a, y.event = .looked "outer" a → a = .ok (some 2) := by
  intro log
  obtain ⟨x, hlog, hx, habsent⟩ : ∃ x, log = log.take 3 ++ x :: log.drop 4 ∧
    x.event = .fetched "outer" (some (.ok 2)) (.ok (some 2)) ∧ x.before.memo.get? "outer" = none :=
    ⟨_, rfl, rfl, rfl⟩
  obtain ⟨held, hheld, -, hiff, hlater⟩ := answers_held_iff _ _ hlog hx
  obtain rfl : held = 2 := hiff.2 (.inr (by simp [habsent]))
  exact ⟨x, hlog, hx, habsent, hheld, fun y hy => (hlater y hy).2.2.1⟩

/-- A computation that fetches its own name: the inner value is stored, the outer one is returned. -/
theorem nested_answer_not_held :
    let outer : MemoRequest String Nat := .fetch "k" [.fetch "k" [] (.ok 1)] (.ok 2)
    let answer := run outer ⟨Table.empty, []⟩
    answer.1 = .ok (some 2) ∧ answer.2.memo.get? "k" = some 1 ∧
      (run (.get "k" : MemoRequest String Nat) answer.2).1 = .ok (some 1) := by
  exact ⟨rfl, by decide, rfl⟩

end MemoRequest
end PlayerScript
