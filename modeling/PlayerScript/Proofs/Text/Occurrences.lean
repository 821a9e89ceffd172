/-
Where a text occurs inside a text. The search for a text finds the least position from a start on, and
the pieces of a text are what stands between the leftmost occurrences of the separator that do not
overlap: joined by the separator they are the text again, and none of them contains it.
-/
import PlayerScript.Proofs.Source.Cuts

namespace PlayerScript.Text

open PlayerScript.Source

variable {r : Option Nat} {start : Nat} {ps : List Nat}

/-! ## Occurrences -/

/-- `needle` occurs in `cs` at position `p`. -/
def OccursAt (needle cs : List Char) (p : Nat) : Prop :=
  ∃ front back, cs = front ++ (needle ++ back) ∧ front.length = p

section

variable {needle cs : List Char} {p : Nat}

theorem occursAt_iff : OccursAt needle cs p ↔ p ≤ cs.length ∧ needle <+: cs.drop p := by
  constructor
  · rintro ⟨front, back, rfl, rfl⟩
    rw [List.drop_left]
    exact ⟨by simp, List.prefix_append needle back⟩
  · rintro ⟨hle, back, hback⟩
    refine ⟨cs.take p, back, ?_, List.length_take_of_le hle⟩
    rw [hback, List.take_append_drop]

theorem occursAt_zero : OccursAt needle cs 0 ↔ needle <+: cs := by
  rw [occursAt_iff, List.drop_zero]
  exact and_iff_right (Nat.zero_le _)

theorem occursAt_succ {c : Char} : OccursAt needle (c :: cs) (p + 1) ↔ OccursAt needle cs p := by
  rw [occursAt_iff, occursAt_iff, List.drop_succ_cons, List.length_cons, Nat.add_le_add_iff_right]

theorem occursAt_nil : OccursAt needle [] p ↔ p = 0 ∧ needle = [] := by
  rw [occursAt_iff, List.drop_nil, List.prefix_nil, List.length_nil, Nat.le_zero]

theorem occursAt_drop {k : Nat} (hk : k ≤ cs.length) :
    OccursAt needle (cs.drop k) p ↔ OccursAt needle cs (k + p) := by
  rw [occursAt_iff, occursAt_iff, List.drop_drop, List.length_drop]
  exact and_congr_left' (by omega)

theorem OccursAt.fits (h : OccursAt needle cs p) : p + needle.length ≤ cs.length := by
  obtain ⟨front, back, rfl, rfl⟩ := h
  simp only [List.length_append]
  omega

theorem exists_occursAt (h : needle <:+: cs) : ∃ p, OccursAt needle cs p := by
  obtain ⟨front, back, rfl⟩ := h
  exact ⟨front.length, front, back, List.append_assoc _ _ _, rfl⟩

end

/-! ## The least position -/

/-- What a search answers: the least number with a property, or none if there is no such number. -/
def Finds (P : Nat → Prop) : Option Nat → Prop
  | some p => IsLeast {q | P q} p
  | none => ∀ q, ¬ P q

theorem Finds.congr {P Q : Nat → Prop} (h : Finds P r) (hiff : ∀ q, P q ↔ Q q) : Finds Q r := by
  rwa [← funext fun q => propext (hiff q)]

/-- A search that tests one place after another: it ends at a place that passes, and goes on behind a
place that does not. -/
theorem Finds.cons {At Behind : Nat → Prop} {pos : Nat} {test : Bool}
    (htest : test = true ↔ start ≤ pos ∧ At 0) (hbehind : ∀ i, At (i + 1) ↔ Behind i)
    (h : Finds (fun q => ∃ i, q = pos + 1 + i ∧ start ≤ q ∧ Behind i) r) :
    Finds (fun q => ∃ i, q = pos + i ∧ start ≤ q ∧ At i) (if test then some pos else r) := by
  split_ifs with hpass
  · obtain ⟨hstart, hat⟩ := htest.1 hpass
    refine ⟨⟨0, rfl, hstart, hat⟩, ?_⟩
    rintro q ⟨i, rfl, -, -⟩
    exact Nat.le_add_right pos i
  · refine h.congr fun q => ⟨?_, ?_⟩
    · rintro ⟨i, rfl, hstart, hat⟩
      exact ⟨i + 1, by omega, hstart, (hbehind i).2 hat⟩
    · rintro ⟨i, rfl, hstart, hat⟩
      cases i with
      | zero => exact absurd (htest.2 ⟨hstart, hat⟩) hpass
      | succ i => exact ⟨i, by omega, hstart, (hbehind i).1 hat⟩

theorem Finds.unique {P : Nat → Prop} {r' : Option Nat} (h : Finds P r) (h' : Finds P r') : r = r' := by
  cases r with
  | none =>
    cases r' with
    | none => rfl
    | some p => exact absurd h'.1 (h p)
  | some p =>
    cases r' with
    | none => exact absurd h.1 (h' p)
    | some p' => rw [IsLeast.unique h h']

/-- The empty text is found behind the last character, and one that is too long nowhere. -/
example : find? [] 3 0 ['a', 'b', 'c'] = some 3 ∧ find? ['a', 'b'] 0 0 ['a'] = none := by decide

theorem exists_finds (P : Nat → Prop) : ∃ r, Finds P r := by
  classical
  by_cases h : ∃ q, P q
  · exact ⟨some (Nat.find h), Nat.find_spec h, fun q hq => Nat.find_min' h hq⟩
  · exact ⟨none, fun q hq => h ⟨q, hq⟩⟩

/-! ## Leftmost occurrences -/

/-- The positions of the leftmost occurrences of `sep` from a start on that do not overlap: the least
one, and then those behind its end. -/
inductive Leftmost (sep cs : List Char) : Nat → List Nat → Prop
  | stop {start : Nat} (h : ∀ q, start ≤ q → ¬ OccursAt sep cs q) : Leftmost sep cs start []
  | next {start p : Nat} {ps : List Nat} (h : IsLeast {q | start ≤ q ∧ OccursAt sep cs q} p)
      (hps : Leftmost sep cs (p + sep.length) ps) : Leftmost sep cs start (p :: ps)

section

variable {sep cs : List Char}

theorem Leftmost.unique {ps' : List Nat} (h : Leftmost sep cs start ps)
    (h' : Leftmost sep cs start ps') : ps' = ps := by
  induction h generalizing ps' with
  | stop hnone =>
    cases h' with
    | stop => rfl
    | next hleast _ => exact absurd hleast.1.2 (hnone _ hleast.1.1)
  | next hleast _ ih =>
    cases h' with
    | stop hnone => exact absurd hleast.1.2 (hnone _ hleast.1.1)
    | next hleast' hps' =>
      obtain rfl := hleast.unique hleast'
      rw [ih hps']

theorem exists_leftmost (hsep : sep ≠ []) (cs : List Char) (start : Nat) :
    ∃ ps, Leftmost sep cs start ps := by
  have hpos := List.length_pos_iff.2 hsep
  -- each occurrence takes up room, so that less of the text is left behind it
  induction hroom : cs.length - start using Nat.strong_induction_on generalizing start with
  | _ room ih =>
    obtain ⟨r, hr⟩ := exists_finds fun q => start ≤ q ∧ OccursAt sep cs q
    cases r with
    | none => exact ⟨[], .stop fun q hstart hat => hr q ⟨hstart, hat⟩⟩
    | some p =>
      have hfits := hr.1.2.fits
      have hstart : start ≤ p := hr.1.1
      obtain ⟨ps, hps⟩ := ih (cs.length - (p + sep.length)) (by omega) _ rfl
      exact ⟨p :: ps, .next hr hps⟩

/-! ## Pieces -/

/-- The parts of a text from a start on that stand between the given positions, at each of which
`width` characters are left out. -/
def between (width : Nat) (cs : List Char) : Nat → List Nat → List (List Char)
  | start, [] => [cs.drop start]
  | start, p :: ps => (cs.take p).drop start :: between width cs (p + width) ps

theorem piecesFrom_skip (sep cs : List Char) (skip : Nat) :
    piecesFrom sep cs skip = piecesFrom sep (cs.drop skip) 0 := by
  induction cs generalizing skip with
  | nil => rw [List.drop_nil, piecesFrom, piecesFrom]
  | cons c cs ih =>
    cases skip with
    | zero => rfl
    | succ skip => rw [piecesFrom, ih, List.drop_succ_cons]

theorem piecesFrom_of_absent (h : ∀ q, ¬ OccursAt sep cs q) : piecesFrom sep cs 0 = [cs] := by
  induction cs with
  | nil => rfl
  | cons c cs ih =>
    have hhere : ¬ beginsWith sep (c :: cs) = true := by
      rw [beginsWith_iff, ← occursAt_zero]
      exact h 0
    rw [piecesFrom, if_neg hhere, ih fun q hq => h (q + 1) (occursAt_succ.2 hq), consFirst]

/-- The first piece ends at the first occurrence, and the others are those of the text behind it. -/
theorem piecesFrom_of_first (hsep : sep ≠ []) {p : Nat} (hp : OccursAt sep cs p)
    (hleast : ∀ q, OccursAt sep cs q → p ≤ q) :
    piecesFrom sep cs 0 = cs.take p :: piecesFrom sep (cs.drop (p + sep.length)) 0 := by
  induction p generalizing cs with
  | zero =>
    obtain ⟨s, sep, rfl⟩ := List.exists_cons_of_ne_nil hsep
    rw [occursAt_zero] at hp
    obtain ⟨back, rfl⟩ := hp
    have hhere : beginsWith (s :: sep) (s :: (sep ++ back)) = true := beginsWith_iff.2 ⟨back, rfl⟩
    rw [List.cons_append, piecesFrom, if_pos hhere, piecesFrom_skip]
    simp
  | succ p ih =>
    cases cs with
    | nil => exact absurd (occursAt_nil.1 hp).2 hsep
    | cons c cs =>
      have hhere : ¬ beginsWith sep (c :: cs) = true := by
        rw [beginsWith_iff, ← occursAt_zero]
        intro h
        exact absurd (hleast 0 h) (by omega)
      have hrest := ih (occursAt_succ.1 hp) fun q hq => Nat.le_of_succ_le_succ (hleast _ (occursAt_succ.2 hq))
      rw [piecesFrom, if_neg hhere, hrest, consFirst, List.take_succ_cons, Nat.succ_add,
        List.drop_succ_cons]

/-- The pieces are the parts between the leftmost occurrences. -/
theorem piecesFrom_of_leftmost (hsep : sep ≠ []) (hstart : start ≤ cs.length)
    (h : Leftmost sep cs start ps) :
    piecesFrom sep (cs.drop start) 0 = between sep.length cs start ps := by
  induction h with
  | @stop start hnone =>
    refine piecesFrom_of_absent fun q hq => ?_
    exact hnone (start + q) (Nat.le_add_right _ _) ((occursAt_drop hstart).1 hq)
  | @next start p ps hleast _ ih =>
    obtain ⟨k, rfl⟩ := Nat.exists_eq_add_of_le hleast.1.1
    have hfits := hleast.1.2.fits
    have hfirst := piecesFrom_of_first hsep ((occursAt_drop hstart).2 hleast.1.2) fun q hq =>
      Nat.le_of_add_le_add_left (hleast.2 ⟨Nat.le_add_right _ _, (occursAt_drop hstart).1 hq⟩)
    rw [hfirst, between, ← ih hfits, List.drop_drop, Nat.add_assoc, List.drop_take, Nat.add_sub_cancel_left]

theorem pieces_of_leftmost (hsep : sep ≠ []) (h : Leftmost sep cs 0 ps) :
    pieces sep cs = between sep.length cs 0 ps := by
  rw [pieces, if_neg (by simpa using hsep)]
  exact piecesFrom_of_leftmost hsep (Nat.zero_le _) h

/-! ## What the pieces are -/

theorem length_between (width : Nat) (cs : List Char) (start : Nat) (ps : List Nat) :
    (between width cs start ps).length = ps.length + 1 := by
  induction ps generalizing start with
  | nil => rfl
  | cons p ps ih => rw [between, List.length_cons, ih, List.length_cons]

theorem intercalate_between (h : Leftmost sep cs start ps) :
    List.intercalate sep (between sep.length cs start ps) = cs.drop start := by
  induction h with
  | stop => simp [between]
  | @next start p ps hleast _ ih =>
    obtain ⟨hstart, front, back, rfl, rfl⟩ := hleast.1
    have hne : between sep.length (front ++ (sep ++ back)) (front.length + sep.length) ps ≠ [] := by
      cases ps <;> exact List.cons_ne_nil _ _
    rw [between, intercalate_cons hne, ih, List.take_left, List.drop_append_of_le_length hstart,
      List.drop_length_add_append, List.drop_left]

theorem not_infix_between (hsep : sep ≠ []) (hstart : start ≤ cs.length)
    (h : Leftmost sep cs start ps) : ∀ piece ∈ between sep.length cs start ps, ¬ sep <:+: piece := by
  have hpos := List.length_pos_iff.2 hsep
  induction h with
  | @stop start hnone =>
    rintro piece hpiece hinfix
    obtain rfl := List.mem_singleton.1 hpiece
    obtain ⟨q, hq⟩ := exists_occursAt hinfix
    exact hnone (start + q) (Nat.le_add_right _ _) ((occursAt_drop hstart).1 hq)
  | @next start p ps hleast _ ih =>
    rintro piece hpiece hinfix
    rcases List.mem_cons.1 hpiece with rfl | hpiece
    · -- an occurrence inside the piece ends before the first one begins
      obtain ⟨q, hq⟩ := exists_occursAt hinfix
      have hfits := hq.fits
      rw [List.length_drop, List.length_take] at hfits
      obtain ⟨front, back, heq, rfl⟩ := hq
      have hat : OccursAt sep cs (start + front.length) := by
        refine (occursAt_drop hstart).1 ⟨front, back ++ cs.drop p, ?_, rfl⟩
        have hle : start ≤ (cs.take p).length := by
          rw [List.length_take]
          exact le_min hleast.1.1 hstart
        calc cs.drop start = (cs.take p ++ cs.drop p).drop start := by rw [List.take_append_drop]
          _ = (cs.take p).drop start ++ cs.drop p := List.drop_append_of_le_length hle
          _ = front ++ (sep ++ (back ++ cs.drop p)) := by rw [heq]; simp
      have := hleast.2 ⟨Nat.le_add_right _ _, hat⟩
      omega
    · exact ih hleast.1.2.fits piece hpiece hinfix

theorem intercalate_singletons (cs : List Char) : List.intercalate [] (cs.map fun c => [c]) = cs := by
  induction cs with
  | nil => rfl
  | cons c cs ih =>
    cases cs with
    | nil => rfl
    | cons d cs =>
      rw [List.map_cons, intercalate_cons (by simp), ih]
      rfl

/-- The pieces joined by the separator are the text. -/
theorem intercalate_pieces (sep cs : List Char) : List.intercalate sep (pieces sep cs) = cs := by
  by_cases hsep : sep = []
  · rw [hsep]
    exact intercalate_singletons cs
  · obtain ⟨ps, hps⟩ := exists_leftmost hsep cs 0
    rw [pieces_of_leftmost hsep hps, intercalate_between hps, List.drop_zero]

/-- Of a separator that overlaps itself, the leftmost occurrences are cut out. -/
example : pieces ['a', 'a'] ['a', 'a', 'a', 'a', 'a'] = [[], [], ['a']] := by decide

end

end PlayerScript.Text
