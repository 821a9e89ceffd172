/-
Where the splitter cuts a text. Its pieces joined by the delimiter are the text again; the delimiters
that it cuts at are the occurrences where nothing is open, taken from left to right and apart from each
other; and a limit only leaves the pieces behind it joined.
-/
import PlayerScript.Proofs.Token.Lexemes
import PlayerScript.Source.Splitter

namespace PlayerScript.Source

open PlayerScript.Text

variable {pieces : List (List Char)}

theorem beginsWith_iff {lead cs : List Char} : beginsWith lead cs = true ↔ lead <+: cs := by
  constructor
  · intro h
    obtain ⟨rest, hrest⟩ := Option.isSome_iff_exists.1 h
    exact ⟨rest, (after?_eq_some hrest).symm⟩
  · rintro ⟨rest, rfl⟩
    rw [beginsWith, after?_append, Option.isSome_some]

/-! ## Joining the pieces -/

theorem consFirst_ne_nil (c : Char) (pieces : List (List Char)) : consFirst c pieces ≠ [] := by
  cases pieces <;> exact List.cons_ne_nil _ _

theorem separateFrom_ne_nil (delim : List Char) (limit : Option Nat) (n : Nesting) (skip : Nat)
    (cs : List Char) : separateFrom delim limit n skip cs ≠ [] := by
  fun_induction separateFrom delim limit n skip cs with
  | case1 => exact List.cons_ne_nil _ _
  | case2 _ _ _ _ _ ih => exact ih
  | case3 => exact List.cons_ne_nil _ _
  | case4 => exact List.cons_ne_nil _ _
  | case5 => exact consFirst_ne_nil _ _

theorem intercalate_cons {delim piece : List Char} (h : pieces ≠ []) :
    List.intercalate delim (piece :: pieces) = piece ++ (delim ++ List.intercalate delim pieces) := by
  obtain ⟨second, more, rfl⟩ := List.exists_cons_of_ne_nil h
  rw [List.intercalate_cons_cons, List.append_assoc]

theorem intercalate_consFirst (delim : List Char) (c : Char) (h : pieces ≠ []) :
    List.intercalate delim (consFirst c pieces) = c :: List.intercalate delim pieces := by
  obtain ⟨first, more, rfl⟩ := List.exists_cons_of_ne_nil h
  cases more with
  | nil => simp [consFirst]
  | cons second more => simp [consFirst]

/-- The pieces joined are the text, without what is passed over at its beginning. -/
theorem intercalate_separateFrom {delim : List Char} (hdelim : delim ≠ []) (limit : Option Nat)
    (n : Nesting) (skip : Nat) (cs : List Char) :
    List.intercalate delim (separateFrom delim limit n skip cs) = cs.drop skip := by
  fun_induction separateFrom delim limit n skip cs with
  | case1 => simp
  | case2 limit n skip c cs ih => rw [ih, List.drop_succ_cons]
  | case3 => simp
  | case4 limit n c cs hlimit after hhonoured ih =>
    rw [Bool.and_eq_true, beginsWith_iff] at hhonoured
    obtain ⟨rest, hrest⟩ := hhonoured.2
    obtain ⟨d, tail, rfl⟩ := List.exists_cons_of_ne_nil hdelim
    cases hrest
    rw [intercalate_cons (separateFrom_ne_nil _ _ _ _ _), ih]
    simp
  | case5 limit n c cs hlimit after hpassed ih =>
    rw [intercalate_consFirst _ _ (separateFrom_ne_nil _ _ _ _ _), ih]
    rfl

/-! ## Limits -/

/-- The first `k` pieces, and the others joined into one if they are more than one. -/
def joinBehind (delim : List Char) (k : Nat) (pieces : List (List Char)) : List (List Char) :=
  if pieces.length ≤ k + 1 then pieces
  else pieces.take k ++ [List.intercalate delim (pieces.drop k)]

theorem joinBehind_cons (delim piece : List Char) (k : Nat) (pieces : List (List Char)) :
    joinBehind delim (k + 1) (piece :: pieces) = piece :: joinBehind delim k pieces := by
  unfold joinBehind
  rw [List.length_cons]
  split_ifs with hlong hshort hshort
  · rfl
  · omega
  · omega
  · rfl

theorem joinBehind_consFirst (delim : List Char) (c : Char) (k : Nat) (h : pieces ≠ []) :
    joinBehind delim (k + 1) (consFirst c pieces) = consFirst c (joinBehind delim (k + 1) pieces) := by
  obtain ⟨first, more, rfl⟩ := List.exists_cons_of_ne_nil h
  rw [consFirst, joinBehind_cons, joinBehind_cons, consFirst]

theorem joinBehind_zero {delim text : List Char} (hne : pieces ≠ [])
    (h : List.intercalate delim pieces = text) : joinBehind delim 0 pieces = [text] := by
  obtain ⟨first, more, rfl⟩ := List.exists_cons_of_ne_nil hne
  unfold joinBehind
  cases more with
  | nil => simpa using h
  | cons second more => simpa using h

theorem separateFrom_step (delim : List Char) {limit : Option Nat} (hlimit : limit ≠ some 0)
    (n : Nesting) (c : Char) (cs : List Char) :
    separateFrom delim limit n 0 (c :: cs) =
      if (n.step c).isTopLevel && beginsWith delim (c :: cs) then
        [] :: separateFrom delim (limit.map (· - 1)) (n.step c) (delim.length - 1) cs
      else consFirst c (separateFrom delim limit (n.step c) 0 cs) := by
  rw [separateFrom, if_neg hlimit]

theorem separateFrom_limit {delim : List Char} (hdelim : delim ≠ []) (k : Nat) (n : Nesting)
    (skip : Nat) (cs : List Char) :
    separateFrom delim (some k) n skip cs = joinBehind delim k (separateFrom delim none n skip cs) := by
  induction cs generalizing k n skip with
  | nil => simp [separateFrom, joinBehind]
  | cons c cs ih =>
    cases skip with
    | succ skip => rw [separateFrom, separateFrom, ih]
    | zero =>
      cases k with
      | zero =>
        have hjoined := intercalate_separateFrom hdelim none n 0 (c :: cs)
        rw [joinBehind_zero (separateFrom_ne_nil _ _ _ _ _) hjoined, separateFrom, if_pos rfl]
        rfl
      | succ k =>
        rw [separateFrom_step _ (by simp), separateFrom_step _ (by simp)]
        split
        · rw [joinBehind_cons, Option.map_none, ← ih]
          rfl
        · rw [joinBehind_consFirst _ _ _ (separateFrom_ne_nil _ _ _ _ _), ← ih]

/-! ## Honoured occurrences -/

section

variable (code delim : List Char) (len : Nat) (cuts : List Nat) (i : Nat)

/-- A position behind the first character of an occurrence of length `len` that is cut out. -/
def Covered : Prop := ∃ c ∈ cuts, c < i ∧ i < c + len

instance : Decidable (Covered len cuts i) := inferInstanceAs (Decidable (∃ c ∈ cuts, _))

/-- The characters before a position that are scanned, given the occurrences that are cut out. -/
def scanned : List Char :=
  ((List.range i).filter fun j => ¬Covered len cuts j).filterMap fun j => code[j]?

/-- What is open before a position. -/
def openBefore : Nesting := (scanned code len cuts i).foldl Nesting.step .none

/-- The delimiter occurs at a position, apart from the occurrences that are cut out before it, and
nothing is open behind its first character. -/
structure Honoured : Prop where
  occurs : delim <+: code.drop i
  apart : ¬Covered delim.length cuts i
  topLevel : (openBefore code delim.length cuts (i + 1)).isTopLevel = true

/-- The positions of all honoured occurrences, from left to right. -/
structure CutsOf : Prop where
  spaced : cuts.Pairwise fun a b => a + delim.length ≤ b
  exact : ∀ i, i ∈ cuts ↔ Honoured code delim cuts i

end

variable {code delim : List Char} {len : Nat} {cuts cuts' : List Nat} {i : Nat}

/-- Only the cuts before a position matter there. -/
theorem covered_congr (h : ∀ c < i, c ∈ cuts ↔ c ∈ cuts') : Covered len cuts i ↔ Covered len cuts' i := by
  constructor
  · rintro ⟨c, hc, hlt, hle⟩
    exact ⟨c, (h c hlt).1 hc, hlt, hle⟩
  · rintro ⟨c, hc, hlt, hle⟩
    exact ⟨c, (h c hlt).2 hc, hlt, hle⟩

theorem scanned_congr (h : ∀ c, c + 1 < i → (c ∈ cuts ↔ c ∈ cuts')) :
    scanned code len cuts i = scanned code len cuts' i := by
  unfold scanned
  congr 1
  refine List.filter_congr fun j hj => ?_
  rw [List.mem_range] at hj
  have hcovered : Covered len cuts j ↔ Covered len cuts' j := covered_congr fun c hc => h c (by omega)
  rw [decide_eq_decide, hcovered]

theorem honoured_congr (h : ∀ c < i, c ∈ cuts ↔ c ∈ cuts') (hi : Honoured code delim cuts i) :
    Honoured code delim cuts' i where
  occurs := hi.occurs
  apart := fun hcovered => hi.apart ((covered_congr h).2 hcovered)
  topLevel := by
    have hscanned : scanned code delim.length cuts (i + 1) = scanned code delim.length cuts' (i + 1) :=
      scanned_congr fun c hc => h c (by omega)
    rw [openBefore, ← hscanned]
    exact hi.topLevel

theorem scanned_covered (h : Covered len cuts i) :
    scanned code len cuts (i + 1) = scanned code len cuts i := by
  simp [scanned, List.range_succ, h]

theorem scanned_next {c : Char} (h : ¬Covered len cuts i) (hc : code[i]? = some c) :
    scanned code len cuts (i + 1) = scanned code len cuts i ++ [c] := by
  simp [scanned, List.range_succ, h, hc]

/-- A text has at most one list of honoured occurrences. -/
theorem CutsOf.unique (hdelim : delim ≠ []) (h : CutsOf code delim cuts) (h' : CutsOf code delim cuts') :
    cuts' = cuts := by
  have hmem : ∀ i, i ∈ cuts ↔ i ∈ cuts' := by
    intro i
    induction i using Nat.strong_induction_on with
    | _ i ih =>
      rw [h.exact, h'.exact]
      exact ⟨honoured_congr ih, honoured_congr fun c hc => (ih c hc).symm⟩
  have hpos := List.length_pos_iff.2 hdelim
  have hsorted : ∀ {cuts : List Nat}, CutsOf code delim cuts → cuts.Pairwise (· < ·) :=
    fun h => h.spaced.imp fun hab => by omega
  exact (hsorted h').eq_of_mem_iff (hsorted h) fun i => (hmem i).symm

/-! ## The cuts of the splitter -/

/-- The positions at which the rest of a text is cut, where it stands from `pos` on. -/
def cutsFrom (delim : List Char) : Nesting → Nat → Nat → List Char → List Nat
  | _, _, _, [] => []
  | n, skip + 1, pos, _ :: cs => cutsFrom delim n skip (pos + 1) cs
  | n, 0, pos, c :: cs =>
    let after := n.step c
    if after.isTopLevel && beginsWith delim (c :: cs) then
      pos :: cutsFrom delim after (delim.length - 1) (pos + 1) cs
    else cutsFrom delim after 0 (pos + 1) cs

theorem le_of_mem_cutsFrom {n : Nesting} {skip pos : Nat} {cs : List Char} :
    ∀ c ∈ cutsFrom delim n skip pos cs, pos + skip ≤ c := by
  fun_induction cutsFrom delim n skip pos cs with
  | case1 => simp
  | case2 n skip pos c cs ih => exact fun i hi => by have := ih i hi; omega
  | case3 n pos c cs after hhonoured ih =>
    intro i hi
    rcases List.mem_cons.1 hi with rfl | hi
    · exact Nat.le_refl _
    · have := ih i hi
      omega
  | case4 n pos c cs after hpassed ih => exact fun i hi => by have := ih i hi; omega

theorem spaced_cutsFrom (hdelim : delim ≠ []) {n : Nesting} {skip pos : Nat} {cs : List Char} :
    (cutsFrom delim n skip pos cs).Pairwise fun a b => a + delim.length ≤ b := by
  have hpos := List.length_pos_iff.2 hdelim
  fun_induction cutsFrom delim n skip pos cs with
  | case1 => exact .nil
  | case2 _ _ _ _ _ ih => exact ih
  | case3 n pos c cs after hhonoured ih =>
    refine .cons (fun i hi => ?_) ih
    have := le_of_mem_cutsFrom i hi
    omega
  | case4 _ _ _ _ _ _ ih => exact ih

/-- The state of the splitter in front of the rest of a text: what it has scanned and what it passes
over are given by the cuts it has made. -/
structure Reached (code delim past cs : List Char) (made : List Nat) (n : Nesting) (skip : Nat) : Prop where
  text : code = past ++ cs
  made_lt : ∀ c ∈ made, c < past.length
  covered : ∀ j, past.length ≤ j → (Covered delim.length made j ↔ j < past.length + skip)
  nesting : openBefore code delim.length made past.length = n

namespace Reached

variable {past cs : List Char} {made : List Nat} {n : Nesting} {skip : Nat} {c : Char}

theorem getElem?_eq (h : Reached code delim past (c :: cs) made n skip) :
    code[past.length]? = some c := by
  rw [h.text]
  simp

/-- One character more, at which nothing is cut. -/
theorem advance {next : Nesting} (h : Reached code delim past (c :: cs) made n skip)
    (hnext : openBefore code delim.length made (past.length + 1) = next) :
    Reached code delim (past ++ [c]) cs made next (skip - 1) where
  text := by rw [h.text]; simp
  made_lt := fun d hd => by
    have := h.made_lt d hd
    simp
    omega
  covered := fun j hj => by
    rw [List.length_append, List.length_singleton] at hj ⊢
    rw [h.covered j (by omega)]
    omega
  nesting := by
    rw [List.length_append, List.length_singleton]
    exact hnext

/-- A character that belongs to a delimiter already found is passed over. -/
theorem skip_step (h : Reached code delim past (c :: cs) made n (skip + 1)) :
    Reached code delim (past ++ [c]) cs made n skip := by
  refine h.advance ?_
  have hcovered := (h.covered past.length (Nat.le_refl _)).2 (by omega)
  rw [openBefore, scanned_covered hcovered]
  exact h.nesting

theorem not_covered (h : Reached code delim past (c :: cs) made n 0) :
    ¬Covered delim.length made past.length := by
  rw [h.covered _ (Nat.le_refl _)]
  omega

theorem openBefore_next (h : Reached code delim past (c :: cs) made n 0) :
    openBefore code delim.length made (past.length + 1) = n.step c := by
  rw [openBefore, scanned_next h.not_covered h.getElem?_eq, List.foldl_append, ← h.nesting]
  rfl

/-- A character at which nothing is cut is scanned. -/
theorem pass_step (h : Reached code delim past (c :: cs) made n 0) :
    Reached code delim (past ++ [c]) cs made (n.step c) 0 := h.advance h.openBefore_next

/-- At a cut, the first character of the delimiter is scanned and the others are passed over. -/
theorem cut_step (hdelim : delim ≠ []) (h : Reached code delim past (c :: cs) made n 0) :
    Reached code delim (past ++ [c]) cs (made ++ [past.length]) (n.step c) (delim.length - 1) where
  text := by rw [h.text]; simp
  made_lt := fun d hd => by
    rw [List.mem_append, List.mem_singleton] at hd
    rw [List.length_append, List.length_singleton]
    rcases hd with hd | rfl
    · have := h.made_lt d hd
      omega
    · omega
  covered := fun j hj => by
    have hpos := List.length_pos_iff.2 hdelim
    rw [List.length_append, List.length_singleton] at hj ⊢
    have hbefore := h.covered j (by omega)
    constructor
    · rintro ⟨d, hd, hlt, hle⟩
      rw [List.mem_append, List.mem_singleton] at hd
      rcases hd with hd | rfl
      · have := hbefore.1 ⟨d, hd, hlt, hle⟩
        omega
      · omega
    · intro hlt
      exact ⟨past.length, by simp, by omega, by omega⟩
  nesting := by
    rw [List.length_append, List.length_singleton, ← h.openBefore_next, openBefore, openBefore]
    congr 1
    refine scanned_congr fun d hd => ?_
    have : d ≠ past.length := by omega
    simp [this]

/-- A position that is passed over is not honoured. -/
theorem not_honoured (h : Reached code delim past (c :: cs) made n (skip + 1)) (later : List Nat) :
    ¬Honoured code delim (made ++ later) past.length := by
  intro hhonoured
  obtain ⟨d, hd, hcover⟩ := (h.covered past.length (Nat.le_refl _)).2 (by omega)
  exact hhonoured.apart ⟨d, List.mem_append_left _ hd, hcover⟩

/-- Whether the position that is scanned next is honoured does not depend on later cuts. -/
theorem honoured_iff (h : Reached code delim past (c :: cs) made n 0) {later : List Nat}
    (hlater : ∀ d ∈ later, past.length ≤ d) :
    Honoured code delim (made ++ later) past.length ↔
      ((n.step c).isTopLevel && beginsWith delim (c :: cs)) = true := by
  have hsame : ∀ d < past.length, d ∈ made ++ later ↔ d ∈ made := by
    intro d hd
    have : d ∉ later := fun hmem => absurd (hlater d hmem) (by omega)
    simp [this]
  have hbegins : beginsWith delim (c :: cs) = true ↔ delim <+: code.drop past.length := by
    rw [beginsWith_iff, h.text, List.drop_left]
  rw [Bool.and_eq_true, hbegins, ← h.openBefore_next]
  constructor
  · intro hhonoured
    have hmade := honoured_congr hsame hhonoured
    exact ⟨hmade.topLevel, hmade.occurs⟩
  · rintro ⟨htop, hocc⟩
    exact honoured_congr (fun d hd => (hsame d hd).symm) ⟨hocc, h.not_covered, htop⟩

end Reached

/-- From any state on, the positions at which the splitter cuts are those of honoured occurrences. -/
theorem mem_cutsFrom_iff (hdelim : delim ≠ []) {cs : List Char} : ∀ {past : List Char} {made : List Nat}
    {n : Nesting} {skip : Nat}, Reached code delim past cs made n skip → ∀ i, past.length ≤ i →
    (i ∈ cutsFrom delim n skip past.length cs ↔
      Honoured code delim (made ++ cutsFrom delim n skip past.length cs) i) := by
  induction cs with
  | nil =>
    intro past made n skip h i hi
    constructor
    · simp [cutsFrom]
    · intro hhonoured
      have hdrop : code.drop i = [] := by
        rw [h.text, List.append_nil, List.drop_eq_nil_iff]
        exact hi
      have hocc := hhonoured.occurs
      rw [hdrop, List.prefix_nil] at hocc
      exact absurd hocc hdelim
  | cons c cs ih =>
    intro past made n skip h i hi
    have hlen : (past ++ [c]).length = past.length + 1 := by simp
    -- what is cut later stands behind the position
    have hlater : ∀ {n skip}, ∀ d ∈ cutsFrom delim n skip (past.length + 1) cs, past.length < d := by
      intro n skip d hd
      have := le_of_mem_cutsFrom d hd
      omega
    rcases Nat.eq_or_lt_of_le hi with rfl | hlt
    · cases skip with
      | succ skip => exact iff_of_false (fun hmem => absurd (hlater _ hmem) (by omega)) (h.not_honoured _)
      | zero =>
        rw [cutsFrom]
        split
        · rename_i hcut
          refine iff_of_true List.mem_cons_self ((h.honoured_iff ?_).2 hcut)
          exact List.forall_mem_cons.2 ⟨Nat.le_refl _, fun d hd => Nat.le_of_lt (hlater d hd)⟩
        · rename_i hpass
          exact iff_of_false (fun hmem => absurd (hlater _ hmem) (by omega))
            (mt (h.honoured_iff fun d hd => Nat.le_of_lt (hlater d hd)).1 hpass)
    · cases skip with
      | succ skip =>
        have hnext := ih h.skip_step
        rw [hlen] at hnext
        exact hnext i hlt
      | zero =>
        rw [cutsFrom]
        split
        · have hnext := ih (h.cut_step hdelim)
          rw [hlen] at hnext
          rw [List.append_cons, ← hnext i hlt, List.mem_cons]
          simp [Nat.ne_of_gt hlt]
        · have hnext := ih h.pass_step
          rw [hlen] at hnext
          exact hnext i hlt

theorem cutsOf_cutsFrom (hdelim : delim ≠ []) (code : List Char) :
    CutsOf code delim (cutsFrom delim .none 0 0 code) where
  spaced := spaced_cutsFrom hdelim
  exact := fun i => by
    have hstart : Reached code delim [] code [] .none 0 := ⟨rfl, by simp, by simp [Covered], rfl⟩
    have hmem := mem_cutsFrom_iff hdelim hstart i (Nat.zero_le i)
    rwa [List.nil_append] at hmem

/-! ## The pieces between the cuts -/

/-- The pieces of a text from a position on, where occurrences of length `len` are cut out. -/
def piecesBetween (code : List Char) (len : Nat) : Nat → List Nat → List (List Char)
  | start, [] => [code.drop start]
  | start, cut :: cuts => (code.drop start).take (cut - start) :: piecesBetween code len (cut + len) cuts

theorem length_piecesBetween (code : List Char) (len start : Nat) (cuts : List Nat) :
    (piecesBetween code len start cuts).length = cuts.length + 1 := by
  induction cuts generalizing start with
  | nil => rfl
  | cons cut cuts ih => rw [piecesBetween, List.length_cons, List.length_cons, ih]

theorem piecesBetween_cons {past cs : List Char} {c : Char} {cuts : List Nat}
    (hcuts : ∀ i ∈ cuts, past.length + 1 ≤ i) :
    piecesBetween (past ++ c :: cs) len past.length cuts =
      consFirst c (piecesBetween (past ++ c :: cs) len (past.length + 1) cuts) := by
  have hdrop : (past ++ c :: cs).drop (past.length + 1) = cs := by
    rw [List.append_cons, ← List.length_singleton (a := c), ← List.length_append, List.drop_left]
  cases cuts with
  | nil => rw [piecesBetween, piecesBetween, List.drop_left, hdrop, consFirst]
  | cons cut cuts =>
    have hcut := hcuts cut List.mem_cons_self
    rw [piecesBetween, piecesBetween, List.drop_left, hdrop, consFirst,
      show cut - past.length = cut - (past.length + 1) + 1 by omega, List.take_succ_cons]

theorem separateFrom_eq_piecesBetween (hdelim : delim ≠ []) (cs : List Char) : ∀ (past : List Char)
    (n : Nesting) (skip : Nat), separateFrom delim none n skip cs =
      piecesBetween (past ++ cs) delim.length (past.length + skip)
        (cutsFrom delim n skip past.length cs) := by
  have hpos := List.length_pos_iff.2 hdelim
  induction cs with
  | nil =>
    intro past n skip
    rw [separateFrom, cutsFrom, piecesBetween, List.append_nil, List.drop_eq_nil_of_le (by omega)]
  | cons c cs ih =>
    intro past n skip
    have hlen : (past ++ [c]).length = past.length + 1 := by simp
    cases skip with
    | succ skip =>
      rw [separateFrom, cutsFrom, ih (past ++ [c]), hlen, List.append_assoc, List.singleton_append,
        show past.length + 1 + skip = past.length + (skip + 1) by omega]
    | zero =>
      rw [separateFrom_step _ (by simp), cutsFrom, Nat.add_zero]
      split
      · rw [Option.map_none, ih (past ++ [c]), hlen, piecesBetween, List.append_assoc,
          List.singleton_append, show past.length + 1 + (delim.length - 1) = past.length + delim.length by
            omega]
        simp
      · have hcuts : ∀ i ∈ cutsFrom delim (n.step c) 0 (past.length + 1) cs, past.length + 1 ≤ i := by
          intro i hi
          have := le_of_mem_cutsFrom i hi
          omega
        rw [ih (past ++ [c]), hlen, List.append_assoc, List.singleton_append, Nat.add_zero,
          piecesBetween_cons hcuts]

/-! ## Separating -/

theorem separate_eq (hcode : code ≠ []) (hdelim : delim ≠ []) (limit : Option Nat) :
    separate code delim limit = separateFrom delim limit .none 0 code := by
  rw [separate]
  simp [hcode, hdelim]

/-- **The splitter loses nothing, and its limit only joins.** Joined by the delimiter, the pieces are
the text again, whatever the limit. Without a limit they are the pieces between the honoured
occurrences, of which there is exactly one list. A limit keeps the first pieces and joins the others. -/
theorem separate_at_honoured (code delim : List Char) (hcode : code ≠ []) (hdelim : delim ≠ []) :
    (∀ limit, List.intercalate delim (separate code delim limit) = code) ∧
    ∃ cuts, CutsOf code delim cuts ∧ (∀ cuts', CutsOf code delim cuts' → cuts' = cuts) ∧
      separate code delim none = piecesBetween code delim.length 0 cuts ∧
      ∀ k, separate code delim (some k) =
        if cuts.length ≤ k then separate code delim none
        else (separate code delim none).take k ++
          [List.intercalate delim ((separate code delim none).drop k)] := by
  have hcuts := cutsOf_cutsFrom hdelim code
  have hpieces := separateFrom_eq_piecesBetween hdelim code [] .none 0
  refine ⟨fun limit => ?_, _, hcuts, fun cuts' h' => hcuts.unique hdelim h', ?_, fun k => ?_⟩
  · rw [separate_eq hcode hdelim, intercalate_separateFrom hdelim, List.drop_zero]
  · rw [separate_eq hcode hdelim, hpieces]
    rfl
  · have hlength : (separateFrom delim none .none 0 code).length =
        (cutsFrom delim .none 0 0 code).length + 1 := by
      rw [hpieces, length_piecesBetween]
      rfl
    rw [separate_eq hcode hdelim, separate_eq hcode hdelim, separateFrom_limit hdelim, joinBehind, hlength]
    simp only [Nat.add_le_add_iff_right]

/-- A text with a delimiter that overlaps the next one, and with others in brackets and in quotes. -/
def shiftText : List Char := "a>>>b(>>)'>>\\''>>c".toList

/-- The delimiter of that text. -/
def shiftMark : List Char := ['>', '>']

example : separate shiftText shiftMark none = ["a".toList, ">b(>>)'>>\\''".toList, "c".toList] := by cbv

theorem separate_at_honoured_sample :
    (∀ limit, List.intercalate shiftMark (separate shiftText shiftMark limit) = shiftText) ∧
    ∃ cuts, CutsOf shiftText shiftMark cuts ∧ (∀ cuts', CutsOf shiftText shiftMark cuts' → cuts' = cuts) ∧
      separate shiftText shiftMark none = piecesBetween shiftText shiftMark.length 0 cuts ∧
      ∀ k, separate shiftText shiftMark (some k) =
        if cuts.length ≤ k then separate shiftText shiftMark none
        else (separate shiftText shiftMark none).take k ++
          [List.intercalate shiftMark ((separate shiftText shiftMark none).drop k)] :=
  separate_at_honoured _ _ (by cbv; exact List.cons_ne_nil _ _) (List.cons_ne_nil _ _)

end PlayerScript.Source
