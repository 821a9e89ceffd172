/-
Printed documents are read back. The characters of a string are printed apart from each other, so that
each is read as it was; an integer is read to its last digit; and the elements of an array and the members
of an object are read up to the commas between them. The document that is read is the printed one, as long
as its numbers are integers of 64 bits and it is not nested too deep.
-/
import PlayerScript.Json.Printer
import PlayerScript.Json.Reader
import PlayerScript.Proofs.Json.Numerals

namespace PlayerScript.Json

open PlayerScript.Text PlayerScript.Token

variable {rest cs : List Char} {c : Char} {w : Written} {d : Nat} {t : String} {j : Json}

/-! ## Strings -/

/-- The part of a written string that a character is printed as. Control characters without a letter of
their own are printed as codes. -/
def printedPart (c : Char) : StringPart :=
  if c.toNat < 32 ∧ c.toNat ∉ [8, 9, 10, 12, 13] then .code c.toNat else .char c

theorem hexCode?_control : ∀ n < 32, hexCode? ['0', '0', hexDigit (n / 16), hexDigit (n % 16)] = some n := by
  decide

/-- What a character is printed as is read as one part. -/
theorem readString_escaped (c : Char) (cs : List Char) :
    readString (escaped c ++ cs) = (readString cs).map (consPart (printedPart c)) := by
  have hc : c = Char.ofNat c.toNat := (Char.ofNat_toNat c).symm
  unfold escaped
  split
  case h_8 hquote hslash hback htab hline hform hreturn =>
    split
    · rename_i hcontrol
      have hpart : printedPart c = .code c.toNat := by
        refine if_pos ⟨hcontrol, ?_⟩
        simp only [List.mem_cons, List.not_mem_nil, or_false, not_or]
        exact ⟨hback, htab, hline, hform, hreturn⟩
      rw [hpart]
      simp only [List.cons_append, List.nil_append, readString, hexCode?_control _ hcontrol]
    · rename_i hcontrol
      have hpart : printedPart c = .char c := if_neg (by omega)
      have hq : c ≠ '"' := fun h => hquote (by rw [h]; rfl)
      have hs : c ≠ '\\' := fun h => hslash (by rw [h]; rfl)
      rw [hpart, List.singleton_append, readString]
      · simp only [hq, hs, hcontrol, if_false, or_self]
      · exact fun _ _ _ _ _ h => absurd h hs
      · exact fun _ _ h => absurd h hs
  all_goals
    rename_i hcode
    rw [hcode] at hc
    subst hc
    rfl

theorem characters?_printedPart (c : Char) (parts : List StringPart) :
    characters? (printedPart c :: parts) = (characters? parts).map fun cs => c :: cs := by
  unfold printedPart
  split
  · rename_i hcode
    have hhigh : isHighSurrogate c.toNat = false := by simp [isHighSurrogate]; omega
    have hlow : isLowSurrogate c.toNat = false := by simp [isLowSurrogate]; omega
    cases parts with
    | nil => simp [characters?, hhigh, hlow]
    | cons p parts => cases p <;> simp [characters?, hhigh, hlow]
  · rw [characters?]

theorem readString_printed (cs rest : List Char) :
    readString (cs.flatMap escaped ++ '"' :: rest) = some (cs.map printedPart, rest) := by
  induction cs with
  | nil => simp [readString]
  | cons c cs ih => rw [List.flatMap_cons, List.append_assoc, readString_escaped, ih]; rfl

theorem characters?_printed (cs : List Char) : characters? (cs.map printedPart) = some cs := by
  induction cs with
  | nil => rfl
  | cons c cs ih => rw [List.map_cons, characters?_printedPart, ih]; rfl

theorem string?_printed (s : String) : string? (s.toList.map printedPart) = some s := by
  rw [string?, characters?_printed, Option.map_some, String.ofList_toList]

theorem toList_quoted (s : String) : (quoted s).toList = '"' :: (s.toList.flatMap escaped ++ ['"']) := by
  simp [quoted]

/-! ## Integers -/

theorem isDigits_toDigits (n : Nat) : IsDigits (Nat.toDigits 10 n) :=
  ⟨Nat.toDigits_ne_nil, fun _ h => Number.isDecimal_toDigits h⟩

/-- Only zero is printed with a zero in front. -/
theorem head?_toDigits (n : Nat) (h : 0 < n) : (Nat.toDigits 10 n).head? ≠ some '0' := by
  have hdigit : ∀ m < 10, 0 < m → [Nat.digitChar m].head? ≠ some '0' := by decide
  induction n using Nat.strongRecOn with
  | _ n ih =>
    by_cases hn : n < 10
    · rw [Nat.toDigits_of_lt_base hn]
      exact hdigit n hn h
    · have hhead := ih (n / 10) (by omega) (by omega)
      rw [Nat.toDigits_of_base_le (by norm_num) (by omega), List.head?_append_of_ne_nil _ Nat.toDigits_ne_nil]
      exact hhead

theorem readWhole_toDigits (n : Nat) (hrest : Ended rest) :
    readWhole (Nat.toDigits 10 n ++ rest) = some (Nat.toDigits 10 n, rest) := by
  obtain ⟨htake, hdrop⟩ := takeWhile_of_stop (isDigits_toDigits n).decimal (hrest.stop rfl)
  have hzero : ((Nat.toDigits 10 n).head? == some '0' && decide (1 < (Nat.toDigits 10 n).length)) = false := by
    rcases Nat.eq_zero_or_pos n with rfl | hpos
    · rfl
    · rw [beq_false_of_ne (head?_toDigits n hpos), Bool.false_and]
  unfold readWhole
  simp [htake, hdrop, hzero, Nat.toDigits_ne_nil]

theorem readFraction_of_ended (hrest : Ended rest) : readFraction rest = some ([], rest) := by
  unfold readFraction
  split
  · rename_i cs
    exact absurd (hrest '.' rfl) (by decide)
  · rfl

theorem readExponent_of_ended (hrest : Ended rest) : readExponent rest = some (none, rest) := by
  cases rest with
  | nil => rfl
  | cons c cs =>
    have hmark : ¬ (c = 'e' ∨ c = 'E') := by
      rintro (rfl | rfl)
      · exact absurd (hrest 'e' rfl) (by decide)
      · exact absurd (hrest 'E' rfl) (by decide)
    rw [readExponent, if_neg hmark]

/-- The number that an integer is printed as. -/
def printedNumeral (n : Int) : Numeral := ⟨decide (n < 0), Nat.toDigits 10 n.natAbs, [], none⟩

theorem toList_integerText (n : Int) :
    (integerText n).toList = (if n < 0 then ['-'] else []) ++ Nat.toDigits 10 n.natAbs := by
  unfold integerText
  split <;> simp

theorem readNumber_integerText (n : Int) (hrest : Ended rest) :
    readNumber ((integerText n).toList ++ rest) = some (.number (printedNumeral n), rest) := by
  have hmagnitude : ∀ negative, readMagnitude negative (Nat.toDigits 10 n.natAbs ++ rest) =
      some (.number ⟨negative, Nat.toDigits 10 n.natAbs, [], none⟩, rest) := by
    intro negative
    simp [readMagnitude, readWhole_toDigits _ hrest, readFraction_of_ended hrest, readExponent_of_ended hrest]
  rw [toList_integerText, printedNumeral]
  split
  · rename_i hneg
    rw [decide_eq_true hneg]
    exact hmagnitude true
  · rename_i hneg
    obtain ⟨d, tail, hds, -, -, hminus⟩ := (isDigits_toDigits n.natAbs).head
    rw [decide_eq_false hneg, List.nil_append, ← hmagnitude false, hds, List.cons_append, readNumber]
    exact fun _ h => hminus (List.cons.inj h).1

/-- What an integer begins with when it is printed. -/
theorem integerText_cons (n : Int) :
    ∃ c tail, (integerText n).toList = c :: tail ∧ (c = '-' ∨ isDecimal c = true) := by
  obtain ⟨d, tail, hds, hd, -, -⟩ := (isDigits_toDigits n.natAbs).head
  rw [toList_integerText, hds]
  split
  · exact ⟨'-', d :: tail, rfl, .inl rfl⟩
  · exact ⟨d, tail, rfl, .inr hd⟩

theorem readPlain_number (hc : c = '-' ∨ isDecimal c = true) (cs : List Char) :
    readPlain (c :: cs) = readNumber (c :: cs) := by
  unfold readPlain
  split
  case h_5 => rfl
  all_goals
    rename_i heq
    cases heq
    exact absurd hc (by decide)

theorem takeDigits_of_lt {n taken : Nat}
    (h : cs.foldl (fun n c => n * 10 + digitValue c) n < wordBound) :
    takeDigits n taken cs = (cs.foldl (fun n c => n * 10 + digitValue c) n, taken + cs.length) := by
  induction cs generalizing n taken with
  | nil => rfl
  | cons c cs ih =>
    have hle : ∀ (cs : List Char) (k : Nat), k ≤ cs.foldl (fun n c => n * 10 + digitValue c) k := by
      intro cs
      induction cs with
      | nil => exact fun k => Nat.le_refl k
      | cons d ds ihds => exact fun k => le_trans (by omega) (ihds (k * 10 + digitValue d))
    rw [List.foldl_cons] at h ⊢
    rw [takeDigits, if_pos (lt_of_le_of_lt (hle cs _) h), ih h, List.length_cons]
    congr 1
    omega

/-- An integer that fits into 64 bits is read as it was printed. -/
theorem toJson?_printedNumeral {n : Int} (h : n.natAbs < 2 ^ 63) :
    (printedNumeral n).toJson? = some (.integer n) := by
  have hvalue : (Nat.toDigits 10 n.natAbs).foldl (fun n c => n * 10 + digitValue c) 0 = n.natAbs :=
    Number.natOfDigits_toDigits n.natAbs
  have hbound : wordBound = 2 ^ 64 := rfl
  have htake : takeDigits 0 0 (Nat.toDigits 10 n.natAbs) = (n.natAbs, (Nat.toDigits 10 n.natAbs).length) := by
    rw [takeDigits_of_lt (by omega), hvalue, Nat.zero_add]
  unfold Numeral.toJson? printedNumeral
  simp only [htake, List.isEmpty_nil, Option.isNone_none, BEq.rfl, Bool.and_self, if_true]
  by_cases hneg : n < 0
  · have hfits : (decide (0 < n.natAbs) && decide (n.natAbs ≤ 0x8000000000000000)) = true := by
      simp; omega
    simp only [hneg, decide_true, Bool.not_true, Bool.false_eq_true, if_false, hfits, if_true]
    congr 2
    omega
  · simp only [hneg, decide_false, Bool.not_false, if_true]
    congr 2
    omega

/-! ## Reading at the first character -/

/-- A text begins with a character that cannot stand right behind a document. -/
def Begun (cs : List Char) : Prop := ∃ c tail, cs = c :: tail ∧ c ∉ endChars

theorem Begun.append (h : Begun cs) (rest : List Char) : Begun (cs ++ rest) := by
  obtain ⟨c, tail, rfl, hc⟩ := h
  exact ⟨c, tail ++ rest, rfl, hc⟩

theorem Begun.dropBlanks (h : Begun cs) : dropBlanks cs = cs := by
  obtain ⟨c, tail, rfl, hc⟩ := h
  have hblank : ¬ ((c == ' ' || c == '\t' || c == '\n' || c == '\r') = true) := by
    intro hblank
    simp only [Bool.or_eq_true, beq_iff_eq] at hblank
    rcases hblank with ((rfl | rfl) | rfl) | rfl <;> exact hc (by decide)
  exact List.dropWhile_cons_of_neg hblank

theorem dropBlanks_quote (cs : List Char) : dropBlanks ('"' :: cs) = '"' :: cs :=
  Begun.dropBlanks ⟨'"', cs, rfl, by decide⟩

theorem dropBlanks_colon (cs : List Char) : dropBlanks (':' :: cs) = ':' :: cs :=
  Begun.dropBlanks ⟨':', cs, rfl, by decide⟩

theorem readDocument_plain (hc : c ∉ endChars) (hbracket : c ≠ '[') (hbrace : c ≠ '\x7b')
    (fuel : Nat) (cs : List Char) : readDocument (fuel + 1) (c :: cs) = readPlain (c :: cs) := by
  rw [readDocument, Begun.dropBlanks ⟨c, cs, rfl, hc⟩]
  split
  · rename_i heq
    exact absurd (List.cons.inj heq).1 hbracket
  · rename_i heq
    exact absurd (List.cons.inj heq).1 hbrace
  · rfl

theorem readDocument_array (h : Begun cs) (fuel : Nat) :
    readDocument (fuel + 1) ('[' :: cs) = (readItems fuel cs).map fun r => (.array r.1, r.2) := by
  rw [readDocument, Begun.dropBlanks ⟨'[', cs, rfl, by decide⟩]
  simp only [h.dropBlanks]
  split
  · obtain ⟨c, tail, hcs, hc⟩ := h
    cases hcs
    exact absurd (by decide) hc
  · rfl

theorem readDocument_object (h : Begun cs) (fuel : Nat) :
    readDocument (fuel + 1) ('\x7b' :: cs) = (readMembers fuel cs).map fun r => (.object r.1, r.2) := by
  rw [readDocument, Begun.dropBlanks ⟨'\x7b', cs, rfl, by decide⟩]
  simp only [h.dropBlanks]
  split
  · obtain ⟨c, tail, hcs, hc⟩ := h
    cases hcs
    exact absurd (by decide) hc
  · rfl

/-! ## Documents -/

/-- The numbers of a document are integers that fit into 64 bits, and its containers are nested at most
`d` deep. -/
inductive IntegralWithin : Nat → Json → Prop
  | null {d : Nat} : IntegralWithin d .null
  | bool {d : Nat} (b : Bool) : IntegralWithin d (.bool b)
  | integer {d : Nat} {n : Int} (h : n.natAbs < 2 ^ 63) : IntegralWithin d (.integer n)
  | string {d : Nat} (s : String) : IntegralWithin d (.string s)
  | array {d : Nat} {items : List Json} (h : ∀ j ∈ items, IntegralWithin d j) :
      IntegralWithin (d + 1) (.array items)
  | object {d : Nat} {members : List (String × Json)} (h : ∀ m ∈ members, IntegralWithin d m.2) :
      IntegralWithin (d + 1) (.object members)

/-- A text is read as a document, whatever follows it. Two steps for each character are enough. -/
structure ReadsAs (cs : List Char) (w : Written) : Prop where
  begun : Begun cs
  read : ∀ {fuel : Nat} {rest : List Char}, 2 * cs.length ≤ fuel → Ended rest →
    readDocument fuel (cs ++ rest) = some (w, rest)

/-- A document is read as it was printed, and is nested at most `d` deep. -/
def ReadBack (d : Nat) (j : Json) : Prop :=
  ∃ w, ReadsAs j.text.toList w ∧ w.toJson? = some j ∧ w.depth ≤ d

theorem readsAs_plain {tail : List Char} (hc : c ∉ endChars) (hbracket : c ≠ '[')
    (hbrace : c ≠ '\x7b') (h : ∀ rest, Ended rest → readPlain (c :: (tail ++ rest)) = some (w, rest)) :
    ReadsAs (c :: tail) w := by
  refine ⟨⟨c, tail, rfl, hc⟩, fun {fuel rest} hfuel hrest => ?_⟩
  rw [List.length_cons] at hfuel
  obtain ⟨fuel, rfl⟩ : ∃ k, fuel = k + 1 := ⟨fuel - 1, by omega⟩
  rw [List.cons_append, readDocument_plain hc hbracket hbrace, h rest hrest]

theorem readBack_null : ReadBack d .null :=
  ⟨.null, readsAs_plain (by decide) (by decide) (by decide) fun _ _ => rfl, rfl, Nat.zero_le d⟩

theorem readBack_bool (b : Bool) : ReadBack d (.bool b) := by
  refine ⟨.bool b, ?_, rfl, Nat.zero_le d⟩
  cases b <;> exact readsAs_plain (by decide) (by decide) (by decide) fun _ _ => rfl

theorem readBack_string (s : String) : ReadBack d (.string s) := by
  refine ⟨.string (s.toList.map printedPart), ?_, ?_, Nat.zero_le d⟩
  · rw [text, toList_quoted]
    refine readsAs_plain (by decide) (by decide) (by decide) fun rest _ => ?_
    rw [List.append_assoc, List.singleton_append, readPlain, readString_printed]
    rfl
  · rw [Written.toJson?, string?_printed]
    rfl

theorem readBack_integer {n : Int} (h : n.natAbs < 2 ^ 63) : ReadBack d (.integer n) := by
  refine ⟨.number (printedNumeral n), ?_, ?_, Nat.zero_le d⟩
  · obtain ⟨c, tail, htext, hc⟩ := integerText_cons n
    have hother : ('[' :: '\x7b' :: endChars).any (fun c => c == '-' || isDecimal c) = false := rfl
    have hne : c ∉ '[' :: '\x7b' :: endChars := fun hmem =>
      List.any_eq_false.1 hother c hmem (by simpa using hc)
    simp only [List.mem_cons, not_or] at hne
    rw [text, htext]
    refine readsAs_plain hne.2.2 hne.1 hne.2.1 fun rest hrest => ?_
    rw [readPlain_number hc, ← List.cons_append, ← htext, readNumber_integerText n hrest]
  · rw [Written.toJson?, toJson?_printedNumeral h]

/-! ## Containers -/

/-- Texts with commas between them. -/
def joined (texts : List String) : List Char := List.intercalate [','] (texts.map String.toList)

theorem joined_singleton (t : String) : joined [t] = t.toList := by simp [joined]

theorem joined_cons_cons (t u : String) (ts : List String) :
    joined (t :: u :: ts) = t.toList ++ ',' :: joined (u :: ts) := by
  simp [joined, List.intercalate_cons_cons]

theorem begun_joined (h : Begun t.toList) (ts : List String) : Begun (joined (t :: ts)) := by
  cases ts with
  | nil => rwa [joined_singleton]
  | cons u ts =>
    rw [joined_cons_cons]
    exact h.append _

theorem ended_cons (hc : c ∈ endChars) (rest : List Char) : Ended (c :: rest) := by
  intro c' hc'
  cases hc'
  exact hc

theorem text_array (items : List Json) :
    (Json.array items).text.toList = '[' :: (joined (itemTexts items) ++ [']']) := by
  simp [text, joined, String.toList_intercalate]

theorem text_object (members : List (String × Json)) :
    (Json.object members).text.toList = '\x7b' :: (joined (memberTexts members) ++ ['\x7d']) := by
  simp [text, joined, String.toList_intercalate]

/-- A reader of elements takes up a text as an element, between commas and before the closing mark. -/
structure Taken {α : Type} (read : Nat → List Char → Option (List α × List Char)) (mark : Char) (t : String)
    (a : α) : Prop where
  comma : ∀ {fuel : Nat} (rest : List Char), 2 * t.toList.length ≤ fuel →
    read (fuel + 1) (t.toList ++ ',' :: rest) = (read fuel rest).map fun r => (a :: r.1, r.2)
  last : ∀ {fuel : Nat} (rest : List Char), 2 * t.toList.length ≤ fuel →
    read (fuel + 1) (t.toList ++ mark :: rest) = some ([a], rest)

/-- Elements are read up to the closing mark. -/
theorem read_joined {α : Type} {read : Nat → List Char → Option (List α × List Char)} {mark : Char}
    {ts : List String} {a : α} {as : List α} (h : Taken read mark t a)
    (hs : List.Forall₂ (Taken read mark) ts as) {fuel : Nat}
    (hfuel : 2 * ((joined (t :: ts)).length + 1) ≤ fuel) :
    read fuel (joined (t :: ts) ++ mark :: rest) = some (a :: as, rest) := by
  induction hs generalizing t a fuel with
  | nil =>
    rw [joined_singleton] at hfuel ⊢
    obtain ⟨fuel, rfl⟩ : ∃ k, fuel = k + 1 := ⟨fuel - 1, by omega⟩
    exact h.last rest (by omega)
  | cons hu _ ih =>
    rw [joined_cons_cons] at hfuel ⊢
    rw [List.length_append, List.length_cons] at hfuel
    obtain ⟨fuel, rfl⟩ : ∃ k, fuel = k + 1 := ⟨fuel - 1, by omega⟩
    rw [List.append_assoc, List.cons_append, h.comma _ (by omega), ih hu (by omega)]
    rfl

theorem taken_item (hw : ReadsAs t.toList w) : Taken readItems ']' t w where
  comma rest hfuel := by
    rw [readItems, hw.read hfuel (ended_cons (by decide) rest)]
    rfl
  last rest hfuel := by
    rw [readItems, hw.read hfuel (ended_cons (by decide) rest)]
    rfl

theorem taken_items {items : List Json} (h : ∀ j ∈ items, ReadBack d j) :
    ∃ ws, itemsOf? ws = some items ∧ depthOfItems ws ≤ d ∧
      List.Forall₂ (Taken readItems ']') (itemTexts items) ws := by
  induction items with
  | nil => exact ⟨[], rfl, Nat.zero_le d, .nil⟩
  | cons j items ih =>
    obtain ⟨w, hw, hj, hd⟩ := h j List.mem_cons_self
    obtain ⟨ws, hws, hdepth, htaken⟩ := ih fun k hk => h k (List.mem_cons_of_mem _ hk)
    exact ⟨w :: ws, by simp [itemsOf?, hj, hws], by simp [depthOfItems, hd, hdepth], .cons (taken_item hw) htaken⟩

/-- The text of a member. -/
def memberText (key : String) (j : Json) : String := quoted key ++ ":" ++ j.text

theorem toList_memberText (key : String) (j : Json) : (memberText key j).toList =
    '"' :: (key.toList.flatMap escaped ++ '"' :: ':' :: j.text.toList) := by
  simp [memberText, toList_quoted]

theorem taken_member {key : String} (hw : ReadsAs j.text.toList w) :
    Taken readMembers '\x7d' (memberText key j) (key.toList.map printedPart, w) := by
  have hlength : j.text.toList.length ≤ (memberText key j).toList.length := by
    rw [toList_memberText, List.length_cons, List.length_append, List.length_cons, List.length_cons]
    omega
  constructor
  all_goals
    intro fuel rest hfuel
    have hdoc := fun c hc => hw.read (le_trans (Nat.mul_le_mul_left 2 hlength) hfuel) (@ended_cons c hc rest)
    rw [toList_memberText, readMembers]
    simp only [List.cons_append, List.append_assoc, dropBlanks_quote, readString_printed, dropBlanks_colon]
    rw [hdoc _ (by decide)]
    rfl

theorem taken_members {members : List (String × Json)} (h : ∀ m ∈ members, ReadBack d m.2) :
    ∃ ws, membersOf? ws = some members ∧ depthOfMembers ws ≤ d ∧
      List.Forall₂ (Taken readMembers '\x7d') (memberTexts members) ws := by
  induction members with
  | nil => exact ⟨[], rfl, Nat.zero_le d, .nil⟩
  | cons m members ih =>
    obtain ⟨w, hw, hj, hd⟩ := h m List.mem_cons_self
    obtain ⟨ws, hws, hdepth, htaken⟩ := ih fun k hk => h k (List.mem_cons_of_mem _ hk)
    exact ⟨(m.1.toList.map printedPart, w) :: ws, by simp [membersOf?, string?_printed, hj, hws],
      by simp [depthOfMembers, hd, hdepth], .cons (taken_member hw) htaken⟩

theorem readsAs_container {first mark : Char} (hfirst : first ∉ endChars)
    (h : ∀ {fuel : Nat} {rest : List Char}, 2 * (cs.length + 1) ≤ fuel →
      readDocument (fuel + 1) (first :: (cs ++ mark :: rest)) = some (w, rest)) :
    ReadsAs (first :: (cs ++ [mark])) w := by
  refine ⟨⟨first, _, rfl, hfirst⟩, fun {fuel rest} hfuel _ => ?_⟩
  rw [List.length_cons, List.length_append, List.length_singleton] at hfuel
  obtain ⟨fuel, rfl⟩ : ∃ k, fuel = k + 1 := ⟨fuel - 1, by omega⟩
  rw [List.cons_append, List.append_assoc, List.singleton_append]
  exact h (by omega)

theorem readBack_array {items : List Json} (h : ∀ j ∈ items, ReadBack d j) :
    ReadBack (d + 1) (.array items) := by
  obtain ⟨ws, hws, hdepth, htaken⟩ := taken_items h
  refine ⟨.array ws, ?_, by rw [Written.toJson?, hws]; rfl, by rw [Written.depth]; omega⟩
  rw [text_array]
  refine readsAs_container (by decide) fun {fuel rest} hfuel => ?_
  cases items with
  | nil =>
    cases htaken
    rfl
  | cons j items =>
    obtain ⟨w, hw, -⟩ := h j List.mem_cons_self
    rw [itemTexts] at htaken hfuel ⊢
    cases htaken with
    | cons hfirst hmore =>
      rw [readDocument_array ((begun_joined hw.begun _).append _), read_joined hfirst hmore hfuel]
      rfl

theorem readBack_object {members : List (String × Json)} (h : ∀ m ∈ members, ReadBack d m.2) :
    ReadBack (d + 1) (.object members) := by
  obtain ⟨ws, hws, hdepth, htaken⟩ := taken_members h
  refine ⟨.object ws, ?_, by rw [Written.toJson?, hws]; rfl, by rw [Written.depth]; omega⟩
  rw [text_object]
  refine readsAs_container (by decide) fun {fuel rest} hfuel => ?_
  cases members with
  | nil =>
    cases htaken
    rfl
  | cons m members =>
    have hbegun : Begun (memberText m.1 m.2).toList := ⟨'"', _, toList_memberText m.1 m.2, by decide⟩
    change List.Forall₂ _ (memberText m.1 m.2 :: memberTexts members) _ at htaken
    change 2 * ((joined (memberText m.1 m.2 :: memberTexts members)).length + 1) ≤ fuel at hfuel
    cases htaken with
    | cons hfirst hmore =>
      show readDocument (fuel + 1) ('\x7b' :: (joined (memberText m.1 m.2 :: memberTexts members) ++ _)) = _
      rw [readDocument_object ((begun_joined hbegun _).append _), read_joined hfirst hmore hfuel]
      rfl

/-- Every document whose numbers are integers of 64 bits is read back. -/
theorem IntegralWithin.readBack (h : IntegralWithin d j) : ReadBack d j := by
  induction h with
  | null => exact readBack_null
  | bool b => exact readBack_bool b
  | integer h => exact readBack_integer h
  | string s => exact readBack_string s
  | array _ ih => exact readBack_array ih
  | object _ ih => exact readBack_object ih

/-- Reading undoes printing, for documents that are not nested too deep. -/
theorem parse?_text (h : IntegralWithin d j) (hd : d < depthBound) :
    parse? j.text.toList = some j := by
  obtain ⟨w, hw, hj, hdepth⟩ := h.readBack
  have hread : Written.read? j.text.toList = some w := by
    have hdoc := @ReadsAs.read _ _ hw (2 * j.text.toList.length + 2) [] (by omega) (by simp [Ended])
    rw [List.append_nil] at hdoc
    rw [Written.read?, hdoc]
    rfl
  rw [parse?, hread]
  show (if w.depth < depthBound then w.toJson? else none) = some j
  rw [if_pos (lt_of_le_of_lt hdepth hd), hj]

end PlayerScript.Json
