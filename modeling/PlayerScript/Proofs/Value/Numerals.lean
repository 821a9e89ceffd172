/-
Which texts convert to a number. A numeric literal is empty, or at most one sign and then `Infinity`, a
hexadecimal integer below 2 ^ 64, or a decimal with at least one digit. Literals are read, and so are
texts with one sign more: a second sign before a decimal, or a plus sign behind the mark `0x`. Every other
text converts to NaN, and no text that is read does.
-/
import PlayerScript.Proofs.Json.Numerals
import PlayerScript.Proofs.Number.Whole
import PlayerScript.Value.Convert

namespace PlayerScript.Number

open PlayerScript.Text PlayerScript.Json

/-! ## Literals -/

/-- A decimal without a sign. -/
inductive DecimalText : List Char → Prop
  | whole {ds power : List Char} {e : Option (Bool × List Char)} (hds : IsDigits ds)
      (hpower : ExponentText power e) : DecimalText (ds ++ power)
  | pointed {ds fraction power : List Char} {e : Option (Bool × List Char)}
      (hds : IsDigits (ds ++ fraction)) (hpower : ExponentText power e) :
      DecimalText (ds ++ '.' :: (fraction ++ power))

/-- The digits of a hexadecimal integer below 2 ^ 64. -/
structure HexDigits (ds : List Char) : Prop where
  ne_nil : ds ≠ []
  hexadecimal : ∀ d ∈ ds, isDigitOf 16 d = true
  bound : natOfDigits 16 ds < wordBound

/-- What a literal is behind its sign. -/
inductive MagnitudeText : List Char → Prop
  | infinity : MagnitudeText "Infinity".toList
  | hexadecimal {mark : Char} {ds : List Char} (hmark : mark ∈ ['x', 'X']) (hds : HexDigits ds) :
      MagnitudeText ('0' :: mark :: ds)
  | decimal {cs : List Char} (h : DecimalText cs) : MagnitudeText cs

/-- A numeric literal. -/
inductive NumericLiteral : List Char → Prop
  | empty : NumericLiteral []
  | signed {sign cs : List Char} {negative : Bool} (hsign : SignText sign negative)
      (h : MagnitudeText cs) : NumericLiteral (sign ++ cs)

/-- A text with one sign more than a literal. -/
inductive OverSigned : List Char → Prop
  | hexadecimal {sign ds : List Char} {mark : Char} {negative : Bool} (hsign : SignText sign negative)
      (hmark : mark ∈ ['x', 'X']) (hds : HexDigits ds) : OverSigned (sign ++ '0' :: mark :: '+' :: ds)
  | decimal {c d : Char} {cs : List Char} {negative negative' : Bool} (hfirst : SignText [c] negative)
      (hsecond : SignText [d] negative') (h : DecimalText cs) : OverSigned (c :: d :: cs)

/-! ## Digits, signs and exponents -/

theorem digits_iff {p : Char → Bool} {ds : List Char} :
    (ds.isEmpty || !ds.all p) = false ↔ ds ≠ [] ∧ ∀ d ∈ ds, p d = true := by
  simp

/-- Every text is a run of digits and what stands behind it. -/
theorem exists_digits (cs : List Char) : ∃ ds rest, cs = ds ++ rest ∧ (∀ d ∈ ds, isDecimal d = true) ∧
    ∀ c ∈ rest.head?, isDecimal c = false := by
  refine ⟨_, _, (List.takeWhile_append_dropWhile (p := isDecimal)).symm,
    fun _ hd => List.mem_takeWhile_imp hd, fun c hc => ?_⟩
  have hhead := List.head?_dropWhile_not isDecimal cs
  rw [hc] at hhead
  exact hhead

/-- A text does not begin with a sign. -/
def Unsigned (cs : List Char) : Prop := ∀ c ∈ cs.head?, c ≠ '+' ∧ c ≠ '-'

theorem takeSign_text (cs : List Char) :
    ∃ sign, SignText sign (takeSign cs).1 ∧ cs = sign ++ (takeSign cs).2 := Json.takeSign_text cs

theorem takeSign_append {sign cs : List Char} {negative : Bool} (hsign : SignText sign negative)
    (hcs : Unsigned cs ∨ sign ≠ []) : takeSign (sign ++ cs) = (negative, cs) := by
  cases hsign with
  | minus => rfl
  | plus => rfl
  | none =>
    cases cs with
    | nil => rfl
    | cons c cs =>
      obtain ⟨hplus, hminus⟩ := hcs.resolve_right (fun h => h rfl) c rfl
      simp [takeSign, hplus, hminus]

theorem exponent?_isSome_iff (cs : List Char) : (exponent? cs).isSome = true ↔ ∃ e, ExponentText cs e := by
  constructor
  · intro h
    cases cs with
    | nil => exact ⟨none, .none⟩
    | cons c cs =>
      obtain ⟨sign, hsign, hcs⟩ := takeSign_text cs
      rw [exponent?] at h
      dsimp only at h
      split at h
      · rename_i hmark
        split at h
        · cases h
        · rename_i hdigits
          obtain ⟨hne, hall⟩ := digits_iff.1 (Bool.eq_false_iff.2 hdigits)
          rw [hcs]
          exact ⟨_, .marked hmark hsign ⟨hne, hall⟩⟩
      · cases h
  · rintro ⟨e, he⟩
    rw [exponent?_text he]
    rfl

theorem exponentText_head {power : List Char} {e : Option (Bool × List Char)} (h : ExponentText power e) :
    ∀ c ∈ power.head?, isDecimal c = false ∧ c ≠ '.' := by
  cases h with
  | none => simp
  | marked hmark =>
    rintro c ⟨⟩
    rcases hmark with rfl | rfl <;> decide

/-! ## Decimals -/

section Decimals

variable {negative : Bool} {ds fraction rest cs : List Char}

theorem decimal?_whole (hds : ∀ d ∈ ds, isDecimal d = true) (hrest : ∀ c ∈ rest.head?, isDecimal c = false)
    (hpoint : rest.head? ≠ some '.') :
    (decimal? negative (ds ++ rest)).isSome = true ↔ ds ≠ [] ∧ (exponent? rest).isSome = true := by
  obtain ⟨htake, hdrop⟩ := takeWhile_of_stop hds hrest
  simp only [decimal?, htake, hdrop, hpoint, if_false, List.isEmpty_nil, Bool.and_true]
  cases ds <;> simp

theorem decimal?_pointed (hds : ∀ d ∈ ds ++ fraction, isDecimal d = true)
    (hrest : ∀ c ∈ rest.head?, isDecimal c = false) :
    (decimal? negative (ds ++ '.' :: (fraction ++ rest))).isSome = true ↔
      ds ++ fraction ≠ [] ∧ (exponent? rest).isSome = true := by
  obtain ⟨hwhole, hfraction⟩ := List.forall_mem_append.1 hds
  have hpoint : ∀ c ∈ ('.' :: (fraction ++ rest)).head?, isDecimal c = false := by simp; decide
  obtain ⟨htake, hdrop⟩ := takeWhile_of_stop hwhole hpoint
  obtain ⟨htake', hdrop'⟩ := takeWhile_of_stop hfraction hrest
  simp only [decimal?, htake, hdrop, List.head?_cons, if_true, List.drop_succ_cons, List.drop_zero, htake',
    hdrop']
  cases ds <;> cases fraction <;> simp

theorem decimal?_isSome_iff : (decimal? negative cs).isSome = true ↔ DecimalText cs := by
  constructor
  · intro h
    obtain ⟨ds, rest, rfl, hds, hrest⟩ := exists_digits cs
    by_cases hpoint : rest.head? = some '.'
    · obtain ⟨more, rfl⟩ := List.head?_eq_some_iff.1 hpoint
      obtain ⟨fraction, power, rfl, hfraction, hpower⟩ := exists_digits more
      have hall := List.forall_mem_append.2 ⟨hds, hfraction⟩
      obtain ⟨hne, hexponent⟩ := (decimal?_pointed hall hpower).1 h
      obtain ⟨e, he⟩ := (exponent?_isSome_iff power).1 hexponent
      exact .pointed ⟨hne, hall⟩ he
    · obtain ⟨hne, hexponent⟩ := (decimal?_whole hds hrest hpoint).1 h
      obtain ⟨e, he⟩ := (exponent?_isSome_iff rest).1 hexponent
      exact .whole ⟨hne, hds⟩ he
  · intro h
    cases h with
    | whole hds hpower =>
      have hhead := exponentText_head hpower
      exact (decimal?_whole hds.decimal (fun c hc => (hhead c hc).1) fun hc => (hhead '.' hc).2 rfl).2
        ⟨hds.ne_nil, (exponent?_isSome_iff _).2 ⟨_, hpower⟩⟩
    | pointed hds hpower =>
      exact (decimal?_pointed hds.decimal fun c hc => (exponentText_head hpower c hc).1).2
        ⟨hds.ne_nil, (exponent?_isSome_iff _).2 ⟨_, hpower⟩⟩

/-- The characters of a decimal are digits and a few marks. -/
theorem DecimalText.not_mem (h : DecimalText cs) {c : Char} (hc : isDecimal c = false)
    (hmarks : c ∉ ['.', 'e', 'E', '+', '-']) : c ∉ cs := by
  have hdigits : ∀ {ds : List Char}, IsDigits ds → c ∉ ds := by
    intro ds hds hmem
    rw [hds.decimal c hmem] at hc
    cases hc
  have hpower : ∀ {power : List Char} {e : Option (Bool × List Char)}, ExponentText power e → c ∉ power := by
    intro power e hpower
    cases hpower with
    | none => exact List.not_mem_nil
    | marked hmark hsign hds => rcases hmark with rfl | rfl <;> cases hsign <;> simp_all
  cases h with
  | whole hds hp => simp [hdigits hds, hpower hp]
  | pointed hds hp =>
    have hboth := hdigits hds
    rw [List.mem_append, not_or] at hboth
    simp_all [hpower hp]

theorem DecimalText.unsigned (h : DecimalText cs) : Unsigned cs := by
  have hsign : ∀ {c : Char}, isDecimal c = true ∨ c = '.' → c ≠ '+' ∧ c ≠ '-' := by
    intro c hc
    constructor <;> rintro rfl <;> exact absurd hc (by decide)
  cases h with
  | whole hds =>
    obtain ⟨d, tail, rfl, hd, -⟩ := hds.head
    rintro c ⟨⟩
    exact hsign (.inl hd)
  | @pointed ds _ _ _ hds =>
    cases ds with
    | nil => rintro c ⟨⟩; exact hsign (.inr rfl)
    | cons d ds => rintro c ⟨⟩; exact hsign (.inl (hds.decimal d List.mem_cons_self))

end Decimals

/-! ## Magnitudes -/

theorem hexadecimal?_isSome_iff (cs : List Char) :
    (hexadecimal? cs).isSome = true ↔ HexDigits (dropPlus cs) := by
  rw [hexadecimal?, Option.isSome_map, unsigned?]
  split
  · rename_i hdigits
    refine ⟨fun h => (by cases h), fun h => ?_⟩
    rw [digits_iff.2 ⟨h.ne_nil, h.hexadecimal⟩] at hdigits
    cases hdigits
  · rename_i hdigits
    obtain ⟨hne, hall⟩ := digits_iff.1 (Bool.eq_false_iff.2 hdigits)
    rw [Option.isSome_ite]
    exact ⟨fun h => ⟨hne, hall, h⟩, fun h => h.bound⟩

theorem HexDigits.dropPlus_eq {ds : List Char} (h : HexDigits ds) : dropPlus ds = ds := by
  unfold dropPlus
  split
  · cases h.hexadecimal '+' List.mem_cons_self
  · rfl

theorem magnitude?_marked {mark : Char} (hmark : mark ∈ ['x', 'X']) (cs : List Char) :
    magnitude? ('0' :: mark :: cs) = hexadecimal? cs := by
  fin_cases hmark <;> rfl

theorem magnitude?_signed {sign cs : List Char} {negative : Bool} (hsign : SignText sign negative)
    (h : DecimalText cs) : (magnitude? (sign ++ cs)).isSome = true := by
  have hnot : ∀ {c : Char}, isDecimal c = false → c ∉ ['.', 'e', 'E', '+', '-'] → c ∉ sign ++ cs := by
    intro c hc hmarks
    have := h.not_mem hc hmarks
    cases hsign <;> simp_all
  unfold magnitude?
  split
  · rename_i digits hafter
    unfold afterHexMark? at hafter
    split at hafter
    · rename_i heq
      exact absurd (heq ▸ by simp : 'x' ∈ sign ++ cs) (hnot rfl (by decide))
    · rename_i heq
      exact absurd (heq ▸ by simp : 'X' ∈ sign ++ cs) (hnot rfl (by decide))
    · cases hafter
  · split
    · rfl
    · rw [takeSign_append hsign (.inl h.unsigned), Option.isSome_map, decimal?_isSome_iff]
      exact h

theorem MagnitudeText.isSome {cs : List Char} (h : MagnitudeText cs) : (magnitude? cs).isSome = true := by
  cases h with
  | infinity => simp [magnitude?, afterHexMark?]
  | hexadecimal hmark hds =>
    rw [magnitude?_marked hmark, hexadecimal?_isSome_iff, hds.dropPlus_eq]
    exact hds
  | decimal h => exact magnitude?_signed .none h

/-- What is read is a magnitude, or one with a sign. -/
theorem magnitudeText_of_isSome {cs : List Char} (h : (magnitude? cs).isSome = true) : MagnitudeText cs ∨
    (∃ mark ds, mark ∈ ['x', 'X'] ∧ HexDigits ds ∧ cs = '0' :: mark :: '+' :: ds) ∨
      ∃ c ds negative, SignText [c] negative ∧ DecimalText ds ∧ cs = c :: ds := by
  unfold magnitude? at h
  split at h
  · rename_i digits hafter
    obtain ⟨mark, hmark, rfl⟩ : ∃ mark ∈ ['x', 'X'], cs = '0' :: mark :: digits := by
      unfold afterHexMark? at hafter
      split at hafter <;> simp_all
    have hds := (hexadecimal?_isSome_iff digits).1 h
    unfold dropPlus at hds
    split at hds
    · exact .inr (.inl ⟨mark, _, hmark, hds, rfl⟩)
    · exact .inl (.hexadecimal hmark hds)
  · split at h
    · rename_i hinfinity
      exact .inl (hinfinity ▸ .infinity)
    · obtain ⟨sign, hsign, hcs⟩ := takeSign_text cs
      rw [Option.isSome_map, decimal?_isSome_iff] at h
      generalize (takeSign cs).1 = negative, (takeSign cs).2 = ds at hsign hcs h
      subst hcs
      cases hsign with
      | none => exact .inl (.decimal h)
      | plus => exact .inr (.inr ⟨_, _, _, .plus, h, rfl⟩)
      | minus => exact .inr (.inr ⟨_, _, _, .minus, h, rfl⟩)

/-! ## Texts -/

theorem MagnitudeText.unsigned {cs : List Char} (h : MagnitudeText cs) : Unsigned cs := by
  cases h with
  | infinity => simp [Unsigned]
  | hexadecimal => simp [Unsigned]
  | decimal h => exact h.unsigned

/-- Behind its sign, a literal that is not empty is a magnitude. -/
theorem NumericLiteral.magnitude {cs : List Char} (h : NumericLiteral cs) (hcs : cs ≠ []) :
    MagnitudeText (takeSign cs).2 := by
  cases h with
  | empty => exact absurd rfl hcs
  | signed hsign h =>
    rw [takeSign_append hsign (.inl h.unsigned)]
    exact h

theorem ofNumeral?_isSome_iff (cs : List Char) :
    (ofNumeral? cs).isSome = true ↔ NumericLiteral cs ∨ OverSigned cs := by
  unfold ofNumeral?
  split
  · rename_i hempty
    rw [List.isEmpty_iff] at hempty
    exact ⟨fun _ => .inl (hempty ▸ .empty), fun _ => rfl⟩
  · rename_i hempty
    rw [Option.isSome_map]
    constructor
    · intro h
      obtain ⟨sign, hsign, hcs⟩ := takeSign_text cs
      generalize (takeSign cs).1 = negative, (takeSign cs).2 = body at hsign hcs h
      subst hcs
      obtain hmagnitude | ⟨mark, ds, hmark, hds, heq⟩ | ⟨c, ds, negative, hsecond, hds, heq⟩ :=
        magnitudeText_of_isSome h
      · exact .inl (.signed hsign hmagnitude)
      · subst heq
        exact .inr (.hexadecimal hsign hmark hds)
      · -- A decimal with its own sign has one sign more only where a first one was taken.
        subst heq
        cases hsign with
        | none =>
          have h : NumericLiteral ([c] ++ ds) := .signed hsecond (.decimal hds)
          exact .inl h
        | plus => exact .inr (.decimal .plus hsecond hds)
        | minus => exact .inr (.decimal .minus hsecond hds)
    · rintro (h | h)
      · exact (h.magnitude (by simpa using hempty)).isSome
      · cases h with
        | hexadecimal hsign hmark hds =>
          rw [takeSign_append hsign (.inl (by simp [Unsigned])), magnitude?_marked hmark,
            hexadecimal?_isSome_iff]
          exact hds
        | decimal hfirst hsecond h =>
          rw [← List.singleton_append, takeSign_append hfirst (.inr (by simp))]
          exact magnitude?_signed hsecond h

theorem OverSigned.not_numericLiteral {cs : List Char} (h : OverSigned cs) : ¬ NumericLiteral cs := by
  intro hliteral
  cases h with
  | hexadecimal hsign hmark hds =>
    have hmagnitude := hliteral.magnitude (by simp)
    rw [takeSign_append hsign (.inl (by simp [Unsigned]))] at hmagnitude
    cases hmagnitude with
    | hexadecimal _ hplus => cases hplus.hexadecimal '+' List.mem_cons_self
    | decimal h =>
      fin_cases hmark
      · exact h.not_mem (c := 'x') rfl (by decide) (by simp)
      · exact h.not_mem (c := 'X') rfl (by decide) (by simp)
  | decimal hfirst hsecond h =>
    have hmagnitude := hliteral.magnitude (by simp)
    rw [← List.singleton_append, takeSign_append hfirst (.inr (by simp))] at hmagnitude
    obtain ⟨hplus, hminus⟩ := hmagnitude.unsigned _ rfl
    cases hsecond with
    | plus => exact hplus rfl
    | minus => exact hminus rfl

/-! ## Conversion -/

theorem isNumber_ofNat (n : Nat) : IsNumber (Float.ofNat n) := isNumber_ofScientific n false 0

theorem isNumber_infinity : IsNumber infinity := by
  have hunpack : infinity.toModel.unpack = .infinity .positive := rfl
  rw [IsNumber, hunpack]
  simp

theorem isNumber_of_magnitude? {cs : List Char} {x : Float} (h : magnitude? cs = some x) : IsNumber x := by
  unfold magnitude? at h
  split at h
  · obtain ⟨n, -, rfl⟩ := Option.map_eq_some_iff.1 h
    exact isNumber_ofNat n
  · split at h
    · cases h
      exact isNumber_infinity
    · obtain ⟨n, -, rfl⟩ := Option.map_eq_some_iff.1 h
      exact isNumber_toFloat n

theorem isNumber_of_ofNumeral? {cs : List Char} {x : Float} (h : ofNumeral? cs = some x) : IsNumber x := by
  unfold ofNumeral? at h
  split at h
  · cases h
    exact isNumber_ofScientific 0 true 1
  · obtain ⟨y, hy, rfl⟩ := Option.map_eq_some_iff.1 h
    split
    · exact (isNumber_of_magnitude? hy).neg
    · exact isNumber_of_magnitude? hy

theorem ofText_isNaN_iff (s : String) : (ofText s).isNaN = true ↔ (ofNumeral? (trim s.toList)).isSome = false := by
  unfold ofText
  cases h : ofNumeral? (trim s.toList) with
  | none => exact iff_of_true rfl rfl
  | some x => exact iff_of_false (ne_true_of_eq_false (isNumber_of_ofNumeral? h).isNaN) (by simp)

/-- A text is read as a number exactly when it is a numeric literal or has one sign more than one, and
converts to NaN exactly when, without the blanks around it, it is neither. -/
theorem numerals_accepted (store : Store) :
    (∀ cs : List Char, (ofNumeral? cs).isSome = true ↔ NumericLiteral cs ∨ OverSigned cs) ∧
      ∀ s : String, ((Value.string s).toNumber store).isNaN = true ↔
        ¬ (NumericLiteral (trim s.toList) ∨ OverSigned (trim s.toList)) := by
  refine ⟨ofNumeral?_isSome_iff, fun s => ?_⟩
  rw [← ofNumeral?_isSome_iff, Bool.not_eq_true]
  exact ofText_isNaN_iff s

/-- A second sign is no part of a literal, and is read. -/
theorem doubled_sign_accepted :
    (ofNumeral? ['-', '-', '5']).isSome = true ∧ ¬ NumericLiteral ['-', '-', '5'] := by
  have hfive : DecimalText (['5'] ++ []) := .whole ⟨by simp, by simp; decide⟩ .none
  have hover : OverSigned ['-', '-', '5'] := .decimal .minus .minus hfive
  exact ⟨(ofNumeral?_isSome_iff _).2 (.inr hover), hover.not_numericLiteral⟩

end PlayerScript.Number
