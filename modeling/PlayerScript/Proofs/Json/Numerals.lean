/-
Numbers of JSON documents as source text. A number is cut off where the JSON reader ends it, as long
as the document goes on with a blank, a comma or a closing bracket, and it is read as the double
nearest to it. A minus sign in front is a token of its own.
-/
import PlayerScript.Json.Written
import PlayerScript.Proofs.Token.Lexemes
import PlayerScript.Proofs.Token.Spelling

namespace PlayerScript.Json

open PlayerScript.Text PlayerScript.Token

variable {rest cs text : List Char} {p : Char → Bool} {e : Option (Bool × List Char)} {n : Numeral}

namespace Numeral

/-- The power of ten that a written exponent stands for. -/
def power : Option (Bool × List Char) → Int
  | none => 0
  | some (true, digits) => -natOfDigits 10 digits
  | some (false, digits) => natOfDigits 10 digits

/-- The double nearest to what is written after the sign. -/
def size (n : Numeral) : Float :=
  Number.Scientific.toFloat
    ⟨false, natOfDigits 10 (n.whole ++ n.fraction), power n.exponent - n.fraction.length⟩

end Numeral

/-! ## What stands behind a document -/

/-- The characters that may stand right behind a document. -/
def endChars : List Char := [' ', '\t', '\n', '\r', ',', ']', '\x7d']

/-- A text begins with what may stand right behind a document. -/
def Ended (rest : List Char) : Prop := ∀ c ∈ rest.head?, c ∈ endChars

theorem Ended.stop (h : Ended rest)
    (hp : endChars.any p = false) : ∀ c ∈ rest.head?, p c = false := by
  intro c hc
  exact Bool.eq_false_iff.2 (List.any_eq_false.1 hp c (h c hc))

/-! ## Written numbers -/

/-- The signs that may stand before the digits of an exponent, and whether they are a minus. -/
inductive SignText : List Char → Bool → Prop
  | minus : SignText ['-'] true
  | plus : SignText ['+'] false
  | none : SignText [] false

/-- Digits, of which there is at least one. -/
structure IsDigits (ds : List Char) : Prop where
  ne_nil : ds ≠ []
  decimal : ∀ d ∈ ds, isDecimal d = true

/-- How the digits behind a point are written. -/
inductive FractionText : List Char → List Char → Prop
  | none : FractionText [] []
  | point {ds : List Char} (hds : IsDigits ds) : FractionText ('.' :: ds) ds

/-- How an exponent is written. -/
inductive ExponentText : List Char → Option (Bool × List Char) → Prop
  | none : ExponentText [] none
  | marked {mark : Char} {sign ds : List Char} {negative : Bool} (hmark : mark = 'e' ∨ mark = 'E')
      (hsign : SignText sign negative) (hds : IsDigits ds) :
      ExponentText (mark :: (sign ++ ds)) (some (negative, ds))

/-- How a number is written after its sign. -/
inductive NumeralText : List Char → Numeral → Prop
  | mk {negative : Bool} {whole fraction point power : List Char} {e : Option (Bool × List Char)}
      (hwhole : IsDigits whole) (hpoint : FractionText point fraction) (hpower : ExponentText power e) :
      NumeralText (whole ++ (point ++ power)) ⟨negative, whole, fraction, e⟩

theorem isDigits_takeWhile (h : ¬(cs.takeWhile isDecimal).isEmpty = true) :
    IsDigits (cs.takeWhile isDecimal) :=
  ⟨by simpa using h, fun _ hd => List.mem_takeWhile_imp hd⟩

theorem fractionText_of_readFraction {fraction : List Char}
    (h : readFraction cs = some (fraction, rest)) :
    ∃ text, FractionText text fraction ∧ cs = text ++ rest := by
  unfold readFraction at h
  split at h
  · rename_i ds
    dsimp only at h
    split_ifs at h with hempty
    cases h
    exact ⟨_, .point (isDigits_takeWhile hempty), by simp⟩
  · cases h
    exact ⟨[], .none, rfl⟩

theorem takeSign_text (cs : List Char) :
    ∃ sign, SignText sign (takeSign cs).1 ∧ cs = sign ++ (takeSign cs).2 := by
  unfold takeSign
  split
  · exact ⟨_, .minus, rfl⟩
  · exact ⟨_, .plus, rfl⟩
  · exact ⟨_, .none, rfl⟩

theorem exponentText_of_readExponent (h : readExponent cs = some (e, rest)) :
    ∃ text, ExponentText text e ∧ cs = text ++ rest := by
  cases cs with
  | nil =>
    cases h
    exact ⟨[], .none, rfl⟩
  | cons mark cs =>
    rw [readExponent] at h
    split_ifs at h with hmark
    · obtain ⟨sign, hsign, hcs⟩ := takeSign_text cs
      dsimp only at h
      split_ifs at h with hempty
      cases h
      refine ⟨_, .marked hmark hsign (isDigits_takeWhile hempty), ?_⟩
      conv_lhs => rw [hcs]
      simp
    · cases h
      exact ⟨[], .none, rfl⟩

theorem numeralText_of_readMagnitude {negative : Bool} {w : Written}
    (h : readMagnitude negative cs = some (w, rest)) :
    ∃ n text, w = .number n ∧ n.negative = negative ∧ NumeralText text n ∧ cs = text ++ rest := by
  simp only [readMagnitude, Option.bind_eq_bind, Option.bind_eq_some_iff, Prod.exists, pure,
    Option.some.injEq, Prod.mk.injEq] at h
  obtain ⟨whole, cs₁, hwhole, fraction, cs₂, hfraction, e, cs₃, hexponent, rfl, rfl⟩ := h
  obtain ⟨point, hpoint, rfl⟩ := fractionText_of_readFraction hfraction
  obtain ⟨power, hpower, rfl⟩ := exponentText_of_readExponent hexponent
  have hdigits : IsDigits whole ∧ cs = whole ++ (point ++ (power ++ cs₃)) := by
    unfold readWhole at hwhole
    dsimp only at hwhole
    split_ifs at hwhole with hnone
    rw [Bool.or_eq_true, not_or] at hnone
    simp only [Option.some.injEq, Prod.mk.injEq] at hwhole
    obtain ⟨rfl, hrest⟩ := hwhole
    refine ⟨isDigits_takeWhile hnone.1, ?_⟩
    rw [← hrest, List.takeWhile_append_dropWhile]
  exact ⟨_, _, rfl, rfl, .mk hdigits.1 hpoint hpower, by rw [hdigits.2]; simp⟩

/-! ## The extent of a number -/

theorem IsDigits.head {ds : List Char} (h : IsDigits ds) :
    ∃ d tail, ds = d :: tail ∧ isDecimal d = true ∧ d ≠ '+' ∧ d ≠ '-' := by
  obtain ⟨d, tail, rfl⟩ := List.exists_cons_of_ne_nil h.ne_nil
  have hd : isDecimal d = true := h.decimal d List.mem_cons_self
  refine ⟨d, tail, rfl, hd, ?_, ?_⟩
  · rintro rfl
    exact absurd hd (by decide)
  · rintro rfl
    exact absurd hd (by decide)

theorem exponentPart_text (h : ExponentText text e) (hrest : Ended rest) :
    Scan.exponentPart (text ++ rest) = (text, rest) := by
  cases h with
  | none =>
    have hmark := hrest.stop (p := fun c => c == 'e' || c == 'E') rfl
    cases rest with
    | nil => rfl
    | cons c cs =>
      have hc : ¬(c = 'e' ∨ c = 'E') := by simpa using hmark c rfl
      simp [Scan.exponentPart, hc]
  | @marked mark sign ds negative hmark hsign hds =>
    obtain ⟨htake, hdrop⟩ := takeWhile_of_stop hds.decimal (hrest.stop rfl)
    have hne := hds.ne_nil
    cases hsign with
    | minus => simp [Scan.exponentPart, hmark, htake, hdrop, hne]
    | plus => simp [Scan.exponentPart, hmark, htake, hdrop, hne]
    | none =>
      obtain ⟨d, tail, rfl, -, hplus, hminus⟩ := hds.head
      rw [List.cons_append] at htake hdrop
      simp [Scan.exponentPart, hmark, htake, hdrop, hplus, hminus]

theorem exponent?_text (h : ExponentText text e) :
    Number.exponent? text = some (Numeral.power e) := by
  cases h with
  | none => rfl
  | @marked mark sign ds negative hmark hsign hds =>
    have hne := hds.ne_nil
    have hall : ds.all isDecimal = true := List.all_eq_true.2 hds.decimal
    cases hsign with
    | minus => simp [Number.exponent?, hmark, Number.takeSign, hne, hall, Numeral.power]
    | plus => simp [Number.exponent?, hmark, Number.takeSign, hne, hall, Numeral.power]
    | none =>
      obtain ⟨d, tail, rfl, -, hplus, hminus⟩ := hds.head
      simp [Number.exponent?, hmark, Number.takeSign, hall, Numeral.power, hplus, hminus]

theorem stop_append (hcs : ∀ c ∈ cs, p c = false)
    (hrest : ∀ c ∈ rest.head?, p c = false) : ∀ c ∈ (cs ++ rest).head?, p c = false := by
  cases cs with
  | nil => exact hrest
  | cons d ds =>
    rintro c hc
    cases hc
    exact hcs d List.mem_cons_self

theorem ExponentText.stop (h : ExponentText text e) (hrest : Ended rest) (hp : endChars.any p = false)
    (hmarks : p 'e' = false ∧ p 'E' = false) : ∀ c ∈ (text ++ rest).head?, p c = false := by
  cases h with
  | none => exact hrest.stop hp
  | marked hmark _ _ =>
    rintro c hc
    cases hc
    rcases hmark with rfl | rfl
    · exact hmarks.1
    · exact hmarks.2

theorem FractionText.inRun {fraction : List Char} (h : FractionText text fraction) :
    ∀ c ∈ text, (isDecimal c || c == '.') = true := by
  cases h with
  | none => simp
  | point hds =>
    rw [List.forall_mem_cons]
    exact ⟨rfl, fun c hc => by rw [hds.decimal c hc]; rfl⟩

/-- A number never begins with the mark of a hexadecimal one. -/
theorem NumeralText.not_hex (h : NumeralText text n)
    (hrest : Ended rest) (mark : Char) (hmark : mark = 'x' ∨ mark = 'X') (hex : List Char) :
    text ++ rest ≠ '0' :: mark :: hex := by
  obtain ⟨hwhole, hpoint, hpower⟩ := h
  rename_i whole fraction point power e
  obtain ⟨d, tail, rfl, -⟩ := hwhole.head
  have hdigit : ∀ c, (isDecimal c || c == '.') = true → (c == 'x' || c == 'X') = false := by
    intro c hc
    rw [← Bool.not_eq_true]
    intro hx
    rw [Bool.or_eq_true, beq_iff_eq, beq_iff_eq] at hx
    rcases hx with rfl | rfl <;> exact absurd hc (by decide)
  have hnext : ∀ c ∈ (tail ++ (point ++ (power ++ rest))).head?, (c == 'x' || c == 'X') = false := by
    refine stop_append (fun c hc => hdigit c ?_) (stop_append (fun c hc => hdigit c ?_) ?_)
    · rw [hwhole.decimal c (List.mem_cons_of_mem d hc)]
      rfl
    · exact hpoint.inRun c hc
    · exact hpower.stop (p := fun c => c == 'x' || c == 'X') hrest rfl ⟨rfl, rfl⟩
  intro heq
  simp only [List.cons_append, List.append_assoc, List.cons.injEq] at heq
  rw [heq.2] at hnext
  have := hnext mark rfl
  rcases hmark with rfl | rfl <;> exact absurd this (by decide)

/-- The scanner takes a number whole. -/
theorem numberPart_text (h : NumeralText text n)
    (hrest : Ended rest) : Scan.numberPart (text ++ rest) = (text, rest) := by
  have hhex := h.not_hex hrest
  obtain ⟨hwhole, hpoint, hpower⟩ := h
  rename_i whole fraction point power e
  have hrun : ∀ c ∈ whole ++ point, (isDecimal c || c == '.') = true := by
    intro c hc
    rcases List.mem_append.1 hc with hc | hc
    · rw [hwhole.decimal c hc]
      rfl
    · exact hpoint.inRun c hc
  obtain ⟨htake, hdrop⟩ := takeWhile_of_stop (p := fun c => isDecimal c || c == '.') hrun
    (hpower.stop hrest rfl ⟨rfl, rfl⟩)
  rw [List.append_assoc] at htake hdrop
  unfold Scan.numberPart
  split
  · rename_i heq
    exact absurd heq (hhex 'x' (.inl rfl) _)
  · rename_i heq
    exact absurd heq (hhex 'X' (.inr rfl) _)
  · simp only [List.append_assoc, htake, hdrop, exponentPart_text hpower hrest]

theorem NumeralText.head (h : NumeralText text n) :
    ∃ d tail, text = d :: tail ∧ isDecimal d = true ∧ d ≠ '+' ∧ d ≠ '-' := by
  obtain ⟨hwhole, hpoint, hpower⟩ := h
  obtain ⟨d, tail, rfl, hd, hplus, hminus⟩ := hwhole.head
  exact ⟨d, _, rfl, hd, hplus, hminus⟩

theorem decimal?_text (h : NumeralText text n) : Number.decimal? false text =
      some ⟨false, natOfDigits 10 (n.whole ++ n.fraction), Numeral.power n.exponent - n.fraction.length⟩ := by
  obtain ⟨hwhole, hpoint, hpower⟩ := h
  rename_i whole fraction point power e
  have hnil : Ended [] := by simp [Ended]
  have hexp := exponent?_text hpower
  have hne := hwhole.ne_nil
  have hstop := fun {p} hp hmarks => hpower.stop (p := p) hnil hp hmarks
  simp only [List.append_nil] at hstop
  cases hpoint with
  | none =>
    obtain ⟨htake, hdrop⟩ := takeWhile_of_stop hwhole.decimal (hstop (p := isDecimal) rfl ⟨rfl, rfl⟩)
    have hhead : power.head? ≠ some '.' := by
      intro heq
      exact absurd (hstop (p := (· == '.')) rfl ⟨rfl, rfl⟩ '.' heq) (by decide)
    simp [Number.decimal?, htake, hdrop, hhead, hne, hexp]
  | point hds =>
    have hdot : ∀ c ∈ ('.' :: (fraction ++ power)).head?, isDecimal c = false := by
      simp [show isDecimal '.' = false from rfl]
    obtain ⟨htake, hdrop⟩ := takeWhile_of_stop hwhole.decimal hdot
    obtain ⟨htake', hdrop'⟩ := takeWhile_of_stop hds.decimal (hstop (p := isDecimal) rfl ⟨rfl, rfl⟩)
    simp [Number.decimal?, htake, hdrop, htake', hdrop', hne, hexp]

/-- A number is read as the double nearest to it. -/
theorem ofNumeral?_text (h : NumeralText text n) : Number.ofNumeral? text = some n.size := by
  have hhex : Number.afterHexMark? text = none := by
    have hnot := h.not_hex (show Ended [] by simp [Ended])
    rw [List.append_nil] at hnot
    unfold Number.afterHexMark?
    split
    · exact absurd rfl (hnot 'x' (.inl rfl) _)
    · exact absurd rfl (hnot 'X' (.inr rfl) _)
    · rfl
  have hdecimal := decimal?_text h
  obtain ⟨d, tail, rfl, hd, hplus, hminus⟩ := h.head
  have hsign : Number.takeSign (d :: tail) = (false, d :: tail) := by
    simp [Number.takeSign, hplus, hminus]
  have hinfinity : d :: tail ≠ "Infinity".toList := by
    intro heq
    have hI : d = 'I' := by simpa using congrArg List.head? heq
    rw [hI] at hd
    exact absurd hd (by decide)
  simp only [Number.ofNumeral?, List.isEmpty_cons, hsign, Number.magnitude?, hhex, hinfinity,
    hdecimal]
  rfl

theorem splitsInto_numeral (h : NumeralText text n)
    (hrest : Ended rest) : SplitsInto (text ++ rest) [.number n.size] rest := by
  have hpart := numberPart_text h hrest
  have hread := ofNumeral?_text h
  obtain ⟨d, tail, rfl, hd, -⟩ := h.head
  have hcode := isDecimal_iff.1 hd
  have hlex : lexeme d (tail ++ rest) = .ok ⟨some (.number n.size), d :: tail, rest⟩ := by
    rw [List.cons_append] at hpart
    rw [lexeme_visible (by omega) (by simp; omega), hd, Token.number, hpart, hread]
    rfl
  exact .token hlex

theorem splitsInto_minus {d : Char} (hd : isDecimal d = true) (cs : List Char) :
    SplitsInto ('-' :: d :: cs) [.punct (.binary .sub)] (d :: cs) := by
  have hlex : lexeme '-' (d :: cs) = .ok ⟨some (.punct (.binary .sub)), ['-'], d :: cs⟩ := by
    obtain ⟨hlo, hhi⟩ := isDecimal_iff.1 hd
    have hchar : d = Char.ofNat d.toNat := (Char.ofNat_toNat d).symm
    generalize d.toNat = n at hlo hhi hchar
    subst hchar
    interval_cases n <;> rfl
  exact .token hlex

end PlayerScript.Json
