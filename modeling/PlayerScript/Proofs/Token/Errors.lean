/-
What the tokenizer can object to: faults of the spelling, and brackets that do not match. They are among
the plain errors, which are about a text or a value; the others are about the way in which code ends:
with loop control or a result that nothing takes up, or without any budget left.
-/
import Mathlib
import PlayerScript.Ast.Parser

namespace PlayerScript

/-- Whether a fault is one that a text can have without being run. -/
def Fault.isPlain : Fault → Bool
  | .strayLoopControl | .strayReturn | .other _ => false
  | _ => true

/-- Whether an error is about a text or a value. -/
def Error.isPlain : Error → Bool
  | .malformed fault _ => fault.isPlain
  | .recursionLimit | .internal _ => false
  | _ => true

/-- Whether a fault can be found before anything is parsed. -/
def Fault.isLexical : Fault → Bool
  | .unterminatedComment | .unterminatedString | .invalidEscape | .invalidUnicodeEscape
  | .invalidNumber _ | .unexpectedCharacter _ | .unexpected _ | .mismatched _ | .unclosed _ => true
  | _ => false

/-- Whether an error can be found before anything is parsed. -/
def Error.isLexical : Error → Bool
  | .malformed fault _ => fault.isLexical
  | .unsupported _ => true
  | _ => false

theorem Error.isPlain_of_isLexical {e : Error} (h : e.isLexical = true) : e.isPlain = true := by
  cases e with
  | malformed fault => cases fault <;> first | rfl | cases h
  | unsupported => rfl
  | _ => cases h

variable {α β : Type} {P : Error → Bool}

/-- All errors of a computation satisfy a condition. -/
def FailsWith (P : Error → Bool) (x : Except Error α) : Prop := ∀ e, x = .error e → P e = true

/-- All errors of a computation are plain. -/
abbrev Plainly (x : Except Error α) : Prop := FailsWith Error.isPlain x

/-- All errors of a computation can be found before anything is parsed. -/
abbrev Lexically (x : Except Error α) : Prop := FailsWith Error.isLexical x

theorem failsWith_ok (a : α) : FailsWith P (.ok a) := nofun

theorem failsWith_error {e : Error} (h : P e = true) : FailsWith P (.error e : Except Error α) := by
  rintro _ ⟨⟩
  exact h

theorem FailsWith.error {x : Except Error α} (h : FailsWith P x) {e : Error} (he : x = .error e) :
    FailsWith P (.error e : Except Error β) := failsWith_error (h e he)

theorem failsWith_bind {x : Except Error α} {f : α → Except Error β} (hx : FailsWith P x)
    (hf : ∀ a, FailsWith P (f a)) : FailsWith P (x >>= f) := by
  cases x with
  | ok a => exact hf a
  | error e => exact hx.error rfl

theorem failsWith_ite {c : Prop} [Decidable c] {x y : Except Error α} (hx : FailsWith P x)
    (hy : FailsWith P y) : FailsWith P (if c then x else y) := by
  split
  · exact hx
  · exact hy

/-! ## Strings -/

namespace Scan

theorem lexically_codeUnit (width : Nat) (cs : List Char) : Lexically (codeUnit width cs) := by
  unfold codeUnit
  split
  · exact failsWith_error rfl
  · split
    · exact failsWith_error rfl
    · exact failsWith_ok _

theorem lexically_pairedEscape (cs : List Char) : Lexically (pairedEscape cs) := by
  have hunit := lexically_codeUnit 4 cs
  unfold pairedEscape
  split
  · rename_i he
    exact hunit.error he
  · dsimp only
    split
    · split <;> exact failsWith_ok _
    · exact failsWith_ok _

theorem lexically_bracedEscape (literal cs : List Char) : Lexically (bracedEscape literal cs) := by
  unfold bracedEscape
  dsimp only
  split
  · exact failsWith_error rfl
  · split
    · exact failsWith_ok _
    · exact failsWith_error rfl

theorem lexically_escape (literal : List Char) (e : Char) (cs : List Char) : Lexically (escape literal e cs) := by
  have hunit := lexically_codeUnit 2 cs
  unfold escape
  iterate 8 refine failsWith_ite (failsWith_ok _) ?_
  refine failsWith_ite ?_ (failsWith_ite ?_ (failsWith_ok _))
  · split
    · rename_i hfault
      exact hunit.error hfault
    · exact failsWith_ok _
  · split
    · exact lexically_bracedEscape literal _
    · exact lexically_pairedEscape _

theorem lexically_stringBody (quote : Char) (literal : List Char) : ∀ (fuel : Nat) (cs : List Char),
    Lexically (stringBody quote literal fuel cs)
  | 0, _ => failsWith_error rfl
  | _ + 1, [] => failsWith_error rfl
  | fuel + 1, c :: cs => by
    unfold stringBody
    refine failsWith_ite (failsWith_ok _) (failsWith_ite ?_ ?_)
    · split
      · exact failsWith_error rfl
      · rename_i e more
        have hescape := lexically_escape literal e more
        split
        · rename_i hfault
          exact hescape.error hfault
        · rename_i part _
          have htail := lexically_stringBody quote literal fuel part.rest
          split
          · rename_i hfault
            exact htail.error hfault
          · exact failsWith_ok _
    · have htail := lexically_stringBody quote literal fuel cs
      split
      · rename_i hfault
        exact htail.error hfault
      · exact failsWith_ok _

theorem lexically_string (quote : Char) (cs : List Char) : Lexically (Scan.string quote cs) := by
  have hbody := lexically_stringBody quote (quote :: cs) cs.length cs
  unfold Scan.string
  split
  · rename_i hfault
    exact hbody.error hfault
  · exact failsWith_ok _

end Scan

/-! ## Tokens -/

namespace Token

theorem lexically_number (cs : List Char) : Lexically (number cs) := by
  unfold number
  dsimp only
  split
  · exact failsWith_ok _
  · exact failsWith_error rfl

theorem lexically_lexeme (c : Char) (cs : List Char) : Lexically (lexeme c cs) := by
  have hstring := Scan.lexically_string c cs
  have hnumber := lexically_number (c :: cs)
  unfold lexeme
  dsimp only
  refine failsWith_ite (failsWith_ok _) (failsWith_ite (failsWith_ok _) (failsWith_ite ?_ (failsWith_ite ?_
    (failsWith_ite (failsWith_error rfl) (failsWith_ite ?_ (failsWith_ite (failsWith_ok _) ?_))))))
  · split
    · exact failsWith_ok _
    · exact failsWith_error rfl
  · split
    · exact failsWith_ok _
    · rename_i he
      exact hstring.error he
  · split
    · exact failsWith_ok _
    · rename_i he
      exact hnumber.error he
  · split
    · exact failsWith_ok _
    · exact failsWith_error rfl

theorem lexically_tokensFrom : ∀ (fuel pos : Nat) (cs : List Char), Lexically (tokensFrom fuel pos cs)
  | _, _, [] => by
    rw [tokensFrom]
    exact failsWith_ok _
  | 0, _, _ :: _ => failsWith_ok _
  | fuel + 1, pos, c :: cs => by
    have hlexeme := lexically_lexeme c cs
    rw [tokensFrom]
    split
    · rename_i he
      exact hlexeme.error he
    · rename_i found _
      have hrest := lexically_tokensFrom fuel (pos + Text.byteLength found.raw) found.rest
      dsimp only
      split
      · rename_i he
        exact hrest.error he
      · split <;> exact failsWith_ok _

end Token

theorem Item.lexically_groupFrom (source : List Char) : ∀ (items : List Item) (stack : List Open)
    (tokens : List Token), Lexically (groupFrom source items stack tokens) := by
  intro items stack tokens
  fun_induction groupFrom source items stack tokens with
  | case1 => exact failsWith_ok _
  | case2 => exact failsWith_error rfl
  | case3 _ _ _ _ _ _ ih => exact ih
  | case4 => exact failsWith_error rfl
  | case5 _ _ _ _ _ _ ih => exact ih
  | case6 => exact failsWith_error rfl
  | case7 _ _ _ _ _ _ ih => exact ih

theorem Ast.lexically_itemsOf (source : List Char) : Lexically (itemsOf source) := by
  have htokens := Token.lexically_tokensFrom source.length 0 source
  unfold itemsOf
  split
  · exact Item.lexically_groupFrom source [] [] _
  · rename_i he
    exact htokens.error he

theorem Ast.plainly_itemsOf (source : List Char) : Plainly (itemsOf source) :=
  fun e he => Error.isPlain_of_isLexical (lexically_itemsOf source e he)

end PlayerScript
