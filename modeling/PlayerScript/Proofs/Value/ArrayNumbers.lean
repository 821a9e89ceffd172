/-
Arrays as numbers. The conversion looks at the number of elements, and an array without cycles converts
to the number of its text all the same: a text with a comma is no numeral. Only an array whose one element
is `null` or `undefined` differs. It counts as that element's text does, NaN, while its own text is empty
and counts as zero.
-/
import PlayerScript.Proofs.Value.Numerals
import PlayerScript.Proofs.Value.Slices

namespace PlayerScript

/-! ## Commas -/

namespace Number

open PlayerScript.Text

theorem HexDigits.comma_not_mem {ds : List Char} (h : HexDigits ds) : ',' ∉ ds := fun hmem =>
  absurd (h.hexadecimal ',' hmem) (by decide)

theorem DecimalText.comma_not_mem {cs : List Char} (h : DecimalText cs) : ',' ∉ cs :=
  h.not_mem rfl (by decide)

theorem MagnitudeText.comma_not_mem {cs : List Char} (h : MagnitudeText cs) : ',' ∉ cs := by
  cases h with
  | infinity => simp
  | hexadecimal hmark hds => fin_cases hmark <;> simp [hds.comma_not_mem]
  | decimal h => exact h.comma_not_mem

theorem ofNumeral?_of_comma {cs : List Char} (hcomma : ',' ∈ cs) : ofNumeral? cs = none := by
  rw [← Option.not_isSome_iff_eq_none, ofNumeral?_isSome_iff]
  rintro (h | h)
  · cases h with
    | empty => exact List.not_mem_nil hcomma
    | signed hsign h => cases hsign <;> simp [h.comma_not_mem] at hcomma
  · cases h with
    | hexadecimal hsign hmark hds =>
      fin_cases hmark <;> cases hsign <;> simp [hds.comma_not_mem] at hcomma
    | decimal hfirst hsecond h => cases hfirst <;> cases hsecond <;> simp [h.comma_not_mem] at hcomma

theorem mem_dropWhile {c : Char} {cs : List Char} {p : Char → Bool} (hc : p c = false) (hmem : c ∈ cs) :
    c ∈ cs.dropWhile p := by
  rw [← List.takeWhile_append_dropWhile (p := p) (l := cs), List.mem_append] at hmem
  refine hmem.resolve_left fun htake => ?_
  rw [List.mem_takeWhile_imp htake] at hc
  cases hc

theorem ofText_of_comma {s : String} (hcomma : ',' ∈ s.toList) : ofText s = nan := by
  have htrim : ',' ∈ trim s.toList :=
    List.mem_reverse.2 (mem_dropWhile (by decide) (List.mem_reverse.2 (mem_dropWhile (by decide) hcomma)))
  rw [ofText, ofNumeral?_of_comma htrim]
  rfl

end Number

/-! ## Arrays -/

namespace Value

variable {s : Store} {a : ArrayRef} {depth : Nat}

theorem text_array (hs : s.ElementsExist) (ha : s.Has (.array a))
    (hdepth : (Value.array a).nestsWithin s depth = true) :
    (Value.array a).text s = String.intercalate "," ((s.elements a).toList.map (elementText s)) := by
  have harray : ∀ b, (Value.array b).ExistsIn s → s.Has (.array b) ∧ ∀ v ∈ s.elements b, v.ExistsIn s :=
    fun b hb => ⟨hb _ rfl, hs b⟩
  have hexists : (Value.array a).ExistsIn s := by
    rintro _ ⟨⟩
    exact ha
  cases depth with
  | zero => cases hdepth
  | succ depth =>
    rw [text_of_nestsWithin (P := fun v => v.ExistsIn s) harray hexists hdepth, textWithin]
    congr 1
    rw [nestsWithin, List.all_eq_true] at hdepth
    refine List.map_congr_left fun v hv => ?_
    rw [elementText, text_of_nestsWithin (P := fun v => v.ExistsIn s) harray (hs a v (Array.mem_def.2 hv))
      (hdepth v hv)]

/-- An array without cycles converts to the number of its text, unless its only element is nullish. -/
theorem array_toNumber_eq_iff (hs : s.ElementsExist) (ha : s.Has (.array a))
    (hdepth : (Value.array a).nestsWithin s depth = true) :
    (Value.array a).toNumber s = (Value.string ((Value.array a).text s)).toNumber s ↔
      ¬ ∃ v, (s.elements a).toList = [v] ∧ v.isNullish = true := by
  rw [toNumber, toNumber, text_array hs ha hdepth]
  cases hitems : (s.elements a).toList with
  | nil => exact iff_of_true rfl (by simp)
  | cons v vs =>
    cases vs with
    | nil =>
      have hsingle : String.intercalate "," ([v].map (elementText s)) = v.elementText s := by
        simp
      rw [hsingle, elementText]
      cases hnullish : v.isNullish with
      | false => exact iff_of_true rfl (by simp [hnullish])
      | true =>
        have htext : v.text s = "undefined" ∨ v.text s = "null" := by
          cases v with
          | undefined => exact .inl (text_of_not_isArray rfl s)
          | null => exact .inr (text_of_not_isArray rfl s)
          | _ => cases hnullish
        refine iff_of_false ?_ (by simp [hnullish])
        dsimp only
        rw [if_pos rfl]
        rcases htext with h | h <;> rw [h] <;> decide +kernel
    | cons w ws =>
      have hcomma : ',' ∈ (String.intercalate "," ((v :: w :: ws).map (elementText s))).toList := by
        simp [String.toList_intercalate]
      rw [Number.ofText_of_comma hcomma]
      exact iff_of_true rfl (by simp)

end Value

/-- A store with an array around an array around a digit. -/
def Store.nested : Store := { Store.initial with arrays := (Arena.empty.push #[.string "7"]).push #[.array ⟨0⟩] }

theorem Store.elementsExist_nested : Store.nested.ElementsExist := by
  rintro ⟨_ | _ | i⟩ v hv n hn
  · rw [Array.mem_singleton.1 hv] at hn
    cases hn
  · rw [Array.mem_singleton.1 hv] at hn
    cases hn
    decide
  · exact absurd hv (Array.not_mem_empty v)

theorem Value.array_toNumber_nested : (Value.array ⟨1⟩).toNumber .nested =
    (Value.string ((Value.array ⟨1⟩).text .nested)).toNumber .nested := by
  have hdepth : (Value.array ⟨1⟩).nestsWithin .nested 2 = true := by decide
  exact (Value.array_toNumber_eq_iff Store.elementsExist_nested (by decide) hdepth).2 (by rintro ⟨_, ⟨⟩, ⟨⟩⟩)

/-- An array of `null` converts to NaN, and its text to zero. -/
theorem Value.array_toNumber_null : (Value.array ⟨0⟩).toNumber .withNull = Number.nan ∧
    (Value.string ((Value.array ⟨0⟩).text .withNull)).toNumber .withNull = 0.0 := by
  decide +kernel

end PlayerScript
