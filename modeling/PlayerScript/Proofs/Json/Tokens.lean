/-
JSON documents as source text. What the JSON reader takes for a document is split into tokens that
are known from the document, blanks dropped.
-/
import PlayerScript.Proofs.Ast.Parser.Basic
import PlayerScript.Proofs.Json.Numerals
import PlayerScript.Proofs.Json.Strings

namespace PlayerScript.Json

open PlayerScript.Text PlayerScript.Token Shape

/-! ## Written documents as shapes -/

mutual

/-- The tokens of a written document. A minus sign is a token of its own. -/
def Written.shapes : Written → List Shape
  | .null => [word "null"]
  | .bool true => [word "true"]
  | .bool false => [word "false"]
  | .number n =>
    if n.negative then [mark (.binary .sub), .leaf (.number n.size)] else [.leaf (.number n.size)]
  | .string parts => [.leaf (.string (decoded parts))]
  | .array items => [.group .square (commas (itemShapes items))]
  | .object members => [.group .curly (commas (memberShapes members))]

/-- The tokens of the elements of an array. -/
def itemShapes : List Written → List (List Shape)
  | [] => []
  | w :: rest => w.shapes :: itemShapes rest

/-- The tokens of the members of an object. -/
def memberShapes : List (List StringPart × Written) → List (List Shape)
  | [] => []
  | (key, w) :: rest => (.leaf (.string (decoded key)) :: mark .colon :: w.shapes) :: memberShapes rest

end

/-! ## Blanks -/

theorem splitsInto_dropBlanks (cs : List Char) : SplitsInto cs [] (dropBlanks cs) := by
  induction cs with
  | nil => exact .refl []
  | cons c cs ih =>
    rw [dropBlanks, List.dropWhile_cons]
    split
    · rename_i hc
      have hblank : isBlank c = true := by
        simp only [Bool.or_eq_true, beq_iff_eq] at hc
        rcases hc with ((rfl | rfl) | rfl) | rfl <;> decide
      exact (SplitsInto.blank hblank cs).trans ih
    · exact .refl _

variable {cs rest : List Char}

theorem splitsInto_blanks {kinds : List TokenKind}
    (h : SplitsInto (dropBlanks cs) kinds rest) : SplitsInto cs kinds rest :=
  (splitsInto_dropBlanks cs).trans h

theorem ended_of_dropBlanks {rest : List Char} (h : Ended (dropBlanks rest)) : Ended rest := by
  cases rest with
  | nil => simp [Ended]
  | cons c cs =>
    rw [dropBlanks, List.dropWhile_cons] at h
    split at h
    · rename_i hc
      simp only [Bool.or_eq_true, beq_iff_eq] at hc
      rintro d hd
      cases hd
      rcases hc with ((rfl | rfl) | rfl) | rfl <;> decide
    · exact h

/-! ## Documents -/

theorem splitsInto_number {w : Written} (h : readNumber cs = some (w, rest))
    (hrest : Ended rest) : SplitsInto cs (kindsOf w.shapes) rest := by
  unfold readNumber at h
  split at h
  · obtain ⟨n, text, rfl, hneg, htext, rfl⟩ := numeralText_of_readMagnitude h
    have hnumber := splitsInto_numeral htext hrest
    obtain ⟨d, tail, rfl, hd, -⟩ := htext.head
    have h := (splitsInto_minus hd (tail ++ rest)).trans hnumber
    simpa [Written.shapes, hneg, kindsOf, kinds, mark] using h
  · obtain ⟨n, text, rfl, hneg, htext, rfl⟩ := numeralText_of_readMagnitude h
    simpa [Written.shapes, hneg, kindsOf, kinds] using splitsInto_numeral htext hrest

theorem splitsInto_word (name : String) (hname : isName name.toList = true) {rest : List Char}
    (hrest : Ended rest) : SplitsInto (name.toList ++ rest) [.ident name] rest := by
  obtain ⟨c, cs, hraw, hlex⟩ := lexes_word hname (hrest.stop (p := isNamePart) rfl)
  rw [hraw, List.cons_append]
  exact .token hlex

theorem splitsInto_plain {w : Written} (h : readPlain cs = some (w, rest))
    {j : Json} (hj : w.toJson? = some j) (hrest : Ended rest) :
    SplitsInto cs (kindsOf w.shapes) rest := by
  unfold readPlain at h
  split at h
  · cases h
    simpa [Written.shapes, word, kindsOf, kinds] using splitsInto_word "null" rfl hrest
  · cases h
    simpa [Written.shapes, word, kindsOf, kinds] using splitsInto_word "true" rfl hrest
  · cases h
    simpa [Written.shapes, word, kindsOf, kinds] using splitsInto_word "false" rfl hrest
  · obtain ⟨⟨parts, rest'⟩, hread, heq⟩ := Option.map_eq_some_iff.1 h
    cases heq
    rw [Written.toJson?, Option.map_eq_some_iff] at hj
    obtain ⟨s, hs, -⟩ := hj
    simpa [Written.shapes, kindsOf, kinds] using splitsInto_string hread hs
  · exact splitsInto_number h hrest

theorem kindsOf_append (a b : List Shape) : kindsOf (a ++ b) = kindsOf a ++ kindsOf b := by
  induction a with
  | nil => rw [kindsOf]; rfl
  | cons s a ih => rw [List.cons_append, kindsOf, kindsOf, ih, List.append_assoc]

theorem kindsOf_commas_cons (part next : List Shape) (parts : List (List Shape)) :
    kindsOf (commas (part :: next :: parts)) =
      kindsOf part ++ ([.punct .comma] ++ kindsOf (commas (next :: parts))) := by
  rw [Ast.commas_cons, kindsOf_append, kindsOf, mark, kinds]

/-- The documents, elements and members that are read with some fuel are split into their tokens. -/
structure SplitWithin (fuel : Nat) : Prop where
  document : ∀ {cs rest : List Char} {w : Written}, readDocument fuel cs = some (w, rest) →
    ∀ {j : Json}, w.toJson? = some j → Ended rest → SplitsInto cs (kindsOf w.shapes) rest
  items : ∀ {cs rest : List Char} {ws : List Written}, readItems fuel cs = some (ws, rest) →
    ∀ {js : List Json}, itemsOf? ws = some js →
      SplitsInto cs (kindsOf (commas (itemShapes ws)) ++ [.punct (.closing .square)]) rest
  members : ∀ {cs rest : List Char} {ms : List (List StringPart × Written)},
    readMembers fuel cs = some (ms, rest) → ∀ {js : List (String × Json)}, membersOf? ms = some js →
      SplitsInto cs (kindsOf (commas (memberShapes ms)) ++ [.punct (.closing .curly)]) rest

theorem splitsInto_mark {c : Char} {p : Punct} (h : ∀ cs, lexeme c cs = .ok ⟨some (.punct p), [c], cs⟩)
    {cs more : List Char} (hcs : dropBlanks cs = c :: more) : SplitsInto cs [.punct p] more := by
  refine splitsInto_blanks ?_
  rw [hcs]
  exact .token (h more)

theorem ended_mark {c : Char} (hc : c ∈ endChars) {cs more : List Char}
    (hcs : dropBlanks cs = c :: more) : Ended cs := by
  refine ended_of_dropBlanks ?_
  rw [hcs]
  rintro d hd
  cases hd
  exact hc

theorem readItems_ne_nil {fuel : Nat} (h : readItems fuel cs = some ([], rest)) :
    False := by
  cases fuel with
  | zero => cases h
  | succ fuel =>
    rw [readItems] at h
    split at h
    · cases h
    · split at h
      · obtain ⟨r, -, heq⟩ := Option.map_eq_some_iff.1 h
        cases heq
      · cases h
      · cases h

theorem readMembers_ne_nil {fuel : Nat} (h : readMembers fuel cs = some ([], rest)) : False := by
  cases fuel with
  | zero => cases h
  | succ fuel =>
    rw [readMembers] at h
    repeat' split at h
    all_goals first
      | cases h
      | obtain ⟨r, -, heq⟩ := Option.map_eq_some_iff.1 h
        cases heq

namespace SplitWithin

variable {fuel : Nat}

theorem document_step (ih : SplitWithin fuel) {w : Written}
    (h : readDocument (fuel + 1) cs = some (w, rest)) {j : Json} (hj : w.toJson? = some j)
    (hrest : Ended rest) : SplitsInto cs (kindsOf w.shapes) rest := by
  rw [readDocument] at h
  split at h
  · rename_i more hopen
    have hopen : SplitsInto cs [.punct (.opening .square)] more := splitsInto_mark (fun _ => rfl) hopen
    split at h
    · rename_i hclose
      cases h
      have hclose := splitsInto_mark (p := .closing .square) (fun _ => rfl) hclose
      simpa [Written.shapes, itemShapes, commas, kindsOf, kinds] using hopen.trans hclose
    · obtain ⟨⟨ws, rest'⟩, hread, heq⟩ := Option.map_eq_some_iff.1 h
      cases heq
      rw [Written.toJson?, Option.map_eq_some_iff] at hj
      obtain ⟨js, hjs, -⟩ := hj
      have hitems := splitsInto_blanks (ih.items hread hjs)
      simpa [Written.shapes, kindsOf, kinds] using hopen.trans hitems
  · rename_i more hopen
    have hopen : SplitsInto cs [.punct (.opening .curly)] more := splitsInto_mark (fun _ => rfl) hopen
    split at h
    · rename_i hclose
      cases h
      have hclose := splitsInto_mark (p := .closing .curly) (fun _ => rfl) hclose
      simpa [Written.shapes, memberShapes, commas, kindsOf, kinds] using hopen.trans hclose
    · obtain ⟨⟨ms, rest'⟩, hread, heq⟩ := Option.map_eq_some_iff.1 h
      cases heq
      rw [Written.toJson?, Option.map_eq_some_iff] at hj
      obtain ⟨js, hjs, -⟩ := hj
      have hmembers := splitsInto_blanks (ih.members hread hjs)
      simpa [Written.shapes, kindsOf, kinds] using hopen.trans hmembers
  · exact splitsInto_blanks (splitsInto_plain h hj hrest)

theorem items_step (ih : SplitWithin fuel) {ws : List Written}
    (h : readItems (fuel + 1) cs = some (ws, rest)) {js : List Json} (hjs : itemsOf? ws = some js) :
    SplitsInto cs (kindsOf (commas (itemShapes ws)) ++ [.punct (.closing .square)]) rest := by
  rw [readItems] at h
  split at h
  · cases h
  · rename_i item rest₁ hitem
    split at h
    · rename_i more hcomma
      obtain ⟨⟨ws', rest'⟩, hread, heq⟩ := Option.map_eq_some_iff.1 h
      cases heq
      simp only [itemsOf?, Option.bind_eq_bind, Option.bind_eq_some_iff] at hjs
      obtain ⟨j, hj, js', hjs', -⟩ := hjs
      have hfirst := ih.document hitem hj (ended_mark (by decide) hcomma)
      have hcomma := splitsInto_mark (p := .comma) (fun _ => rfl) hcomma
      have hmore := ih.items hread hjs'
      obtain ⟨next, ws', rfl⟩ : ∃ w ws, ws' = w :: ws := by
        cases ws' with
        | nil => exact absurd hread readItems_ne_nil
        | cons w ws => exact ⟨w, ws, rfl⟩
      have hall := hfirst.trans (hcomma.trans hmore)
      rw [itemShapes, itemShapes, kindsOf_commas_cons]
      rw [itemShapes] at hall
      simpa using hall
    · rename_i hclose
      cases h
      simp only [itemsOf?, Option.bind_eq_bind, Option.bind_eq_some_iff] at hjs
      obtain ⟨j, hj, -⟩ := hjs
      have hfirst := ih.document hitem hj (ended_mark (by decide) hclose)
      have hclose := splitsInto_mark (p := .closing .square) (fun _ => rfl) hclose
      simpa [itemShapes, commas] using hfirst.trans hclose
    · cases h

theorem members_step (ih : SplitWithin fuel)
    {ms : List (List StringPart × Written)} (h : readMembers (fuel + 1) cs = some (ms, rest))
    {js : List (String × Json)} (hjs : membersOf? ms = some js) :
    SplitsInto cs (kindsOf (commas (memberShapes ms)) ++ [.punct (.closing .curly)]) rest := by
  rw [readMembers] at h
  split at h
  · rename_i rest₁ hquote
    split at h
    · cases h
    · rename_i key rest₂ hkey
      split at h
      · rename_i rest₃ hcolon
        split at h
        · cases h
        · rename_i value rest₄ hvalue
          -- a key, a colon and a value stand in front, whatever follows
          have hmember : ∀ {s : String} {j : Json}, string? key = some s → value.toJson? = some j →
              Ended rest₄ → SplitsInto cs
                (kindsOf (.leaf (.string (decoded key)) :: mark .colon :: value.shapes)) rest₄ := by
            intro s j hs hj hend
            have hkey := splitsInto_string hkey hs
            rw [← hquote] at hkey
            have hcolon := splitsInto_mark (p := .colon) (fun _ => rfl) hcolon
            have hall := (splitsInto_blanks hkey).trans (hcolon.trans (ih.document hvalue hj hend))
            simpa [kindsOf, kinds, mark] using hall
          split at h
          · rename_i more hcomma
            obtain ⟨⟨ms', rest'⟩, hread, heq⟩ := Option.map_eq_some_iff.1 h
            cases heq
            simp only [membersOf?, Option.bind_eq_bind, Option.bind_eq_some_iff] at hjs
            obtain ⟨s, hs, j, hj, js', hjs', -⟩ := hjs
            have hfirst := hmember hs hj (ended_mark (by decide) hcomma)
            have hcomma := splitsInto_mark (p := .comma) (fun _ => rfl) hcomma
            have hmore := ih.members hread hjs'
            obtain ⟨⟨key', next⟩, ms', rfl⟩ : ∃ m ms, ms' = m :: ms := by
              cases ms' with
              | nil => exact absurd hread readMembers_ne_nil
              | cons m ms => exact ⟨m, ms, rfl⟩
            have hall := hfirst.trans (hcomma.trans hmore)
            rw [memberShapes, memberShapes, kindsOf_commas_cons]
            rw [memberShapes] at hall
            simpa using hall
          · rename_i hclose
            cases h
            simp only [membersOf?, Option.bind_eq_bind, Option.bind_eq_some_iff] at hjs
            obtain ⟨s, hs, j, hj, -⟩ := hjs
            have hfirst := hmember hs hj (ended_mark (by decide) hclose)
            have hclose := splitsInto_mark (p := .closing .curly) (fun _ => rfl) hclose
            simpa [memberShapes, commas] using hfirst.trans hclose
          · cases h
      · cases h
  · cases h

end SplitWithin

theorem splitWithin (fuel : Nat) : SplitWithin fuel := by
  induction fuel with
  | zero =>
    constructor
    · rintro _ _ _ h
      cases h
    · rintro _ _ _ h
      cases h
    · rintro _ _ _ h
      cases h
  | succ fuel ih => exact ⟨ih.document_step, ih.items_step, ih.members_step⟩

/-- The tokens of a text that is read as a document are those of the document. -/
theorem tokenize_of_read {cs : List Char} {w : Written} (h : Written.read? cs = some w) {j : Json}
    (hj : w.toJson? = some j) : ∃ ts, tokenize cs = .ok ts ∧ ts.map Token.kind = kindsOf w.shapes := by
  unfold Written.read? at h
  split at h
  · rename_i w' rest hread
    split_ifs at h with hempty
    cases h
    have hnil : dropBlanks rest = [] := by simpa using hempty
    have hend : Ended rest := ended_of_dropBlanks (by rw [hnil]; simp [Ended])
    have hdocument := (splitWithin _).document hread hj hend
    have hblanks := splitsInto_dropBlanks rest
    rw [hnil] at hblanks
    have hall := hdocument.trans hblanks
    rw [List.append_nil] at hall
    exact hall.tokenize_eq
  · cases h

end PlayerScript.Json
