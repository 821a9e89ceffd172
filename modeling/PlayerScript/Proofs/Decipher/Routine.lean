/-
Deciphering routines: programs of one object with three tools for lists of characters, and one function
that splits a string, applies tools to its characters step by step, and joins them again. From the
text of such a program the tools and the function are taken out as they are meant.
-/
import PlayerScript.Proofs.Json.Numerals
import PlayerScript.Proofs.Source.Agreement

namespace PlayerScript

variable {steps : List Step}

namespace Ast

open Token Shape

/-- A text without functions is parsed as items of the shapes of its tokens are. -/
theorem parseStatements_of_splits {text : List Char} {ss : List Shape} {depth : Nat} {stmts : List Stmt}
    (htext : SplitsInto text (kindsOf ss) []) (hss : allOf isNoFunction ss = true)
    (hparse : statements (parsersWithin depth) false ⟨none, Item.ofShapes ss⟩ 0 = (.ok stmts, 0))
    (minted : Nat) : parseStatements text depth minted = (.ok stmts, minted) := by
  obtain ⟨ts, htokens, hkinds⟩ := htext.tokenize_eq
  exact (parseStatements_of_shapes htokens hkinds hss depth minted).ok_iff.1
    (statements_elsewhere (Nat.le_refl depth) hss hparse minted)

end Ast

namespace Decipher

open Text Token Source Ast Shape

/-! ## Steps -/

/-- A tool for lists of characters. -/
inductive Tool where
  | drop
  | reverse
  | swap
  deriving DecidableEq, Repr

/-- A step of a routine: a tool, and a number as it is written. -/
structure Step where
  tool : Tool
  digits : List Char
  deriving DecidableEq, Repr

/-- The number of a step. -/
def Step.count (s : Step) : Nat := natOfDigits 10 s.digits

/-- A step with a decimal number below `2 ^ 31`. -/
structure Step.Valid (s : Step) : Prop where
  ne_nil : s.digits ≠ []
  decimal : ∀ d ∈ s.digits, isDecimal d = true
  small : s.count < 2 ^ 31

/-- A list with the elements at its beginning and at a position exchanged. -/
def exchange {α : Type} (k : Nat) (xs : List α) : List α :=
  match xs[0]?, xs[k]? with
  | some x, some y => (xs.set 0 y).set k x
  | _, _ => xs

/-- What a tool does to a list, given a number. -/
def Tool.apply {α : Type} (n : Nat) (xs : List α) : Tool → List α
  | .drop => xs.drop n
  | .reverse => xs.reverse
  | .swap => exchange (n % xs.length) xs

/-- What steps do to a list, one after another. -/
def applyAll {α : Type} : List Step → List α → List α
  | [], xs => xs
  | s :: rest, xs => applyAll rest (s.tool.apply s.count xs)

/-- Whether a list is never empty where its elements are exchanged. -/
def Admits {α : Type} : List Step → List α → Prop
  | [], _ => True
  | s :: rest, xs => (s.tool = .swap → xs ≠ []) ∧ Admits rest (s.tool.apply s.count xs)

/-! ## The text of a routine -/

/-- The name of a tool in the text. -/
def Tool.key : Tool → String
  | .drop => "ab"
  | .reverse => "cd"
  | .swap => "ef"

/-- A step as it is written. -/
def Step.text (s : Step) : List Char :=
  "Xy.".toList ++ (s.tool.key.toList ++ ("(a,".toList ++ (s.digits ++ ");".toList)))

/-- The parameters of a tool as they are written. -/
def Tool.paramText : Tool → List Char
  | .drop | .swap => "a,b".toList
  | .reverse => "a".toList

/-- The body of a tool as it is written. -/
def Tool.bodyText : Tool → List Char
  | .drop => "a.splice(0,b)".toList
  | .reverse => "a.reverse()".toList
  | .swap => "var c=a[0];a[0]=a[b%a.length];a[b%a.length]=c".toList

/-- A tool as it is written. -/
def Tool.text (t : Tool) : List Char :=
  t.key.toList ++ (":function(".toList ++ (t.paramText ++ ')' :: '\x7b' :: (t.bodyText ++ ['\x7d'])))

/-- The tools as they are written. -/
def toolsText : List Char := Tool.drop.text ++ ',' :: (Tool.reverse.text ++ ',' :: Tool.swap.text)

/-- The statement that splits the string, as it is written. -/
def splitText : List Char := "a=a.split(\"\");".toList

/-- The statement that joins the characters, as it is written. -/
def joinText : List Char := "return a.join(\"\")".toList

/-- The body of the function as it is written. -/
def bodyText (steps : List Step) : List Char :=
  splitText ++ (steps.flatMap Step.text ++ joinText)

/-- What stands before the tools. -/
def objectText : List Char := "var Xy=\x7b".toList

/-- What stands between the tools and the body of the function. -/
def functionText : List Char := "\x7d;var sig=function(a)".toList

/-- The text of a routine. -/
def sourceText (steps : List Step) : List Char :=
  objectText ++ (toolsText ++ (functionText ++ '\x7b' :: (bodyText steps ++ ['\x7d', ';'])))

example : bodyText [⟨.reverse, ['0', '7']⟩] =
    "a=a.split(\"\");Xy.cd(a,07);return a.join(\"\")".toList := by cbv

/-- The program of a routine, with the limits that hold unless others are given. -/
def program (steps : List Step) : Program := ⟨sourceText steps, .standard⟩

/-! ## Numbers in the text -/

theorem numberPart_digits {ds rest : List Char} (hds : ∀ d ∈ ds, isDecimal d = true) (hne : ds ≠ [])
    (hrest : ∀ c ∈ rest.head?, isWordPart c = false) : Scan.numberPart (ds ++ rest) = (ds, rest) := by
  have hrun : ∀ c ∈ ds, (isDecimal c || c == '.') = true := fun c hc => by rw [hds c hc, Bool.true_or]
  have hstop : ∀ c ∈ rest.head?, (isDecimal c || c == '.') = false := by
    intro c hc
    rw [← Bool.not_eq_true, Bool.or_eq_true, beq_iff_eq]
    have hpart := hrest c hc
    rintro (h | rfl)
    · rw [isWordPart_of_isDigitOf (by decide) h] at hpart
      cases hpart
    · cases hpart
  obtain ⟨htake, hdrop⟩ := takeWhile_of_stop hrun hstop
  have hexponent : Scan.exponentPart rest = ([], rest) := by
    cases rest with
    | nil => rfl
    | cons c cs =>
      have hpart := hrest c rfl
      have hmark : ¬ (c = 'e' ∨ c = 'E') := by
        rintro (rfl | rfl) <;> cases hpart
      unfold Scan.exponentPart
      exact if_neg hmark
  -- no mark of a hexadecimal number stands behind a digit, nor begins what follows
  have hhex : ∀ mark hex, isDecimal mark = false → isWordPart mark = true →
      ds ++ rest ≠ '0' :: mark :: hex := by
    intro mark hex hmark hpart heq
    cases ds with
    | nil => exact hne rfl
    | cons d ds =>
      cases ds with
      | nil =>
        have hfollow : rest = mark :: hex := (List.cons.inj heq).2
        have hhead : mark ∈ rest.head? := by
          rw [hfollow]
          rfl
        rw [hrest mark hhead] at hpart
        cases hpart
      | cons e ds =>
        have he : e = mark := by simp_all
        rw [← he, hds e (by simp)] at hmark
        cases hmark
  unfold Scan.numberPart
  split
  · rename_i heq
    exact absurd heq (hhex 'x' _ rfl rfl)
  · rename_i heq
    exact absurd heq (hhex 'X' _ rfl rfl)
  · dsimp only
    rw [htake, hdrop, hexponent, List.append_nil]

/-- Digits are read whole up to a character that no number goes on with. -/
theorem splitsInto_digits {ds rest : List Char} (hds : ∀ d ∈ ds, isDecimal d = true) (hne : ds ≠ [])
    (hrest : ∀ c ∈ rest.head?, isWordPart c = false) :
    SplitsInto (ds ++ rest) [.number (Float.ofNat (natOfDigits 10 ds))] rest := by
  have hpart := numberPart_digits hds hne hrest
  have htext : Json.NumeralText (ds ++ ([] ++ [])) ⟨false, ds, [], none⟩ := .mk ⟨hne, hds⟩ .none .none
  have hread := Json.ofNumeral?_text htext
  have hsize : (⟨false, ds, [], none⟩ : Json.Numeral).size = Float.ofNat (natOfDigits 10 ds) := by
    rw [Json.Numeral.size, List.append_nil]
    rfl
  rw [List.append_nil, List.append_nil, hsize] at hread
  cases ds with
  | nil => exact absurd rfl hne
  | cons d tail =>
    have hd := hds d List.mem_cons_self
    have hcode := isDecimal_iff.1 hd
    refine SplitsInto.token (?_ : lexeme d (tail ++ rest) = .ok ⟨_, d :: tail, rest⟩)
    rw [List.cons_append] at hpart
    rw [lexeme_visible (by omega) (by simp; omega), hd, Token.number, hpart, hread]
    rfl

/-! ## The tools -/

/-- The number zero in a tree. -/
def zero : Expr := .literal (.number (Float.ofNat 0))

/-- A member of the variable `a`. -/
def ofList (property : Property) : Expr := .member (.ident "a") property false

/-- The position that two lists are exchanged at: the second argument within the length. -/
def place : Expr := .binary .mod (.ident "b") (ofList (.name "length"))

/-- A tool as a function. -/
def Tool.definition : Tool → FunctionDef
  | .drop => ⟨"ab", ["a", "b"], [.expr (.call (ofList (.name "splice")) [zero, .ident "b"])]⟩
  | .reverse => ⟨"cd", ["a"], [.expr (.call (ofList (.name "reverse")) [])]⟩
  | .swap => ⟨"ef", ["a", "b"],
      [.var [("c", some (ofList (.computed zero)))],
        .expr (.assign "a" (some zero) none (ofList (.computed place))),
        .expr (.assign "a" (some place) none (.ident "c"))]⟩

/-- The shapes of the tokens of a position. -/
def placeShapes : List Shape :=
  [word "b", mark (.binary .mod), word "a", mark .dot, word "length"]

/-- The shapes of the tokens of a tool's body. -/
def Tool.shapes : Tool → List Shape
  | .drop => [word "a", mark .dot, word "splice",
      .group .round [.leaf (.number (Float.ofNat 0)), mark .comma, word "b"]]
  | .reverse => [word "a", mark .dot, word "reverse", .group .round []]
  | .swap => [word "var", word "c", mark (.assign none), word "a",
      .group .square [.leaf (.number (Float.ofNat 0))], mark .semicolon, word "a",
      .group .square [.leaf (.number (Float.ofNat 0))], mark (.assign none), word "a",
      .group .square placeShapes, mark .semicolon, word "a", .group .square placeShapes,
      mark (.assign none), word "c"]

theorem splitsInto_zero {c : Char} (hc : isWordPart c = false) (rest : List Char) :
    SplitsInto ('0' :: c :: rest) [.number (Float.ofNat 0)] (c :: rest) := by
  have hdigit : ∀ d ∈ ['0'], isDecimal d = true := by
    intro d hd
    rw [List.mem_singleton.1 hd]
    rfl
  have hnext : ∀ d ∈ (c :: rest).head?, isWordPart d = false := by simpa using hc
  exact splitsInto_digits hdigit (by simp) hnext

theorem splitsInto_tool (t : Tool) : SplitsInto t.bodyText (kindsOf t.shapes) [] := by
  -- the lexemes up to a zero and those behind it are computed
  cases t with
  | drop =>
    have hlead : SplitsInto "a.splice(0,b)".toList
        [.ident "a", .punct .dot, .ident "splice", .punct (.opening .round)] "0,b)".toList :=
      ⟨_, .cons rfl (.cons rfl (.cons rfl (.cons rfl .nil))), rfl⟩
    have htail : SplitsInto ",b)".toList [.punct .comma, .ident "b", .punct (.closing .round)] [] :=
      ⟨_, .cons rfl (.cons rfl (.cons rfl .nil)), rfl⟩
    exact hlead.trans ((splitsInto_zero rfl _).trans htail)
  | reverse => exact ⟨_, .cons rfl (.cons rfl (.cons rfl (.cons rfl (.cons rfl .nil)))), rfl⟩
  | swap =>
    have hplace : ∀ rest, SplitsInto ("b%a.length".toList ++ ']' :: rest) (kindsOf placeShapes)
        (']' :: rest) := fun rest =>
      ⟨_, .cons rfl (.cons rfl (.cons rfl (.cons rfl (.cons rfl .nil)))), rfl⟩
    have hfirst : SplitsInto "var c=a[0];a[0]=a[b%a.length];a[b%a.length]=c".toList
        [.ident "var", .ident "c", .punct (.assign none), .ident "a", .punct (.opening .square)]
        "0];a[0]=a[b%a.length];a[b%a.length]=c".toList :=
      ⟨_, .cons rfl (.cons rfl (.cons rfl (.cons rfl (.cons rfl (.cons rfl .nil))))), rfl⟩
    have hsecond : SplitsInto "];a[0]=a[b%a.length];a[b%a.length]=c".toList
        [.punct (.closing .square), .punct .semicolon, .ident "a", .punct (.opening .square)]
        "0]=a[b%a.length];a[b%a.length]=c".toList :=
      ⟨_, .cons rfl (.cons rfl (.cons rfl (.cons rfl .nil))), rfl⟩
    have hthird : SplitsInto "]=a[b%a.length];a[b%a.length]=c".toList
        [.punct (.closing .square), .punct (.assign none), .ident "a", .punct (.opening .square)]
        "b%a.length];a[b%a.length]=c".toList :=
      ⟨_, .cons rfl (.cons rfl (.cons rfl (.cons rfl .nil))), rfl⟩
    have hfourth : SplitsInto "];a[b%a.length]=c".toList
        [.punct (.closing .square), .punct .semicolon, .ident "a", .punct (.opening .square)]
        "b%a.length]=c".toList :=
      ⟨_, .cons rfl (.cons rfl (.cons rfl (.cons rfl .nil))), rfl⟩
    have hlast : SplitsInto "]=c".toList
        [.punct (.closing .square), .punct (.assign none), .ident "c"] [] :=
      ⟨_, .cons rfl (.cons rfl (.cons rfl .nil)), rfl⟩
    exact hfirst.trans ((splitsInto_zero rfl _).trans (hsecond.trans ((splitsInto_zero rfl _).trans
      (hthird.trans ((hplace _).trans (hfourth.trans ((hplace _).trans hlast)))))))

theorem parseStatements_tool (t : Tool) (minted : Nat) :
    parseStatements t.bodyText 256 minted = (.ok t.definition.body, minted) := by
  refine parseStatements_of_splits (splitsInto_tool t) ?_ ?_ minted
  · cases t <;> rfl
  · cases t <;> rfl

/-! ## The function -/

/-- A step as a statement. -/
def Step.stmt (s : Step) : Stmt :=
  .expr (.call (.member (.ident "Xy") (.name s.tool.key) false)
    [.ident "a", .literal (.number (Float.ofNat s.count))])

/-- The statement that splits the string. -/
def splitStmt : Stmt :=
  .expr (.assign "a" none none (.call (ofList (.name "split")) [.literal (.string "")]))

/-- The statement that joins the characters. -/
def joinStmt : Stmt := .returns (some (.call (ofList (.name "join")) [.literal (.string "")]))

/-- The function of a routine. -/
def definition (steps : List Step) : FunctionDef :=
  ⟨"sig", ["a"], splitStmt :: (steps.map Step.stmt ++ [joinStmt])⟩

/-- The shapes of the tokens of a step. -/
def Step.shapes (s : Step) : List Shape :=
  [word "Xy", mark .dot, word s.tool.key, .group .round [word "a", mark .comma,
    .leaf (.number (Float.ofNat s.count))], mark .semicolon]

/-- The shapes of the tokens of the statement that splits. -/
def splitShapes : List Shape :=
  [word "a", mark (.assign none), word "a", mark .dot, word "split",
    .group .round [.leaf (.string "")], mark .semicolon]

/-- The shapes of the tokens of the statement that joins. -/
def joinShapes : List Shape :=
  [word "return", word "a", mark .dot, word "join", .group .round [.leaf (.string "")]]

theorem splitsInto_step {s : Step} (hs : s.Valid) (rest : List Char) :
    SplitsInto (s.text ++ rest) (kindsOf s.shapes) rest := by
  have hlead : SplitsInto (s.text ++ rest) [.ident "Xy", .punct .dot, .ident s.tool.key,
      .punct (.opening .round), .ident "a", .punct .comma] (s.digits ++ (");".toList ++ rest)) := by
    have htext : s.text ++ rest = 'X' :: 'y' :: '.' :: (s.tool.key.toList ++
        '(' :: 'a' :: ',' :: (s.digits ++ (");".toList ++ rest))) := by
      simp [Step.text]
    rw [htext]
    cases s.tool <;>
      exact ⟨_, .cons rfl (.cons rfl (.cons rfl (.cons rfl (.cons rfl (.cons rfl .nil))))), rfl⟩
  have htail : SplitsInto (");".toList ++ rest) [.punct (.closing .round), .punct .semicolon] rest :=
    ⟨_, .cons rfl (.cons rfl .nil), rfl⟩
  exact hlead.trans ((splitsInto_digits hs.decimal hs.ne_nil (by simp [isWordPart, isDigitOf, digitValue])).trans htail)

theorem splitsInto_body (hsteps : ∀ s ∈ steps, s.Valid) : SplitsInto (bodyText steps)
      (kindsOf (splitShapes ++ (steps.flatMap Step.shapes ++ joinShapes))) [] := by
  have hsplit : ∀ rest, SplitsInto (splitText ++ rest) (kindsOf splitShapes) rest :=
    fun rest => ⟨_, .cons rfl (.cons rfl (.cons rfl (.cons rfl (.cons rfl (.cons rfl (.cons rfl
      (.cons rfl (.cons rfl .nil)))))))), rfl⟩
  have hjoin : SplitsInto joinText (kindsOf joinShapes) [] :=
    ⟨_, .cons rfl (.cons rfl (.cons rfl (.cons rfl (.cons rfl (.cons rfl (.cons rfl
      (.cons rfl .nil))))))), rfl⟩
  have hall : SplitsInto (steps.flatMap Step.text ++ joinText)
      (kindsOf (steps.flatMap Step.shapes ++ joinShapes)) [] := by
    induction steps with
    | nil => exact hjoin
    | cons s steps ih =>
      rw [List.forall_mem_cons] at hsteps
      rw [List.flatMap_cons, List.flatMap_cons, List.append_assoc, List.append_assoc,
        Item.kindsOf_append]
      exact (splitsInto_step hsteps.1 _).trans (ih hsteps.2)
  rw [Item.kindsOf_append]
  exact (hsplit _).trans hall

theorem noFunction_body (steps : List Step) :
    allOf isNoFunction (splitShapes ++ (steps.flatMap Step.shapes ++ joinShapes)) = true := by
  have hstep : ∀ s : Step, allOf isNoFunction s.shapes = true := by
    rintro ⟨tool, digits⟩
    cases tool <;> rfl
  have hsteps : allOf isNoFunction (steps.flatMap Step.shapes) = true := by
    induction steps with
    | nil => rfl
    | cons s steps ih => rw [List.flatMap_cons, allOf_append, hstep, ih, Bool.and_self]
  rw [allOf_append, allOf_append, hsteps]
  rfl

/-- A statement in front of others is parsed, and its semicolon is passed over. -/
theorem statementsFrom_step (depth fuel : Nat) (before : Option Token) (s : Step) (rest : List Item) :
    statementsFrom (parsersWithin (depth + 9)) false (fuel + 2) before (Item.ofShapes s.shapes ++ rest) = do
      let more ← statementsFrom (parsersWithin (depth + 9)) false fuel
        (some ⟨.punct .semicolon, 0, 0⟩) rest
      return s.stmt :: more := by
  obtain ⟨tool, digits⟩ := s
  cases tool <;> rfl

theorem statementsFrom_split (depth fuel : Nat) (before : Option Token) (rest : List Item) :
    statementsFrom (parsersWithin (depth + 9)) false (fuel + 2) before
      (Item.ofShapes splitShapes ++ rest) = do
      let more ← statementsFrom (parsersWithin (depth + 9)) false fuel
        (some ⟨.punct .semicolon, 0, 0⟩) rest
      return splitStmt :: more := rfl

theorem statementsFrom_steps (depth : Nat) : ∀ (steps : List Step) (fuel : Nat) (before : Option Token),
    2 * steps.length + 2 ≤ fuel →
    statementsFrom (parsersWithin (depth + 9)) false fuel before
      (Item.ofShapes (steps.flatMap Step.shapes ++ joinShapes)) 0 =
      (.ok (steps.map Step.stmt ++ [joinStmt]), 0)
  | [], fuel, before, hfuel => by
    obtain ⟨fuel, rfl⟩ : ∃ n, fuel = n + 2 := ⟨fuel - 2, by omega⟩
    rfl
  | s :: steps, fuel, before, hfuel => by
    rw [List.length_cons] at hfuel
    obtain ⟨fuel, rfl⟩ : ∃ n, fuel = n + 2 := ⟨fuel - 2, by omega⟩
    rw [List.flatMap_cons, List.append_assoc, Item.ofShapes_append, statementsFrom_step]
    show Parse.andThen _ _ 0 = _
    rw [Parse.andThen, statementsFrom_steps depth steps fuel _ (by omega)]
    rfl

theorem parseStatements_body (hsteps : ∀ s ∈ steps, s.Valid) (minted : Nat) :
    parseStatements (bodyText steps) 256 minted = (.ok (definition steps).body, minted) := by
  refine parseStatements_of_splits (splitsInto_body hsteps) (noFunction_body steps) ?_ minted
  have hlength : ∀ steps : List Step, (Item.ofShapes (steps.flatMap Step.shapes ++ joinShapes)).length =
      5 * steps.length + 5 := by
    intro steps
    induction steps with
    | nil => rfl
    | cons s steps ih =>
      rw [List.flatMap_cons, List.append_assoc, Item.ofShapes_append, List.length_append, ih]
      show 5 + _ = _
      rw [List.length_cons]
      omega
  have hfuel : 7 + (5 * steps.length + 5) = 5 * steps.length + 10 + 2 := by omega
  rw [Item.ofShapes_append, statements]
  dsimp only
  rw [List.length_append, hlength, show (Item.ofShapes splitShapes).length = 7 from rfl, hfuel,
    statementsFrom_split 247]
  show Parse.andThen _ _ 0 = _
  rw [Parse.andThen, statementsFrom_steps 247 steps _ _ (by omega)]
  rfl

/-! ## What is taken out of the text -/

theorem through_step {s : Step} (hs : s.Valid) :
    (Nesting.inside .curly).through s.text = some (.inside .curly) := by
  have hdigits : ∀ c ∈ s.digits, Nesting.isNeutral c = true :=
    fun c hc => Nesting.isNeutral_of_isWordPart (isWordPart_of_isDigitOf (by decide) (hs.decimal c hc))
  -- the digits stand in parentheses inside the braces
  have hlead : (Nesting.inside .curly).through ("Xy.".toList ++ (s.tool.key.toList ++ "(a,".toList)) =
      some ((Nesting.inside .curly).count (· + 1) .round) := by
    cases s.tool <;> cbv
  have htail : ((Nesting.inside .curly).count (· + 1) .round).through ");".toList =
      some (.inside .curly) := by cbv
  have hdeep := (Nesting.step_opener (Nesting.inside_deep .curly) .round).2
  have htext : s.text = ("Xy.".toList ++ (s.tool.key.toList ++ "(a,".toList)) ++ (s.digits ++ ");".toList) := by
    rw [Step.text, List.append_assoc, List.append_assoc]
  rw [htext, Nesting.through_append, hlead, Option.bind_some, Nesting.through_append,
    Nesting.through_neutral hdeep hdigits, Option.bind_some, htail]

theorem through_body (hsteps : ∀ s ∈ steps, s.Valid) :
    (Nesting.inside .curly).through (bodyText steps) = some (.inside .curly) := by
  have hall : (Nesting.inside .curly).through (steps.flatMap Step.text) = some (.inside .curly) := by
    induction steps with
    | nil => rfl
    | cons s steps ih =>
      rw [List.forall_mem_cons] at hsteps
      rw [List.flatMap_cons, Nesting.through_append, through_step hsteps.1, Option.bind_some, ih hsteps.2]
  have hsplit : (Nesting.inside .curly).through splitText = some (.inside .curly) := by
    cbv
  have hjoin : (Nesting.inside .curly).through joinText = some (.inside .curly) := by
    cbv
  rw [bodyText, Nesting.through_append, hsplit, Option.bind_some, Nesting.through_append, hall,
    Option.bind_some, hjoin]

/-- A text without blanks at its ends is left as it is. -/
theorem trim_visible {cs : List Char} (hhead : ∀ c ∈ cs.head?, isBlank c = false)
    (hlast : ∀ c ∈ cs.getLast?, isBlank c = false) : trim cs = cs := by
  have hdrop : ∀ {ds : List Char}, (∀ c ∈ ds.head?, isBlank c = false) → ds.dropWhile isBlank = ds := by
    intro ds hds
    cases ds with
    | nil => rfl
    | cons c ds => exact List.dropWhile_cons_of_neg (by simp [hds c rfl])
  rw [trim, trimStart, hdrop hhead, trimEnd, hdrop (by rwa [List.head?_reverse]), List.reverse_reverse]

theorem trim_body (steps : List Step) : trim (bodyText steps) = bodyText steps := by
  have hfirst : (bodyText steps).head? = some 'a' := by
    have hsplit : splitText.head? = some 'a' := by cbv
    rw [bodyText, List.head?_append, hsplit, Option.some_or]
  have hlast : (bodyText steps).getLast? = some ')' := by
    have hjoin : joinText.getLast? = some ')' := by cbv
    rw [bodyText, List.getLast?_append, List.getLast?_append, hjoin, Option.some_or, Option.some_or]
  refine trim_visible ?_ ?_
  · simp [hfirst, show isBlank 'a' = false by decide]
  · simp [hlast, show isBlank ')' = false by decide]

theorem leftmost_sig (tail : List Char) :
    leftmost? (headerAt? "sig".toList) (objectText ++ (toolsText ++ (functionText ++ '\x7b' :: tail))) =
      some (['a'], '\x7b' :: tail) := by
  have hlead : objectText ++ (toolsText ++ functionText) =
      ("var Xy=\x7bab:function(a,b)\x7ba.splice(0,b)\x7d,cd:function(a)\x7ba.reverse()\x7d," ++
        "ef:function(a,b)\x7bvar c=a[0];a[0]=a[b%a.length];a[b%a.length]=c\x7d\x7d;" ++
        "var sig=function(a)").toList := by
    decide +kernel
  have htext : objectText ++ (toolsText ++ (functionText ++ '\x7b' :: tail)) =
      (objectText ++ (toolsText ++ functionText)) ++ '\x7b' :: tail := by
    rw [List.append_assoc, List.append_assoc]
  rw [htext, hlead]
  cbv

theorem functionCode_sig (hsteps : ∀ s ∈ steps, s.Valid) :
    functionCode (sourceText steps) "sig" = .ok ⟨["a"], bodyText steps⟩ := by
  have hparams : splitParams ['a'] = ["a"] := by cbv
  have hfound : leftmost? (headerAt? "sig".toList) (sourceText steps) =
      some (['a'], '\x7b' :: (bodyText steps ++ ['\x7d', ';'])) := leftmost_sig _
  have hcut : separateAtBracket ('\x7b' :: (bodyText steps ++ ['\x7d', ';'])) none =
      .ok (trim (bodyText steps), trim [';']) := separateAtBracket_enclosed (through_body hsteps) [';']
  simp only [functionCode]
  rw [show (fun cs => firstHeader? (functionHead "sig".toList cs)) = headerAt? "sig".toList from rfl,
    hfound]
  dsimp only
  rw [hcut, trim_body, hparams]
  rfl

theorem functionDefinition_sig (hsteps : ∀ s ∈ steps, s.Valid) (minted : Nat) :
    (program steps).functionDefinition "sig" minted = (.ok (definition steps), minted) := by
  have hparse := parseStatements_body hsteps minted
  unfold Program.functionDefinition
  rw [show (program steps).source = sourceText steps from rfl, functionCode_sig hsteps]
  dsimp only
  unfold Program.definition
  rw [show (program steps).options.maxNesting = 256 from rfl, hparse]
  rfl

theorem objectPlaces_tools (fuel : Nat) (tail : List Char) :
    objectPlaces "Xy".toList (fuel + 4) true (objectText ++ tail) =
      tail :: objectPlaces "Xy".toList fuel false tail := by
  cbv

theorem objectCodes_tools (tail : List Char) :
    ∃ more, objectCodes (objectText ++ tail) "Xy" = ('\x7b' :: tail) :: more := by
  have hlength : (objectText ++ tail).length + 1 = tail.length + 5 + 4 := by
    rw [List.length_append, show objectText.length = 8 by cbv]
    omega
  rw [objectCodes, hlength, objectPlaces_tools]
  exact ⟨_, rfl⟩

/-- The text of the tools is closed, and each tool is a field of it. -/
theorem toolsText_parts :
    (Nesting.inside .curly).through toolsText = some (.inside .curly) ∧ trim toolsText = toolsText ∧
      fieldCodes toolsText = [Tool.drop.text, Tool.reverse.text, Tool.swap.text] := by
  decide +kernel

theorem field_tool (t : Tool) :
    field t.text = .ok (.function t.key ⟨t.definition.params, t.bodyText⟩) := by
  have hempty : (trim t.text).isEmpty = false := by cases t <;> decide +kernel
  have hcolon : separate t.text [':'] (some 1) = [t.key.toList, "function(".toList ++
      (t.paramText ++ ')' :: '\x7b' :: (t.bodyText ++ ['\x7d']))] := by
    cases t <;> decide +kernel
  have hheader : firstHeader? (Pattern.inOrder [Pattern.blanks, Pattern.word "function"] ("function(".toList ++
      (t.paramText ++ ')' :: '\x7b' :: (t.bodyText ++ ['\x7d'])))) =
        some (t.paramText, '\x7b' :: (t.bodyText ++ ['\x7d'])) := by
    cases t <;> decide +kernel
  have hthrough : (Nesting.inside .curly).through t.bodyText = some (.inside .curly) := by
    cases t <;> decide +kernel
  have hcut : separateAtBracket ('\x7b' :: (t.bodyText ++ ['\x7d'])) none = .ok (trim t.bodyText, trim []) :=
    separateAtBracket_enclosed hthrough []
  have htrim : trim t.bodyText = t.bodyText := by cases t <;> decide +kernel
  have hparams : splitParams t.paramText = t.definition.params := by cases t <;> decide +kernel
  have hkey : String.ofList (dropQuotes (trim t.key.toList)) = t.key := by cases t <;> cbv
  unfold field
  rw [hempty, hcolon]
  dsimp only
  rw [hheader]
  dsimp only
  rw [hcut, htrim, hparams, hkey]
  rfl

theorem objectDefinitions_tools (steps : List Step) (minted : Nat) :
    (program steps).objectDefinitions "Xy" (objectCodes (sourceText steps) "Xy") minted =
      (.ok ⟨[("ab", Tool.drop.definition), ("cd", Tool.reverse.definition),
        ("ef", Tool.swap.definition)]⟩, minted) := by
  obtain ⟨hthrough, htrim, hcodes⟩ := toolsText_parts
  have hfunction : functionText = '\x7d' :: functionText.tail := by cbv
  obtain ⟨more, hplaces⟩ := objectCodes_tools (toolsText ++ (functionText ++
    '\x7b' :: (bodyText steps ++ ['\x7d', ';'])))
  have hcut : ∀ rest, separateAtBracket ('\x7b' :: (toolsText ++ (functionText ++ rest))) none =
      .ok (trim toolsText, trim (functionText.tail ++ rest)) := by
    intro rest
    rw [hfunction]
    exact separateAtBracket_enclosed hthrough _
  have hdefinition : ∀ t : Tool, (program steps).definition t.key
      ⟨t.definition.params, t.bodyText⟩ minted = (.ok t.definition, minted) := by
    intro t
    unfold Program.definition
    rw [show (program steps).options.maxNesting = 256 from rfl, parseStatements_tool]
    cases t <;> rfl
  have hfields : (program steps).fieldDefinitions [Tool.drop.text, Tool.reverse.text, Tool.swap.text]
      Table.empty minted = (.ok (some ⟨[("ab", Tool.drop.definition), ("cd", Tool.reverse.definition),
        ("ef", Tool.swap.definition)]⟩), minted) := by
    simp only [Program.fieldDefinitions, field_tool, hdefinition]
    rfl
  rw [sourceText, hplaces, Program.objectDefinitions, hcut]
  dsimp only
  rw [htrim, hcodes, hfields]

end Decipher
end PlayerScript
