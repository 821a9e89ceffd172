/-
Writing trees out. Every expression stands in parentheses, every simple statement ends with a
semicolon, and a block begins with one, so that the written form leaves no choice to the parser.
The written form of a tree is a list of shapes; its text has a space between any two tokens.
-/
import PlayerScript.Ast.Parser
import PlayerScript.Proofs.Token.Shape
import PlayerScript.Proofs.Token.Spelling

namespace PlayerScript

namespace Shape

/-- A word. -/
def word (name : String) : Shape := .leaf (.ident name)

/-- A punctuator that is no bracket. -/
def mark (p : Punct) : Shape := .leaf (.punct p)

/-- Parts with commas between them. -/
def commas (parts : List (List Shape)) : List Shape := List.intercalate [mark .comma] parts

theorem allOf_commas {p : TokenKind → Bool} (hp : p (.punct .comma) = true) :
    ∀ {parts : List (List Shape)}, (∀ part ∈ parts, allOf p part = true) →
      allOf p (commas parts) = true
  | [], _ => rfl
  | [part], h => by
    rw [commas, List.intercalate_singleton]
    exact h part List.mem_cons_self
  | part :: next :: parts, h => by
    rw [List.forall_mem_cons] at h
    rw [commas, List.intercalate_cons_cons, List.append_assoc, List.singleton_append, allOf_append,
      h.1, allOf, mark, all, hp]
    exact allOf_commas hp h.2

end Shape

namespace Ast

open Shape

/-! ## Printing -/

/-- The written form of a literal. -/
def literalShape : Literal → Shape
  | .undefined => word "undefined"
  | .null => word "null"
  | .bool true => word "true"
  | .bool false => word "false"
  | .number x => .leaf (.number x)
  | .string s => .leaf (.string s)

/-- The written form of an operator before its operand. -/
def unaryShape : UnaryOp → Shape
  | .neg => mark (.binary .sub)
  | .plus => mark (.binary .add)
  | .not => mark .not
  | .void => word "void"

/-- The written form of what follows a guarded block: its body is not kept. -/
def handlerShapes : Option (Option String) → List Shape
  | none => []
  | some none => [word "catch", .group .curly [mark .semicolon]]
  | some (some name) =>
    [word "catch", .group .round [word name], .group .curly [mark .semicolon]]

mutual

/-- What stands inside the parentheses around an expression. -/
def inside : Expr → List Shape
  | .literal value => [literalShape value]
  | .ident name => [word name]
  | .array items => [.group .square (commas (elementShapes items))]
  | .object members => [.group .curly (commas (memberShapes members))]
  | .function name params body =>
    [word "function", word name, .group .round (commas (params.map fun p => [word p])),
      .group .curly (mark .semicolon :: bodyShapes body)]
  | .unary op operand => [unaryShape op, .group .round (inside operand)]
  | .update op true name => [mark (.update op), word name]
  | .update op false name => [word name, mark (.update op)]
  | .binary op left right =>
    [.group .round (inside left), mark (.binary op), .group .round (inside right)]
  | .conditional test consequent alternate =>
    [.group .round (inside test), mark .question, .group .round (inside consequent), mark .colon,
      .group .round (inside alternate)]
  | .assign name none op value => [word name, mark (.assign op), .group .round (inside value)]
  | .assign name (some index) op value =>
    [word name, .group .square [.group .round (inside index)], mark (.assign op),
      .group .round (inside value)]
  | .sequence items => commas (elementShapes items)
  | .member object (.name name) optional =>
    [.group .round (inside object), mark (if optional then .optionalDot else .dot), word name]
  | .member object (.computed key) true =>
    [.group .round (inside object), mark .optionalDot, .group .square [.group .round (inside key)]]
  | .member object (.computed key) false =>
    [.group .round (inside object), .group .square [.group .round (inside key)]]
  | .call callee args =>
    [.group .round (inside callee), .group .round (commas (elementShapes args))]

/-- The written forms of expressions in a list. -/
def elementShapes : List Expr → List (List Shape)
  | [] => []
  | e :: rest => [.group .round (inside e)] :: elementShapes rest

/-- The written forms of the members of an object. A key is written as a string. -/
def memberShapes : List (String × Expr) → List (List Shape)
  | [] => []
  | (key, e) :: rest =>
    [.leaf (.string key), mark .colon, .group .round (inside e)] :: memberShapes rest

/-- The written forms of declared variables. -/
def declShapes : List (String × Option Expr) → List (List Shape)
  | [] => []
  | (name, none) :: rest => [word name] :: declShapes rest
  | (name, some e) :: rest =>
    [word name, mark (.assign none), .group .round (inside e)] :: declShapes rest

/-- The written form of an expression that may be absent. -/
def optionalShapes : Option Expr → List Shape
  | none => []
  | some e => [.group .round (inside e)]

/-- The written form of a statement. -/
def stmtShapes : Stmt → List Shape
  | .empty => [mark .semicolon]
  | .expr e => [.group .round (inside e), mark .semicolon]
  | .var decls => word "var" :: (commas (declShapes decls) ++ [mark .semicolon])
  | .returns value => word "return" :: (optionalShapes value ++ [mark .semicolon])
  | .throws value => [word "throw", .group .round (inside value), mark .semicolon]
  | .block body => [.group .curly (mark .semicolon :: bodyShapes body)]
  | .ifElse cond body none =>
    word "if" :: .group .round [.group .round (inside cond)] :: stmtShapes body
  | .ifElse cond body (some otherwise) =>
    word "if" :: .group .round [.group .round (inside cond)] ::
      (stmtShapes body ++ word "else" :: stmtShapes otherwise)
  | .forLoop init cond update body =>
    word "for" :: .group .round (initShapes init ++ mark .semicolon ::
      (optionalShapes cond ++ mark .semicolon :: optionalShapes update)) :: stmtShapes body
  | .switch selector clauses =>
    [word "switch", .group .round [.group .round (inside selector)],
      .group .curly (clauseShapes clauses)]
  | .tryBlock body handler none =>
    word "try" :: .group .curly (mark .semicolon :: bodyShapes body) :: handlerShapes handler
  | .tryBlock body handler (some cleanup) =>
    word "try" :: .group .curly (mark .semicolon :: bodyShapes body) ::
      (handlerShapes handler ++
        [word "finally", .group .curly (mark .semicolon :: bodyShapes cleanup)])
  | .breaks => [word "break", mark .semicolon]
  | .continues => [word "continue", mark .semicolon]

/-- The written form of what a loop starts with. -/
def initShapes : Option Stmt → List Shape
  | some (.var decls) => word "var" :: commas (declShapes decls)
  | some (.expr e) => [.group .round (inside e)]
  | _ => []

/-- The written form of a list of statements. -/
def bodyShapes : List Stmt → List Shape
  | [] => []
  | s :: rest => stmtShapes s ++ bodyShapes rest

/-- The written form of the clauses of a switch. -/
def clauseShapes : List Clause → List Shape
  | [] => []
  | .mk none body :: rest =>
    word "default" :: mark .colon :: (bodyShapes body ++ clauseShapes rest)
  | .mk (some label) body :: rest =>
    word "case" :: .group .round (inside label) :: mark .colon ::
      (bodyShapes body ++ clauseShapes rest)

end

/-- The text of a list of statements. -/
def print (numerals : Numerals) (stmts : List Stmt) : List Char :=
  Token.textOf numerals (kindsOf (bodyShapes stmts))

example : String.ofList (print .expanded [.block [.returns (some (.binary .sub (.ident "a")
    (.literal (.string "\n"))))]]) = "\x7b ; return ( ( a ) - ( \"\\n\" ) ) ; \x7d" := by rfl

/-! ## Trees that can be printed -/

/-- The words that are no variable to the parser. -/
def reservedWords : List String :=
  statementWords ++ operatorWords ++
    ["function", "void", "true", "false", "null", "undefined", "NaN", "Infinity"]

/-- Whether a name can be written as an identifier. -/
def isIdentifier (name : String) : Bool := isName name.toList && !reservedWords.contains name

/-- Whether a literal can be written: a number has no sign and is finite. -/
def literalWritable : Literal → Bool
  | .number x => Number.isUnsigned x
  | _ => true

/-- Whether a statement is a block. -/
def isBlock : Stmt → Bool
  | .block _ => true
  | _ => false

mutual

/-- Whether an expression can be written: its names are identifiers, its functions have names of
their own, its sequences have two items or more, and its parts can be written. -/
def exprWritable : Expr → Bool
  | .literal value => literalWritable value
  | .ident name => isIdentifier name
  | .array items => elementsWritable items
  | .object members => membersWritable members
  | .function name params body => isIdentifier name && params.all isIdentifier && bodyWritable body
  | .unary _ operand => exprWritable operand
  | .update _ _ name => isIdentifier name
  | .binary _ left right => exprWritable left && exprWritable right
  | .conditional test consequent alternate =>
    exprWritable test && exprWritable consequent && exprWritable alternate
  | .assign name index op value =>
    isIdentifier name && optionalWritable index && AssignOp.all.contains op && exprWritable value
  | .sequence items => decide (2 ≤ items.length) && elementsWritable items
  | .member object (.name name) _ => exprWritable object && isIdentifier name
  | .member object (.computed key) _ => exprWritable object && exprWritable key
  | .call callee args => exprWritable callee && elementsWritable args

/-- Whether every expression of a list can be written. -/
def elementsWritable : List Expr → Bool
  | [] => true
  | e :: rest => exprWritable e && elementsWritable rest

/-- Whether every member of an object can be written. Its key may be any string. -/
def membersWritable : List (String × Expr) → Bool
  | [] => true
  | (_, e) :: rest => exprWritable e && membersWritable rest

/-- Whether every declared variable can be written. -/
def declsWritable : List (String × Option Expr) → Bool
  | [] => true
  | (name, value) :: rest => isIdentifier name && optionalWritable value && declsWritable rest

/-- Whether an expression can be written, if there is one. -/
def optionalWritable : Option Expr → Bool
  | none => true
  | some e => exprWritable e

/-- Whether a statement can be written: it declares something if it is a declaration, the bodies
of branches and loops are blocks, and its parts can be written. -/
def stmtWritable : Stmt → Bool
  | .empty => false
  | .expr e => exprWritable e
  | .var decls => !decls.isEmpty && declsWritable decls
  | .returns value => optionalWritable value
  | .throws value => exprWritable value
  | .block body => bodyWritable body
  | .ifElse cond body none => exprWritable cond && isBlock body && stmtWritable body
  | .ifElse cond body (some otherwise) =>
    exprWritable cond && isBlock body && stmtWritable body && isBlock otherwise &&
      stmtWritable otherwise
  | .forLoop init cond update body =>
    initWritable init && optionalWritable cond && optionalWritable update && isBlock body &&
      stmtWritable body
  | .switch selector clauses => exprWritable selector && clausesWritable clauses
  | .tryBlock body handler none => bodyWritable body && (handler.join.all isIdentifier)
  | .tryBlock body handler (some cleanup) =>
    bodyWritable body && (handler.join.all isIdentifier) && bodyWritable cleanup
  | .breaks | .continues => true

/-- Whether the start of a loop can be written: nothing, a declaration or an expression. -/
def initWritable : Option Stmt → Bool
  | none => true
  | some (.var decls) => !decls.isEmpty && declsWritable decls
  | some (.expr e) => exprWritable e
  | some _ => false

/-- Whether every statement of a list can be written. -/
def bodyWritable : List Stmt → Bool
  | [] => true
  | s :: rest => stmtWritable s && bodyWritable rest

/-- Whether every clause of a switch can be written. -/
def clausesWritable : List Clause → Bool
  | [] => true
  | .mk label body :: rest => optionalWritable label && bodyWritable body && clausesWritable rest

end

/-! ## What is printed can be read as tokens -/

/-- Whether shapes consist of writable tokens and of groups. -/
def Writable (ss : List Shape) : Prop := allOf TokenKind.isWritable ss = true

/-- Whether a punctuator can be written and is no bracket. -/
def isPlain (p : Punct) : Bool :=
  Punct.longestFirst.contains p && !(TokenKind.punct p).isBracket

namespace Writable

variable {ss ts : List Shape}

theorem nil : Writable [] := rfl

theorem group {b : Bracket} {inner : List Shape} (hi : Writable inner) (hs : Writable ss) :
    Writable (.group b inner :: ss) := by
  unfold Writable at *
  rw [allOf, all, hi, hs, Bool.and_self]

theorem append (hs : Writable ss) (ht : Writable ts) : Writable (ss ++ ts) := by
  unfold Writable at *
  rw [allOf_append, hs, ht, Bool.and_self]

theorem word {name : String} (hn : isName name.toList = true) (hs : Writable ss) :
    Writable (word name :: ss) := by
  unfold Writable at *
  rw [Shape.word, allOf, hs, all, TokenKind.isWritable, hn]
  rfl

theorem string (s : String) (hs : Writable ss) : Writable (.leaf (.string s) :: ss) := by
  unfold Writable at *
  rw [allOf, hs]
  rfl

theorem mark {p : Punct} (hp : isPlain p = true) (hs : Writable ss) : Writable (mark p :: ss) := by
  unfold Writable at *
  rw [Shape.mark, allOf, hs, all, Bool.and_true]
  exact hp

theorem commas {parts : List (List Shape)} (h : ∀ part ∈ parts, Writable part) :
    Writable (commas parts) :=
  allOf_commas rfl h

end Writable

theorem isPlain_binary (op : BinaryOp) : isPlain (.binary op) = true := by cases op <;> rfl

theorem isPlain_update (op : UpdateOp) : isPlain (.update op) = true := by cases op <;> rfl

theorem isPlain_assign : ∀ {op : AssignOp}, AssignOp.all.contains op = true →
    isPlain (.assign op) = true
  | none, _ => rfl
  | some op, h => by cases op <;> first | rfl | cases h

theorem isName_of_isIdentifier {name : String} (h : isIdentifier name = true) :
    isName name.toList = true := by
  rw [isIdentifier, Bool.and_eq_true] at h
  exact h.1

theorem writable_literal {value : Literal} (h : literalWritable value = true) :
    Writable [literalShape value] := by
  cases value with
  | undefined => rfl
  | null => rfl
  | bool b => cases b <;> rfl
  | number x =>
    rw [literalWritable] at h
    rw [Writable, literalShape, allOf, all, TokenKind.isWritable, h]
    rfl
  | string s => exact .string s .nil

theorem writable_unary (op : UnaryOp) : Writable [unaryShape op] := by cases op <;> rfl

theorem writable_handler {handler : Option (Option String)}
    (h : handler.join.all isIdentifier = true) : Writable (handlerShapes handler) := by
  match handler with
  | none => exact .nil
  | some none => exact .word rfl (.group (.mark rfl .nil) .nil)
  | some (some name) =>
    exact .word rfl (.group (.word (isName_of_isIdentifier h) .nil) (.group (.mark rfl .nil) .nil))

mutual

theorem writable_inside : ∀ e : Expr, exprWritable e = true → Writable (inside e)
  | .literal value, h => by rw [inside]; exact writable_literal h
  | .ident name, h => by rw [inside]; exact .word (isName_of_isIdentifier h) .nil
  | .array items, h => by rw [inside]; exact .group (.commas (writable_elements items h)) .nil
  | .object members, h => by
    rw [inside]; exact .group (.commas (writable_members members h)) .nil
  | .function name params body, h => by
    simp only [exprWritable, Bool.and_eq_true, List.all_eq_true] at h
    obtain ⟨⟨hname, hparams⟩, hbody⟩ := h
    have hlist : ∀ part ∈ params.map fun p => [Shape.word p], Writable part := by
      simp only [List.forall_mem_map]
      exact fun p hp => .word (isName_of_isIdentifier (hparams p hp)) .nil
    rw [inside]
    exact .word rfl (.word (isName_of_isIdentifier hname) (.group (.commas hlist)
      (.group (.mark rfl (writable_body body hbody)) .nil)))
  | .unary op operand, h => by
    rw [inside]
    exact (writable_unary op).append (.group (writable_inside operand h) .nil)
  | .update op true name, h => by
    rw [inside]; exact .mark (isPlain_update op) (.word (isName_of_isIdentifier h) .nil)
  | .update op false name, h => by
    rw [inside]; exact .word (isName_of_isIdentifier h) (.mark (isPlain_update op) .nil)
  | .binary op left right, h => by
    simp only [exprWritable, Bool.and_eq_true] at h
    rw [inside]
    exact .group (writable_inside left h.1) (.mark (isPlain_binary op)
      (.group (writable_inside right h.2) .nil))
  | .conditional test consequent alternate, h => by
    simp only [exprWritable, Bool.and_eq_true] at h
    rw [inside]
    exact .group (writable_inside test h.1.1) (.mark rfl (.group (writable_inside consequent h.1.2)
      (.mark rfl (.group (writable_inside alternate h.2) .nil))))
  | .assign name none op value, h => by
    simp only [exprWritable, Bool.and_eq_true] at h
    rw [inside]
    exact .word (isName_of_isIdentifier h.1.1.1) (.mark (isPlain_assign h.1.2)
      (.group (writable_inside value h.2) .nil))
  | .assign name (some index) op value, h => by
    simp only [exprWritable, optionalWritable, Bool.and_eq_true] at h
    rw [inside]
    exact .word (isName_of_isIdentifier h.1.1.1) (.group (.group (writable_inside index h.1.1.2) .nil)
      (.mark (isPlain_assign h.1.2) (.group (writable_inside value h.2) .nil)))
  | .sequence items, h => by
    simp only [exprWritable, Bool.and_eq_true] at h
    rw [inside]; exact .commas (writable_elements items h.2)
  | .member object (.name name) optional, h => by
    simp only [exprWritable, Bool.and_eq_true] at h
    have hdot : isPlain (if optional then .optionalDot else .dot) = true := by cases optional <;> rfl
    rw [inside]
    exact .group (writable_inside object h.1) (.mark hdot (.word (isName_of_isIdentifier h.2) .nil))
  | .member object (.computed key) true, h => by
    simp only [exprWritable, Bool.and_eq_true] at h
    rw [inside]
    exact .group (writable_inside object h.1) (.mark rfl
      (.group (.group (writable_inside key h.2) .nil) .nil))
  | .member object (.computed key) false, h => by
    simp only [exprWritable, Bool.and_eq_true] at h
    rw [inside]
    exact .group (writable_inside object h.1) (.group (.group (writable_inside key h.2) .nil) .nil)
  | .call callee args, h => by
    simp only [exprWritable, Bool.and_eq_true] at h
    rw [inside]
    exact .group (writable_inside callee h.1) (.group (.commas (writable_elements args h.2)) .nil)

theorem writable_elements : ∀ items : List Expr, elementsWritable items = true →
    ∀ part ∈ elementShapes items, Writable part
  | [], _ => by rw [elementShapes]; exact List.forall_mem_nil _
  | e :: rest, h => by
    rw [elementsWritable, Bool.and_eq_true] at h
    rw [elementShapes, List.forall_mem_cons]
    exact ⟨.group (writable_inside e h.1) .nil, writable_elements rest h.2⟩

theorem writable_members : ∀ members : List (String × Expr), membersWritable members = true →
    ∀ part ∈ memberShapes members, Writable part
  | [], _ => by rw [memberShapes]; exact List.forall_mem_nil _
  | (key, e) :: rest, h => by
    rw [membersWritable, Bool.and_eq_true] at h
    rw [memberShapes, List.forall_mem_cons]
    exact ⟨.string key (.mark rfl (.group (writable_inside e h.1) .nil)), writable_members rest h.2⟩

theorem writable_decls : ∀ decls : List (String × Option Expr), declsWritable decls = true →
    ∀ part ∈ declShapes decls, Writable part
  | [], _ => by rw [declShapes]; exact List.forall_mem_nil _
  | (name, none) :: rest, h => by
    simp only [declsWritable, Bool.and_eq_true] at h
    rw [declShapes, List.forall_mem_cons]
    exact ⟨.word (isName_of_isIdentifier h.1.1) .nil, writable_decls rest h.2⟩
  | (name, some e) :: rest, h => by
    simp only [declsWritable, optionalWritable, Bool.and_eq_true] at h
    rw [declShapes, List.forall_mem_cons]
    exact ⟨.word (isName_of_isIdentifier h.1.1) (.mark rfl (.group (writable_inside e h.1.2) .nil)),
      writable_decls rest h.2⟩

theorem writable_optional : ∀ value : Option Expr, optionalWritable value = true →
    Writable (optionalShapes value)
  | none, _ => .nil
  | some e, h => by rw [optionalShapes]; exact .group (writable_inside e h) .nil

theorem writable_stmt : ∀ s : Stmt, stmtWritable s = true → Writable (stmtShapes s)
  | .empty, h => by cases h
  | .expr e, h => by rw [stmtShapes]; exact .group (writable_inside e h) (.mark rfl .nil)
  | .var decls, h => by
    rw [stmtWritable, Bool.and_eq_true] at h
    rw [stmtShapes]
    exact .word rfl ((Writable.commas (writable_decls decls h.2)).append (.mark rfl .nil))
  | .returns value, h => by
    rw [stmtShapes]; exact .word rfl ((writable_optional value h).append (.mark rfl .nil))
  | .throws value, h => by
    rw [stmtShapes]; exact .word rfl (.group (writable_inside value h) (.mark rfl .nil))
  | .block body, h => by
    rw [stmtShapes]; exact .group (.mark rfl (writable_body body h)) .nil
  | .ifElse cond body none, h => by
    simp only [stmtWritable, Bool.and_eq_true] at h
    rw [stmtShapes]
    exact .word rfl (.group (.group (writable_inside cond h.1.1) .nil) (writable_stmt body h.2))
  | .ifElse cond body (some otherwise), h => by
    simp only [stmtWritable, Bool.and_eq_true] at h
    rw [stmtShapes]
    exact .word rfl (.group (.group (writable_inside cond h.1.1.1.1) .nil)
      ((writable_stmt body h.1.1.2).append (.word rfl (writable_stmt otherwise h.2))))
  | .forLoop init cond update body, h => by
    simp only [stmtWritable, Bool.and_eq_true] at h
    obtain ⟨⟨⟨⟨hinit, hcond⟩, hupdate⟩, -⟩, hbody⟩ := h
    rw [stmtShapes]
    exact .word rfl (.group ((writable_init init hinit).append (.mark rfl
      ((writable_optional cond hcond).append (.mark rfl (writable_optional update hupdate)))))
      (writable_stmt body hbody))
  | .switch selector clauses, h => by
    rw [stmtWritable, Bool.and_eq_true] at h
    rw [stmtShapes]
    exact .word rfl (.group (.group (writable_inside selector h.1) .nil)
      (.group (writable_clauses clauses h.2) .nil))
  | .tryBlock body handler none, h => by
    rw [stmtWritable, Bool.and_eq_true] at h
    rw [stmtShapes]
    exact .word rfl (.group (.mark rfl (writable_body body h.1)) (writable_handler h.2))
  | .tryBlock body handler (some cleanup), h => by
    simp only [stmtWritable, Bool.and_eq_true] at h
    rw [stmtShapes]
    exact .word rfl (.group (.mark rfl (writable_body body h.1.1)) ((writable_handler h.1.2).append
      (.word rfl (.group (.mark rfl (writable_body cleanup h.2)) .nil))))
  | .breaks, _ => rfl
  | .continues, _ => rfl

theorem writable_init : ∀ init : Option Stmt, initWritable init = true → Writable (initShapes init)
  | none, _ => .nil
  | some (.var decls), h => by
    rw [initWritable, Bool.and_eq_true] at h
    rw [initShapes]; exact .word rfl (.commas (writable_decls decls h.2))
  | some (.expr e), h => by rw [initShapes]; exact .group (writable_inside e h) .nil

theorem writable_body : ∀ stmts : List Stmt, bodyWritable stmts = true → Writable (bodyShapes stmts)
  | [], _ => by rw [bodyShapes]; exact .nil
  | s :: rest, h => by
    rw [bodyWritable, Bool.and_eq_true] at h
    rw [bodyShapes]; exact (writable_stmt s h.1).append (writable_body rest h.2)

theorem writable_clauses : ∀ clauses : List Clause, clausesWritable clauses = true →
    Writable (clauseShapes clauses)
  | [], _ => by rw [clauseShapes]; exact .nil
  | .mk none body :: rest, h => by
    simp only [clausesWritable, Bool.and_eq_true] at h
    rw [clauseShapes]
    exact .word rfl (.mark rfl ((writable_body body h.1.2).append (writable_clauses rest h.2)))
  | .mk (some label) body :: rest, h => by
    simp only [clausesWritable, optionalWritable, Bool.and_eq_true] at h
    rw [clauseShapes]
    exact .word rfl (.group (writable_inside label h.1.1) (.mark rfl
      ((writable_body body h.1.2).append (writable_clauses rest h.2))))

end

/-- The text of statements is split into the tokens of the shapes it was printed from. -/
theorem tokenize_print (numerals : Numerals) {stmts : List Stmt} (h : bodyWritable stmts = true) :
    ∃ ts, Token.tokenize (print numerals stmts) = .ok ts ∧
      ts.map Token.kind = kindsOf (bodyShapes stmts) := by
  refine Token.tokenize_textOf numerals fun k hk => ?_
  rcases mem_kindsOf _ (writable_body stmts h) k hk with hw | ⟨b, rfl | rfl⟩
  · exact hw
  · cases b <;> rfl
  · cases b <;> rfl

end Ast
end PlayerScript
