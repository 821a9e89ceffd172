/-
Surveys of the parser. Runs of the parser on the same items are looked at side by side, one for each `i`
and each move of the items: they may have different levels left, or different counts of names minted
before. A survey says what may be known of the ways in which such runs end, and trees say what may be known
of the expressions and statements that come out, given the names of the functions in them. What is known of
the parts of a construct has to give what is known of the whole; then it is known of everything that is
parsed.
-/
import PlayerScript.Proofs.Ast.Extent
import PlayerScript.Proofs.Ast.Survey.Moves
import PlayerScript.Proofs.Token.Errors

namespace PlayerScript.Ast

/-- Whether the parser may object so without running the code. -/
def Objection.isPlain : Objection → Bool
  | .malformed fault => fault.isPlain
  | .unsupported => true

/-- Whether the parser may object so at any level. -/
def Objection.isCommon : Objection → Bool
  | .malformed .nestingTooDeep => false
  | objection => objection.isPlain

/-- What is known of results, one for each run, and of the names of the functions that were met on the
way to them, in the order in which they were met. -/
abbrev Account (ι α : Type) : Type := List (ι → String) → (ι → α) → Prop

/-- What is known of results that no move changes. -/
def Unmoved {ι α : Type} (R : Account ι α) : Account ι (Move → α) := fun names a =>
  ∃ b : ι → α, a = (fun i _ => b i) ∧ R names b

/-- What may be known of the ways in which runs of the parser end. They may stop alike; what happens
where no level is left is not said here. A kind of token with a large burden may be ruled out. -/
structure Survey (ι : Type) (w : TokenKind → Nat) where
  Runs : ∀ {α : Type}, Account ι (Move → α) → (ι → Move → Parse α) → Prop
  /-- The names that a function may have in the runs. -/
  Name : (ι → String) → Prop
  /-- The kinds of tokens that may be met. -/
  Light : TokenKind → Prop
  name_own : ∀ name, Name fun _ => name
  done : ∀ {α : Type} {R : Account ι (Move → α)} {a : ι → Move → α}, R [] a →
    Runs R fun i m => Parse.done (a i m)
  /-- A name of its own is met where no name is minted. -/
  own : ∀ {α : Type} {R : Account ι (Move → α)} {a : ι → Move → α} (name : String),
    R [fun _ => name] a → Runs R fun i m => Parse.done (a i m)
  mint : Light (.ident "function") →
    Runs (Unmoved fun names name => names = [name] ∧ Name name) fun _ _ => Parse.mint
  stop : ∀ {α : Type} {R : Account ι (Move → α)} {d : Move → Diagnostic},
    (∀ m, (d m).objection.isCommon = true) → Runs R fun _ m => Parse.stop (d m)
  bind : ∀ {α β : Type} {R : Account ι (Move → α)} {S : Account ι (Move → β)} {x : ι → Move → Parse α}
    {f : ι → Move → α → Parse β}, Runs R x →
    (∀ names a, R names a → Runs (fun more => S (names ++ more)) fun i m => f i m (a i m)) →
    Runs S fun i m => x i m >>= f i m

/-- Runs end with results that no move changes. -/
abbrev Survey.Ends {ι : Type} {w : TokenKind → Nat} (s : Survey ι w) {α : Type} (R : Account ι α)
    (x : ι → Move → Parse α) : Prop := s.Runs (Unmoved R) x

/-! ## Accounts of lists and options -/

section Accounts

variable {ι α : Type}

/-- What is known of each element of a list. -/
inductive Each (R : Account ι α) : Account ι (List α)
  | nil : Each R [] fun _ => []
  | cons {names more : List (ι → String)} {a : ι → α} {as : ι → List α} (h : R names a)
      (hs : Each R more as) : Each R (names ++ more) fun i => a i :: as i

/-- What is known of a result that may be absent. -/
inductive Maybe (R : Account ι α) : Account ι (Option α)
  | none : Maybe R [] fun _ => none
  | some {names : List (ι → String)} {a : ι → α} (h : R names a) : Maybe R names fun i => some (a i)

end Accounts

/-! ## Trees -/

/-- What may be known of expressions and of statements. -/
structure Trees (ι : Type) where
  expr : Account ι Expr
  stmt : Account ι Stmt

namespace Trees

variable {ι : Type} (t : Trees ι)

/-- An element of an array: an expression or a hole. -/
inductive Element : Account ι Expr
  | hole : Element [] fun _ => .literal .undefined
  | expr {names : List (ι → String)} {e : ι → Expr} (h : t.expr names e) : Element names e

/-- A member of an object. -/
inductive Member : Account ι (String × Expr)
  | mk {names : List (ι → String)} {e : ι → Expr} (key : String) (h : t.expr names e) :
      Member names fun i => (key, e i)

/-- A declared variable. -/
inductive Declared : Account ι (String × Option Expr)
  | mk {names : List (ι → String)} {e : ι → Option Expr} (name : String) (h : Maybe t.expr names e) :
      Declared names fun i => (name, e i)

/-- What a loop starts with. -/
inductive Init : Account ι (Option Stmt)
  | none : Init [] fun _ => none
  | var {names : List (ι → String)} {decls : ι → List (String × Option Expr)}
      (h : Each t.Declared names decls) : Init names fun i => some (.var (decls i))
  | expr {names : List (ι → String)} {e : ι → Expr} (h : t.expr names e) :
      Init names fun i => some (.expr (e i))

/-- A clause of a switch. -/
inductive Labelled : Account ι Clause
  | mk {names more : List (ι → String)} {label : ι → Option Expr} {body : ι → List Stmt}
      (hl : Maybe t.expr names label) (hb : Each t.stmt more body) :
      Labelled (names ++ more) fun i => .mk (label i) (body i)

/-- A list of statements that may be absent. -/
abbrev Final : Account ι (Option (List Stmt)) := Maybe (Each t.stmt)

end Trees

/-- What is known of the parts of a construct gives what is known of the whole, for every construct
that the parser makes. -/
structure Builds {ι : Type} {w : TokenKind → Nat} (s : Survey ι w) (inner outer : Trees ι) : Prop where
  literal : ∀ value, outer.expr [] fun _ => .literal value
  ident : ∀ name, s.Light (.ident name) → outer.expr [] fun _ => .ident name
  update : ∀ op before name, outer.expr [] fun _ => .update op before name
  wrapped : ∀ {n e}, inner.expr n e → outer.expr n e
  array : ∀ {n es}, Each inner.Element n es → outer.expr n fun i => .array (es i)
  object : ∀ {n ms}, Each inner.Member n ms → outer.expr n fun i => .object (ms i)
  function : ∀ {name n b}, s.Name name → ∀ params, Each inner.stmt n b →
    outer.expr (name :: n) fun i => .function (name i) params (b i)
  unary : ∀ {n e} op, inner.expr n e → outer.expr n fun i => .unary op (e i)
  binary : ∀ {n n' a b} op, inner.expr n a → inner.expr n' b →
    outer.expr (n ++ n') fun i => .binary op (a i) (b i)
  conditional : ∀ {n n' n'' a b c}, inner.expr n a → inner.expr n' b → inner.expr n'' c →
    outer.expr (n ++ (n' ++ n'')) fun i => .conditional (a i) (b i) (c i)
  assign : ∀ {n n' index value} name op, Maybe inner.expr n index → inner.expr n' value →
    outer.expr (n ++ n') fun i => .assign name (index i) op (value i)
  sequence : ∀ {n es}, Each inner.expr n es → outer.expr n fun i => .sequence (es i)
  member : ∀ {n e} name optional, outer.expr n e →
    outer.expr n fun i => .member (e i) (.name name) optional
  computed : ∀ {n n' e key} optional, outer.expr n e → inner.expr n' key →
    outer.expr (n ++ n') fun i => .member (e i) (.computed (key i)) optional
  call : ∀ {n n' e args}, outer.expr n e → Each inner.expr n' args →
    outer.expr (n ++ n') fun i => .call (e i) (args i)
  empty : outer.stmt [] fun _ => .empty
  breaks : outer.stmt [] fun _ => .breaks
  continues : outer.stmt [] fun _ => .continues
  expr : ∀ {n e}, inner.expr n e → outer.stmt n fun i => .expr (e i)
  var : ∀ {n decls}, Each inner.Declared n decls → outer.stmt n fun i => .var (decls i)
  declared : ∀ {n b} name params, Each inner.stmt n b →
    outer.stmt ((fun _ => name) :: n) fun i => .var [(name, some (.function name params (b i)))]
  returns : ∀ {n e}, Maybe inner.expr n e → outer.stmt n fun i => .returns (e i)
  throws : ∀ {n e}, inner.expr n e → outer.stmt n fun i => .throws (e i)
  block : ∀ {n b}, Each inner.stmt n b → outer.stmt n fun i => .block (b i)
  ifElse : ∀ {n n' n'' c b o}, inner.expr n c → inner.stmt n' b → Maybe inner.stmt n'' o →
    outer.stmt (n ++ (n' ++ n'')) fun i => .ifElse (c i) (b i) (o i)
  forLoop : ∀ {n n₁ n₂ n₃ init c u b}, inner.Init n init → Maybe inner.expr n₁ c →
    Maybe inner.expr n₂ u → inner.stmt n₃ b →
    outer.stmt (n ++ (n₁ ++ (n₂ ++ n₃))) fun i => .forLoop (init i) (c i) (u i) (b i)
  switch : ∀ {n n' e clauses}, inner.expr n e → Each inner.Labelled n' clauses →
    outer.stmt (n ++ n') fun i => .switch (e i) (clauses i)
  tryBlock : ∀ {n n' b final} handler, Each inner.stmt n b → inner.Final n' final →
    outer.stmt (n ++ n') fun i => .tryBlock (b i) handler (final i)

/-! ## Computations -/

theorem parse_bind_ok {α β : Type} {x : Parse α} {f : α → Parse β} {b : β} {k k' : Nat}
    (h : (x >>= f) k = (.ok b, k')) : ∃ a k₁, x k = (.ok a, k₁) ∧ f a k₁ = (.ok b, k') := by
  have hbind : (x >>= f) k = Parse.andThen x f k := rfl
  rw [hbind, Parse.andThen] at h
  rcases hx : x k with ⟨_ | a, k₁⟩
  · rw [hx] at h
    cases h
  · rw [hx] at h
    exact ⟨a, k₁, rfl, h⟩

theorem parse_bind_of_ok {α β : Type} {x : Parse α} {a : α} {k k' : Nat} (h : x k = (.ok a, k'))
    (f : α → Parse β) : (x >>= f) k = f a k' := by
  show Parse.andThen x f k = f a k'
  rw [Parse.andThen, h]

theorem Parse.bind_done {α : Type} (x : Parse α) : x >>= Parse.done = x := by
  funext k
  show Parse.andThen x Parse.done k = x k
  unfold Parse.andThen
  cases x k with
  | mk outcome k' => cases outcome <;> rfl

/-- A computation that mints nothing and that no other parser is needed for. Its result is at a place that
a move changes. -/
inductive Settled {α β : Type} (place : β → Move → α) (P : β → Prop) : (Move → Parse α) → Prop
  | done {b : β} (h : P b) : Settled place P fun m => Parse.done (place b m)
  | stop {d : Move → Diagnostic} (h : ∀ m, (d m).objection.isCommon = true) :
      Settled place P fun m => Parse.stop (d m)

/-- A settled computation with a result that no move changes. -/
abbrev Fixed {α : Type} (P : α → Prop) (x : Move → Parse α) : Prop := Settled (fun a _ => a) P x

namespace Settled

variable {α β γ δ : Type} {place : β → Move → α} {P : β → Prop} {place' : δ → Move → γ} {Q : δ → Prop}

theorem bind {x : Move → Parse α} {f : Move → α → Parse γ} (h : Settled place P x)
    (hf : ∀ b, P b → Settled place' Q fun m => f m (place b m)) : Settled place' Q fun m => x m >>= f m := by
  cases h with
  | done h => exact hf _ h
  | stop h => exact .stop h

theorem each {f : Range → Parse α} {P : α → Prop} (h : ∀ r, Fixed P fun m => f (m.range r))
    (ranges : List Range) : Fixed (fun _ => True) fun m => Parse.each f (ranges.map m.range) := by
  induction ranges with
  | nil => exact .done trivial
  | cons r rest ih => exact (h r).bind fun _ _ => ih.bind fun _ _ => .done trivial

end Settled

namespace Survey

variable {ι : Type} {w : TokenKind → Nat} (s : Survey ι w) {α β : Type} {R : Account ι α}

theorem bindAt {R : Account ι (Move → α)} {S : Account ι (Move → β)} {x : ι → Move → Parse α}
    {f : ι → Move → α → β} (h : s.Runs R x) (hf : ∀ names a, R names a → S names fun i m => f i m (a i m)) :
    s.Runs S fun i m => x i m >>= fun a => Parse.done (f i m a) := by
  refine s.bind h fun names a ha => s.done ?_
  rw [List.append_nil]
  exact hf names a ha

theorem imp {R R' : Account ι (Move → α)} {x : ι → Move → Parse α} (h : s.Runs R x)
    (hR : ∀ names a, R names a → R' names a) : s.Runs R' x := by
  have hmap := s.bindAt (f := fun _ _ a => a) h hR
  have heq : ∀ i m, (x i m >>= fun a => Parse.done a) = x i m := fun i m => Parse.bind_done (x i m)
  simpa only [heq] using hmap

theorem next {S : Account ι (Move → β)} {x : ι → Move → Parse α} {f : ι → Move → α → Parse β}
    (h : s.Ends R x)
    (hf : ∀ names a, R names a → s.Runs (fun more => S (names ++ more)) fun i m => f i m (a i)) :
    s.Runs S fun i m => x i m >>= f i m := by
  refine s.bind h ?_
  rintro names _ ⟨a, rfl, ha⟩
  exact hf names a ha

theorem mapAt {S : Account ι (Move → β)} {x : ι → Move → Parse α} {f : ι → Move → α → β} (h : s.Ends R x)
    (hf : ∀ names a, R names a → S names fun i m => f i m (a i)) :
    s.Runs S fun i m => x i m >>= fun a => Parse.done (f i m a) := by
  refine s.bindAt h ?_
  rintro names _ ⟨a, rfl, ha⟩
  exact hf names a ha

theorem map {S : Account ι β} {x : ι → Move → Parse α} {f : ι → α → β} (h : s.Ends R x)
    (hf : ∀ names a, R names a → S names fun i => f i (a i)) :
    s.Ends S fun i m => x i m >>= fun a => Parse.done (f i a) :=
  s.mapAt h fun names a ha => ⟨_, rfl, hf names a ha⟩

theorem ite {S : Account ι (Move → α)} {c : Prop} [Decidable c] {x y : ι → Move → Parse α}
    (hx : c → s.Runs S x) (hy : ¬ c → s.Runs S y) : s.Runs S fun i m => if c then x i m else y i m := by
  by_cases h : c
  · simp only [if_pos h]
    exact hx h
  · simp only [if_neg h]
    exact hy h

theorem after {γ : Type} {place : γ → Move → α} {P : γ → Prop} {S : Account ι (Move → β)}
    {x : Move → Parse α} {f : ι → Move → α → Parse β} (h : Settled place P x)
    (hf : ∀ c, P c → s.Runs S fun i m => f i m (place c m)) : s.Runs S fun i m => x m >>= f i m := by
  cases h with
  | done h => exact hf _ h
  | stop h => exact s.stop h

theorem each {f : ι → Range → Parse α} {ranges : List Range}
    (h : ∀ r ∈ ranges, s.Ends R fun i m => f i (m.range r)) :
    s.Ends (Each R) fun i m => Parse.each (f i) (ranges.map m.range) := by
  induction ranges with
  | nil => exact s.done ⟨_, rfl, .nil⟩
  | cons r rest ih =>
    refine s.next (h r List.mem_cons_self) fun names a ha => ?_
    refine s.mapAt (ih fun r' hr => h r' (List.mem_cons_of_mem _ hr)) fun more as has => ?_
    exact ⟨_, rfl, .cons ha has⟩

end Survey

/-- A parsed statement, with the same last token and the same rest in all runs. The rest weighs at most
`size`. -/
def Trees.Taken {ι : Type} (t : Trees ι) (w : TokenKind → Nat) (size : Nat) : Account ι (Move → Parsed) :=
  fun names p => ∃ stmt last rest, p = (fun i m => ⟨stmt i, m.token last, m.items rest⟩) ∧
    t.stmt names stmt ∧ extent w rest ≤ size

/-- Parsers for the parts that do what they should on ranges that are small enough. A statement may
call for an expression that weighs as much, so it has to be a little smaller. -/
structure Surveyed {ι : Type} {w : TokenKind → Nat} (s : Survey ι w) (t : Trees ι) (size : Nat)
    (parts : ι → Parsers) : Prop where
  light : ∀ {k : TokenKind}, 2 * w k < size → s.Light k
  expression : ∀ {r : Range}, 2 * extent w r.items < size →
    s.Ends t.expr fun i m => (parts i).expression (m.range r)
  statement : ∀ (clauseNext : Bool) {r : Range}, 2 * extent w r.items + 1 < size →
    s.Runs (t.Taken w (extent w r.items)) fun i m => (parts i).statement clauseNext (m.range r)

end PlayerScript.Ast
