/-
Evaluation of expressions, one level at a time: the parts of an expression are evaluated by given
evaluators, which have one unit of the budget less.
-/
import PlayerScript.Eval.Extract
import PlayerScript.Value.Member
import PlayerScript.Value.Method

namespace PlayerScript.Eval

/-- How a statement ends. -/
inductive Completion where
  | normal (value : Value)
  | broken
  | continued
  | returned (value : Value)

/-- The evaluators for the parts of an expression or a statement. -/
structure Evaluators where
  expr : Scope → Expr → Eval Value
  stmt : Scope → Stmt → Eval Completion

/-! ## Lists of parts -/

/-- Evaluates expressions from left to right. -/
def evalAll (parts : Evaluators) (scope : Scope) : List Expr → Eval (List Value)
  | [] => done []
  | e :: rest => do
    let v ← parts.expr scope e
    let vs ← evalAll parts scope rest
    return v :: vs

/-- Evaluates the members of an object from left to right; the last one under a key stays. -/
def evalMembers (parts : Evaluators) (scope : Scope) :
    List (String × Expr) → Table Value → Eval (Table Value)
  | [], members => done members
  | (key, e) :: rest, members => do
    let v ← parts.expr scope e
    evalMembers parts scope rest (members.insert key v)

/-- Evaluates expressions from left to right and gives the last value. -/
def evalSequence (parts : Evaluators) (scope : Scope) : List Expr → Value → Eval Value
  | [], last => done last
  | e :: rest, _ => do
    let v ← parts.expr scope e
    evalSequence parts scope rest v

/-- Runs statements until one does not end normally. -/
def block (parts : Evaluators) (scope : Scope) : List Stmt → Value → Eval Completion
  | [], last => done (.normal last)
  | s :: rest, _ => do
    match ← parts.stmt scope s with
    | .normal v => block parts scope rest v
    | other => done other

/-! ## Calls of functions -/

/-- The bindings of a call: each parameter with its argument, or undefined if there is none, and
then some more. -/
def bindings : List String → List Value → List (String × Value) → Table Value → Table Value
  | [], _, extra, t => t.insertAll extra
  | param :: params, [], extra, t => bindings params [] extra (t.insert param .undefined)
  | param :: params, v :: args, extra, t => bindings params args extra (t.insert param v)

/-- What a call gives for the way its body ends. -/
def callResult (name : String) : Completion → Eval Value
  | .returned v => done v
  | .normal _ => done .undefined
  | .broken | .continued => fail (.internal (.loopControlEscaped name))

/-- Calls a function: its body runs in a new layer on top of the layers it closed over. -/
def invoke (parts : Evaluators) (f : FunctionRef) (args : List Value)
    (extra : List (String × Value)) : Eval Value := do
  let closure ← read fun store => store.closure f
  let scope ← add fun store =>
    closure.captured.child store (bindings closure.definition.params args extra Table.empty)
  let completion ← block parts scope closure.definition.body .undefined
  callResult closure.definition.name completion

/-- Calls a function on each element, with its position and the array. -/
def forEach (parts : Evaluators) (target : Value) (f : FunctionRef)
    (extra : List (String × Value)) : List Value → Nat → Eval (List Value)
  | [], _ => done []
  | item :: rest, i => do
    let v ← invoke parts f [item, .ofNat i, target] extra
    let vs ← forEach parts target f extra rest (i + 1)
    return v :: vs

/-- Calls a method of a value by its name. -/
def callMethod (parts : Evaluators) (target : Value) (name : String) (args : List Value) :
    Eval Value := do
  match Method.ofName? name with
  | none => fail (Method.unknown target name)
  | some .forEach => do
    let run ← read fun store => Method.iteration store target args
    let run ← ofExcept run
    let extra := run.receiver.toList.map fun this => ("this", this)
    let results ← forEach parts target run.callback extra run.items 0
    add fun store => store.addArray results.toArray
  | some method => attempt fun store => method.run store target args

/-! ## Members -/

/-- The namespace that an expression names, unless a variable has that name. -/
def namespace? (store : Store) (scope : Scope) : Expr → Option Namespace
  | .ident name => if scope.contains store name then none else Namespace.ofName? name
  | _ => none

/-- The method that an expression borrows from a namespace, and whether its arguments come as one
array. -/
def borrowed? (store : Store) (scope : Scope) (object : Expr) (property : Property) :
    Option (String × Bool) :=
  match object, property with
  | .member (.member space (.name "prototype") _) (.name method) _, .name how =>
    if (namespace? store scope space).isNone then none
    else if how = "call" then some (method, false)
    else if how = "apply" then some (method, true)
    else none
  | _, _ => none

/-- The key of a member. -/
def propertyKey (parts : Evaluators) (scope : Scope) : Property → Eval Value
  | .name name => done (.string name)
  | .computed e => parts.expr scope e

/-- The object under a name, where an optional one may be missing. -/
def namedObject (p : Program) (name : String) (optional : Bool) : Eval Value := fun m =>
  match p.resolveObject name m with
  | (.ok v, m') => .done v m'
  | (.error e, m') => if optional then .done .undefined m' else .failed e m'

/-- The value whose member is meant. A name that is not bound is an object of the source. -/
def memberTarget (p : Program) (parts : Evaluators) (scope : Scope) (object : Expr)
    (optional : Bool) : Eval Value :=
  match object with
  | .ident name => fun m =>
    if scope.contains m.store name then parts.expr scope object m
    else namedObject p name optional m
  | _ => parts.expr scope object

/-- Reads a member. -/
def evalMember (p : Program) (parts : Evaluators) (scope : Scope) (object : Expr)
    (property : Property) (optional : Bool) : Eval Value := do
  let space ← read fun store => namespace? store scope object
  match space with
  | some n => fail (.unsupported (n.name ++ " member access"))
  | none => do
    let target ← memberTarget p parts scope object optional
    if optional && target.isNullish then done .undefined
    else do
      let key ← propertyKey parts scope property
      let v ← read fun store => target.member store key
      ofExcept v

/-! ## Calls -/

/-- The function that is a member of an array or an object under a key. -/
def memberFunction? (store : Store) (target key : Value) : Except Error (Option FunctionRef) :=
  match target with
  | .array _ | .object _ =>
    match target.member store key with
    | .ok (.function f) => .ok (some f)
    | .ok _ => .ok none
    | .error e => .error e
  | _ => .ok none

/-- Calls a member: a function stored there, or else a method. -/
def callMember (p : Program) (parts : Evaluators) (scope : Scope) (object : Expr)
    (property : Property) (optional : Bool) (args : List Expr) : Eval Value := do
  let target ← memberTarget p parts scope object optional
  if optional && target.isNullish then done .undefined
  else do
    let key ← propertyKey parts scope property
    let values ← evalAll parts scope args
    let stored ← read fun store => memberFunction? store target key
    match ← ofExcept stored with
    | some f => invoke parts f values []
    | none => do
      let name ← read fun store => key.text store
      callMethod parts target name values

/-- Calls a method borrowed from a namespace: the first argument is the receiver. -/
def callBorrowed (parts : Evaluators) (scope : Scope) (method : String) (spread : Bool)
    (args : List Expr) : Eval Value := do
  let values ← evalAll parts scope args
  let receiver := values.head?.getD .undefined
  let rest ← read fun store =>
    if spread then
      match values.drop 1 with
      | .array a :: _ => (store.elements a).toList
      | _ => []
    else values.drop 1
  callMethod parts receiver method rest

/-- Calls a static method of a namespace. -/
def callSpace (parts : Evaluators) (scope : Scope) (space : Namespace) (property : Property)
    (args : List Expr) : Eval Value := do
  let key ← propertyKey parts scope property
  let method ← read fun store => key.text store
  let values ← evalAll parts scope args
  let v ← read fun store => callStatic store space.name method values
  ofExcept v

/-- Calls the value of an expression. -/
def callValue (parts : Evaluators) (scope : Scope) (callee : Expr) (args : List Expr) :
    Eval Value := do
  match ← parts.expr scope callee with
  | .function f => do
    let values ← evalAll parts scope args
    invoke parts f values []
  | v => do
    let text ← read fun store => v.text store
    fail (.type (.notCallable text))

/-- Calls a function of the source by its name. -/
def callNamed (p : Program) (parts : Evaluators) (scope : Scope) (name : String)
    (args : List Expr) : Eval Value := do
  let f ← ofStep (p.extractFunction name)
  let values ← evalAll parts scope args
  invoke parts f values []

/-- Evaluates a call. -/
def evalCall (p : Program) (parts : Evaluators) (scope : Scope) (callee : Expr)
    (args : List Expr) : Eval Value := fun m =>
  match callee with
  | .member object property optional =>
    match borrowed? m.store scope object property with
    | some (method, spread) => callBorrowed parts scope method spread args m
    | none =>
      match namespace? m.store scope object with
      | some space => callSpace parts scope space property args m
      | none => callMember p parts scope object property optional args m
  | .ident name =>
    if scope.contains m.store name then callValue parts scope callee args m
    else callNamed p parts scope name args m
  | _ => callValue parts scope callee args m

/-! ## Assignments -/

/-- How far behind its end an array may be written. -/
def maxGrowth : Nat := 0x10000

/-- Writes a place of an array; places between its end and a later place become undefined. -/
def writePlace (items : Array Value) (i : Nat) (v : Value) : Array Value :=
  if i < items.size then items.setIfInBounds i v
  else (items ++ Array.replicate (i - items.size) Value.undefined).push v

/-- Assigns to an element of an array. -/
def assignElement (name : String) (a : ArrayRef) (key : Value) (op : AssignOp) (value : Value)
    (store : Store) : Except Error (Value × Store) :=
  let items := store.elements a
  match key.index? with
  | none => .error (.type (.invalidIndex (key.text store) name))
  | some i =>
    if items.size + maxGrowth < i then .error (.type (.indexOutOfRange i name))
    else
      let updated := op.apply store (items[i]?.getD .undefined) value
      .ok (updated, store.modifyArray a fun items => writePlace items i updated)

/-- Assigns to a member of an object. -/
def assignMember (o : ObjectRef) (key : Value) (op : AssignOp) (value : Value) (store : Store) :
    Except Error (Value × Store) :=
  let name := key.text store
  let updated := op.apply store (((store.members o).get? name).getD .undefined) value
  .ok (updated, store.setMember o name updated)

/-- Assigns to a place of a value. -/
def assignPlace (name : String) (target key : Value) (op : AssignOp) (value : Value)
    (store : Store) : Except Error (Value × Store) :=
  match target with
  | .array a => assignElement name a key op value store
  | .object o => assignMember o key op value store
  | other => .error (.type (.notIndexable name other.kind))

/-- Assigns to a variable. -/
def assignName (parts : Evaluators) (scope : Scope) (name : String) (op : AssignOp)
    (value : Expr) : Eval Value := do
  let v ← parts.expr scope value
  let updated ← read fun store => op.apply store (scope.get store name) v
  change fun store => scope.set store name updated
  return updated

/-- Assigns to a place of the value of a variable. -/
def assignIndex (parts : Evaluators) (scope : Scope) (name : String) (index : Expr)
    (op : AssignOp) (value : Expr) : Eval Value := do
  let target ← read fun store => scope.get? store name
  match target with
  | none => fail (.type (.unboundTarget name))
  | some target => do
    let key ← parts.expr scope index
    let v ← parts.expr scope value
    attempt (assignPlace name target key op v)

/-- Steps a variable by one. -/
def update (scope : Scope) (op : UpdateOp) (before : Bool) (name : String) : Eval Value := do
  let current ← read fun store => scope.get? store name
  match current with
  | none => fail (.type (.unbound name))
  | some v => do
    let x ← read fun store => v.toNumber store
    let stepped := op.apply x
    change fun store => scope.set store name (.number stepped)
    return .number (if before then stepped else x)

/-! ## Expressions -/

/-- The value of a literal. -/
def literal : Literal → Value
  | .undefined => .undefined
  | .null => .null
  | .bool b => .bool b
  | .number x => .number x
  | .string s => .string s

/-- Makes a function that closes over the scope, and binds its name in the innermost layer. -/
def makeFunction (scope : Scope) (name : String) (params : List String) (body : List Stmt) :
    Eval Value := do
  let f ← add fun store => store.addClosure ⟨⟨name, params, body⟩, scope⟩
  change fun store => scope.setLocal store name (.function f)
  return .function f

/-- Evaluates a binary operator. The right operand is left out if the left one settles it. -/
def evalBinary (parts : Evaluators) (scope : Scope) (op : BinaryOp) (left right : Expr) :
    Eval Value := do
  let a ← parts.expr scope left
  if op.settledBy a then done a
  else do
    let b ← parts.expr scope right
    read fun store => op.apply store a b

/-- Evaluates an expression, given the evaluators for its parts. -/
def exprStep (p : Program) (parts : Evaluators) (scope : Scope) : Expr → Eval Value
  | .literal l => done (literal l)
  | .ident name => read fun store => scope.get store name
  | .array items => do
    let values ← evalAll parts scope items
    add fun store => store.addArray values.toArray
  | .object members => do
    let table ← evalMembers parts scope members Table.empty
    add fun store => store.addObject table
  | .function name params body => makeFunction scope name params body
  | .unary op e => do
    let v ← parts.expr scope e
    read fun store => op.apply store v
  | .update op before name => update scope op before name
  | .binary op left right => evalBinary parts scope op left right
  | .conditional test consequent alternate => do
    let v ← parts.expr scope test
    if v.isTruthy then parts.expr scope consequent else parts.expr scope alternate
  | .assign name none op value => assignName parts scope name op value
  | .assign name (some index) op value => assignIndex parts scope name index op value
  | .sequence items => evalSequence parts scope items .undefined
  | .member object property optional => evalMember p parts scope object property optional
  | .call callee args => evalCall p parts scope callee args

end PlayerScript.Eval
