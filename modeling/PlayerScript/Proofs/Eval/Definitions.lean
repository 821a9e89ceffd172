/-
What the source defines. The functions of a source, and the members of its objects, are determined by
the text and by the number of names minted before; taking them out of the source adds them to the
store and changes nothing else.
-/
import PlayerScript.Eval.Extract
import PlayerScript.Proofs.Ast.Minting
import PlayerScript.Proofs.Store.Confined

namespace PlayerScript

open Ast

variable {α : Type} {s : Store} {t : Table Value} {defs : Table FunctionDef}

namespace Program

variable (p : Program)

/-- The function with a name and a code. -/
def definition (name : String) (code : Source.FunctionCode) (minted : Nat) :
    Except Error FunctionDef × Nat :=
  match parseStatements code.body p.options.maxNesting minted with
  | (.error e, minted) => (.error e, minted)
  | (.ok body, minted) => (.ok ⟨name, code.params, body⟩, minted)

/-- The function that the source declares under a name. -/
def functionDefinition (name : String) (minted : Nat) : Except Error FunctionDef × Nat :=
  match Source.functionCode p.source name with
  | .error e => (.error e, minted)
  | .ok code => p.definition name code minted

/-- The functions in the fields of an object. There is no object when a field is no function. -/
def fieldDefinitions : List (List Char) → Table FunctionDef → Nat →
    Except Error (Option (Table FunctionDef)) × Nat
  | [], members, minted => (.ok (some members), minted)
  | code :: rest, members, minted =>
    match Source.field code with
    | .error e => (.error e, minted)
    | .ok .blank => fieldDefinitions rest members minted
    | .ok .other => (.ok none, minted)
    | .ok (.function key code) =>
      match p.definition key code minted with
      | (.error e, minted) => (.error e, minted)
      | (.ok f, minted) => fieldDefinitions rest (members.insert key f) minted

/-- The functions in the first of the given codes that is one of functions only. -/
def objectDefinitions (name : String) : List (List Char) → Nat →
    Except Error (Table FunctionDef) × Nat
  | [], minted => (.error (.malformed (.noObject name) name), minted)
  | code :: rest, minted =>
    match Source.separateAtBracket code none with
    | .error _ => objectDefinitions name rest minted
    | .ok (body, _) =>
      match p.fieldDefinitions (Source.fieldCodes body) Table.empty minted with
      | (.error e, minted) => (.error e, minted)
      | (.ok (some members), minted) => (.ok members, minted)
      | (.ok none, minted) => objectDefinitions name rest minted

/-- Takes a function out of the source that is not in the memo. -/
def takeFunction (name : String) (m : Machine) : Except Error FunctionRef × Machine :=
  match Source.functionCode p.source name with
  | .error e => (.error e, m)
  | .ok code => p.compile name code globalScope m

theorem extractFunction_eq (name : String) :
    p.extractFunction name = Machine.functionMemo.fetch name (p.takeFunction name) := rfl

theorem parse_of_parsed {m : Machine} {code : List Char} {r : Except Error (List Stmt)} {minted : Nat}
    (h : parseStatements code p.options.maxNesting m.minted = (r, minted)) :
    p.parse code m = (r, { m with minted := minted }) := by
  simp only [parse, h]

end Program

/-! ## Definitions after different numbers of minted names -/

/-- Functions that differ only in minted names. -/
structure DefinitionAlike (k₁ k₂ : Nat) (x y : FunctionDef) : Prop where
  name : x.name = y.name
  params : x.params = y.params
  body : BodyAlike k₁ k₂ x.body y.body

/-- Tables with the same names and with functions that differ only in minted names. -/
def TableAlike (k₁ k₂ : Nat) (t u : Table FunctionDef) : Prop :=
  List.Forall₂ (fun x y => x.1 = y.1 ∧ DefinitionAlike k₁ k₂ x.2 y.2) t.entries u.entries

theorem Table.insertNew_of_none {t : Table α} {name : String} (h : t.get? name = none)
    (v : α) : t.insertNew name v = t.insert name v := by
  rw [insertNew, contains, h]
  rfl

theorem Table.forall₂_insert {β : Type} {R : α → β → Prop} {a : α} {b : β} (h : R a b)
    (name : String) : ∀ {xs : List (String × α)} {ys : List (String × β)},
    List.Forall₂ (fun x y => x.1 = y.1 ∧ R x.2 y.2) xs ys →
    List.Forall₂ (fun x y => x.1 = y.1 ∧ R x.2 y.2) (insertEntry name a xs) (insertEntry name b ys)
  | _, _, .nil => .cons ⟨rfl, h⟩ .nil
  | (n, x) :: xs, (n', y) :: ys, .cons hxy hrest => by
    obtain ⟨rfl, hr⟩ := hxy
    rw [insertEntry, insertEntry]
    split
    · exact .cons ⟨rfl, h⟩ hrest
    · exact .cons ⟨rfl, hr⟩ (forall₂_insert h name hrest)

theorem Ast.Minted.le {k₁ k₂ : Nat} {ε β : Type} {R : α → β → Prop} {x : Except ε α × Nat}
    {y : Except ε β × Nat} (h : Minted k₁ k₂ R x y) : k₁ ≤ x.2 := by
  cases h with
  | ok j _ => exact Nat.le_add_right k₁ j
  | error j _ => exact Nat.le_add_right k₁ j

theorem Ast.le_parseStatements (source : List Char) (maxDepth minted : Nat) :
    minted ≤ (parseStatements source maxDepth minted).2 :=
  (parseStatements_alike source maxDepth minted minted 0).le

section

variable (p : Program) (k₁ k₂ : Nat)

theorem definition_alike (name : String) (code : Source.FunctionCode) (j : Nat) :
    Minted k₁ k₂ (DefinitionAlike k₁ k₂) (p.definition name code (k₁ + j))
      (p.definition name code (k₂ + j)) := by
  have h := parseStatements_alike code.body p.options.maxNesting k₁ k₂ j
  unfold Program.definition
  generalize parseStatements code.body p.options.maxNesting (k₁ + j) = x at h
  generalize parseStatements code.body p.options.maxNesting (k₂ + j) = y at h
  cases h with
  | ok j h => exact .ok j ⟨rfl, rfl, h⟩
  | error j e => exact .error j e

theorem functionDefinition_alike (name : String) (j : Nat) :
    Minted k₁ k₂ (DefinitionAlike k₁ k₂) (p.functionDefinition name (k₁ + j))
      (p.functionDefinition name (k₂ + j)) := by
  unfold Program.functionDefinition
  cases Source.functionCode p.source name with
  | error e => exact .error j e
  | ok code => exact definition_alike p k₁ k₂ name code j

theorem fieldDefinitions_alike : ∀ (fields : List (List Char)) {t u : Table FunctionDef} (j : Nat),
    TableAlike k₁ k₂ t u →
    Minted k₁ k₂ (Option.Rel (TableAlike k₁ k₂)) (p.fieldDefinitions fields t (k₁ + j))
      (p.fieldDefinitions fields u (k₂ + j))
  | [], _, _, j, h => .ok j (.some h)
  | field :: rest, t, u, j, h => by
    rw [Program.fieldDefinitions, Program.fieldDefinitions]
    cases Source.field field with
    | error e => exact .error j e
    | ok found =>
      cases found with
      | blank => exact fieldDefinitions_alike rest j h
      | other => exact .ok j .none
      | function key code =>
        have hdef := definition_alike p k₁ k₂ key code j
        dsimp only
        generalize p.definition key code (k₁ + j) = x at hdef
        generalize p.definition key code (k₂ + j) = y at hdef
        cases hdef with
        | error j e => exact .error j e
        | ok j hf => exact fieldDefinitions_alike rest j (Table.forall₂_insert hf key h)

theorem objectDefinitions_alike (name : String) : ∀ (texts : List (List Char)) (j : Nat),
    Minted k₁ k₂ (TableAlike k₁ k₂) (p.objectDefinitions name texts (k₁ + j))
      (p.objectDefinitions name texts (k₂ + j))
  | [], j => .error j _
  | text :: rest, j => by
    rw [Program.objectDefinitions, Program.objectDefinitions]
    cases Source.separateAtBracket text none with
    | error e => exact objectDefinitions_alike name rest j
    | ok found =>
      have h := fieldDefinitions_alike p k₁ k₂ (Source.fieldCodes found.1) (t := Table.empty)
        (u := Table.empty) j .nil
      dsimp only
      generalize p.fieldDefinitions (Source.fieldCodes found.1) Table.empty (k₁ + j) = x at h
      generalize p.fieldDefinitions (Source.fieldCodes found.1) Table.empty (k₂ + j) = y at h
      cases h with
      | error j e => exact .error j e
      | ok j h =>
        cases h with
        | none => exact objectDefinitions_alike name rest j
        | some h => exact .ok j h

end

theorem Program.le_objectDefinitions (p : Program) (name : String) (texts : List (List Char)) (minted : Nat) :
    minted ≤ (p.objectDefinitions name texts minted).2 :=
  (objectDefinitions_alike p minted minted name texts 0).le

/-- Whether the source lacks an object does not depend on the names minted before. -/
theorem Program.objectDefinitions_error {p : Program} {name : String} {texts : List (List Char)} {k k' : Nat}
    {e : Error} (h : p.objectDefinitions name texts k = (.error e, k')) (j : Nat) :
    (p.objectDefinitions name texts j).1 = .error e := by
  have halike := objectDefinitions_alike p k j name texts 0
  rw [Nat.add_zero, Nat.add_zero, h] at halike
  generalize p.objectDefinitions name texts j = y at halike
  generalize hx : ((.error e, k') : Except Error (Table FunctionDef) × Nat) = x at halike
  cases halike with
  | ok => cases hx
  | error => cases hx; rfl

/-! ## Taking definitions out of the source -/

/-- Every cell of the first arena is one of the second, with the same contents. -/
def Arena.Extends {α : Type} (a b : Arena α) : Prop := ∀ i x, a.get? i = some x → b.get? i = some x

theorem Arena.extends_push (a : Arena α) (x : α) : a.Extends (a.push x) := by
  intro i y h
  rw [get?_push, if_neg (Nat.ne_of_lt (lt_size_of_get? h)), h]

/-- Functions were added and names were minted, and nothing else changed. -/
structure Machine.Grown (m m' : Machine) : Prop where
  layers : m'.store.layers = m.store.layers
  arrays : m'.store.arrays = m.store.arrays
  objects : m'.store.objects = m.store.objects
  closures : m.store.closures.Extends m'.store.closures
  functions : m'.functions = m.functions
  known : m'.objects = m.objects

namespace Machine.Grown

variable {m m' m'' : Machine}

theorem mint (m : Machine) (minted : Nat) : m.Grown { m with minted := minted } :=
  ⟨rfl, rfl, rfl, fun _ _ h => h, rfl, rfl⟩

theorem addClosure (m : Machine) (c : Closure) : m.Grown { m with store := (m.store.addClosure c).2 } :=
  ⟨rfl, rfl, rfl, m.store.closures.extends_push c, rfl, rfl⟩

theorem trans (h : m.Grown m') (h' : m'.Grown m'') : m.Grown m'' :=
  ⟨h'.layers.trans h.layers, h'.arrays.trans h.arrays, h'.objects.trans h.objects,
    fun i x hx => h'.closures i x (h.closures i x hx), h'.functions.trans h.functions,
    h'.known.trans h.known⟩

end Machine.Grown

/-- A function of the store as the source defines it: it closed over the layer of globals only. -/
def FunctionMade (s : Store) (f : FunctionRef) (d : FunctionDef) : Prop :=
  s.closures.get? f.index = some ⟨d, Program.globalScope⟩

/-- A table of functions of the store as the source defines them. -/
def TableMade (s : Store) (t : Table Value) (defs : Table FunctionDef) : Prop :=
  List.Forall₂ (fun x y => x.1 = y.1 ∧ ∃ f, x.2 = .function f ∧ FunctionMade s f y.2)
    t.entries defs.entries

theorem TableMade.extends {s' : Store} (hs : s.closures.Extends s'.closures)
    (h : TableMade s t defs) : TableMade s' t defs := by
  refine h.imp fun x y hxy => ?_
  obtain ⟨hkey, f, hf, hmade⟩ := hxy
  exact ⟨hkey, f, hf, hs _ _ hmade⟩

/-- What holds of the functions of a table holds of all its values. -/
theorem TableMade.forall_entries {P : Value → Prop}
    (h : TableMade s t defs) (hP : ∀ f d, FunctionMade s f d → P (.function f)) : ∀ e ∈ t.entries, P e.2 := by
  have hfunctions : List.Forall₂ (fun x _ => P x.2 ∧ True) t.entries defs.entries := by
    refine h.imp fun x y hxy => ?_
    obtain ⟨-, f, hf, hmade⟩ := hxy
    rw [hf]
    exact ⟨hP f _ hmade, trivial⟩
  exact ((List.forall₂_and_left _ _).1 hfunctions).1

theorem TableMade.insert (h : TableMade s t defs) {f : FunctionRef} {d : FunctionDef}
    (hf : FunctionMade s f d) (key : String) : TableMade s (t.insert key (.function f)) (defs.insert key d) :=
  Table.forall₂_insert (R := fun v d => ∃ f, v = Value.function f ∧ FunctionMade s f d)
    ⟨f, rfl, hf⟩ key h

/-- A step on a state that gives what the source defines, or the same error, and does no more than to
add functions and to mint names. -/
inductive Makes {α δ : Type} (R : Store → α → δ → Prop) (m : Machine) :
    Except Error α × Machine → Except Error δ × Nat → Prop
  | ok {m' : Machine} {a : α} {d : δ} (grown : m.Grown m') (h : R m'.store a d) :
      Makes R m (.ok a, m') (.ok d, m'.minted)
  | error {m' : Machine} (e : Error) (grown : m.Grown m') :
      Makes R m (.error e, m') (.error e, m'.minted)

theorem Makes.after {δ : Type} {R : Store → α → δ → Prop} {m n : Machine}
    {x : Except Error α × Machine} {y : Except Error δ × Nat} (hn : m.Grown n) (h : Makes R n x y) :
    Makes R m x y := by
  cases h with
  | ok grown h => exact .ok (hn.trans grown) h
  | error e grown => exact .error e (hn.trans grown)

section

variable (p : Program)

theorem makes_compile (name : String) (code : Source.FunctionCode) (captured : Scope) (m : Machine) :
    Makes (fun s f d => s.closures.get? f.index = some ⟨d, captured⟩) m
      (p.compile name code captured m) (p.definition name code m.minted) := by
  unfold Program.compile Program.parse Program.definition
  generalize parseStatements code.body p.options.maxNesting m.minted = parsed
  obtain ⟨result, minted⟩ := parsed
  have hmint := Machine.Grown.mint m minted
  cases result with
  | error e => exact .error e hmint
  | ok body =>
    refine .ok (hmint.trans (.addClosure _ _)) ?_
    show (m.store.closures.push _).get? m.store.closures.size = some _
    rw [Arena.get?_push, if_pos rfl]

theorem makes_compileFields : ∀ (fields : List (List Char)) {t : Table Value}
    {defs : Table FunctionDef} (m : Machine), TableMade m.store t defs →
    Makes (fun s => Option.Rel (TableMade s)) m (p.compileFields fields t m)
      (p.fieldDefinitions fields defs m.minted)
  | [], _, _, m, h => .ok (.mint m m.minted) (.some h)
  | field :: rest, t, defs, m, h => by
    rw [Program.compileFields, Program.fieldDefinitions]
    cases Source.field field with
    | error e => exact .error e (.mint m m.minted)
    | ok found =>
      cases found with
      | blank => exact makes_compileFields rest m h
      | other => exact .ok (.mint m m.minted) .none
      | function key code =>
        have hmakes := makes_compile p key code Program.globalScope m
        dsimp only
        generalize p.compile key code Program.globalScope m = x at hmakes
        generalize p.definition key code m.minted = y at hmakes
        cases hmakes with
        | error e grown => exact .error e grown
        | @ok n f d grown hf =>
          exact .after grown (makes_compileFields rest n ((h.extends grown.closures).insert hf key))

theorem makes_compileObject (name : String) : ∀ (texts : List (List Char)) (m : Machine),
    Makes TableMade m (p.compileObject name texts m) (p.objectDefinitions name texts m.minted)
  | [], m => .error _ (.mint m m.minted)
  | text :: rest, m => by
    rw [Program.compileObject, Program.objectDefinitions]
    cases Source.separateAtBracket text none with
    | error e => exact makes_compileObject name rest m
    | ok found =>
      have hempty : TableMade m.store Table.empty Table.empty := .nil
      have h := makes_compileFields p (Source.fieldCodes found.1) m hempty
      dsimp only
      generalize p.compileFields (Source.fieldCodes found.1) Table.empty m = x at h
      generalize p.fieldDefinitions (Source.fieldCodes found.1) Table.empty m.minted = y at h
      cases h with
      | error e grown => exact .error e grown
      | ok grown h =>
        -- The functions of a code that is passed over stay in the store, where nothing refers to them.
        cases h with
        | none => exact .after grown (makes_compileObject name rest _)
        | some h => exact .ok grown h

/-- What asking for an object does: it is known, or it is taken out of the source and from then on known, or
the source has none. -/
inductive Resolves (name : String) (m : Machine) : Except Error Value × Machine → Prop
  | known {v : Value} (known : m.objects.get? name = some v) : Resolves name m (.ok v, m)
  | taken {m' : Machine} {t : Table Value} {defs : Table FunctionDef} (unknown : m.objects.get? name = none)
      (grown : m.Grown m')
      (defined : p.objectDefinitions name (Source.objectCodes p.source name) m.minted = (.ok defs, m'.minted))
      (made : TableMade m'.store t defs) :
      Resolves name m (.ok (m'.store.addObject t).1,
        ⟨(m'.store.addObject t).2, m'.functions, m'.objects.insert name (m'.store.addObject t).1, m'.minted⟩)
  | missing {m' : Machine} {e : Error} (unknown : m.objects.get? name = none) (grown : m.Grown m')
      (undefined : p.objectDefinitions name (Source.objectCodes p.source name) m.minted =
        (.error e, m'.minted)) :
      Resolves name m (.error e, m')

theorem resolves_resolveObject (name : String) (m : Machine) : Resolves p name m (p.resolveObject name m) := by
  unfold Program.resolveObject MemoView.fetch Machine.objectMemo
  dsimp only
  cases hget : m.objects.get? name with
  | some v => exact .known hget
  | none =>
    have hmakes := makes_compileObject p name (Source.objectCodes p.source name) m
    dsimp only
    generalize p.compileObject name (Source.objectCodes p.source name) m = x at hmakes
    generalize hdefs : p.objectDefinitions name (Source.objectCodes p.source name) m.minted = y at hmakes
    cases hmakes with
    | error e grown => exact .missing hget grown hdefs
    | @ok m' t defs grown made =>
      have hnew : m'.objects.get? name = none := by rw [grown.known, hget]
      dsimp only
      rw [Table.insertNew_of_none hnew]
      exact .taken hget grown hdefs made

theorem makes_takeFunction (name : String) (m : Machine) :
    Makes FunctionMade m (p.takeFunction name m) (p.functionDefinition name m.minted) := by
  unfold Program.takeFunction Program.functionDefinition
  cases Source.functionCode p.source name with
  | error e => exact .error e (.mint m m.minted)
  | ok code => exact makes_compile p name code Program.globalScope m

/-- What asking for a function does: it is known, or it is taken out of the source and from then on known,
or the source has none. -/
inductive Extracts (name : String) (m : Machine) : Except Error FunctionRef × Machine → Prop
  | known {f : FunctionRef} (known : m.functions.get? name = some f) : Extracts name m (.ok f, m)
  | taken {m' : Machine} {f : FunctionRef} {d : FunctionDef} (unknown : m.functions.get? name = none)
      (grown : m.Grown m') (defined : p.functionDefinition name m.minted = (.ok d, m'.minted))
      (made : FunctionMade m'.store f d) :
      Extracts name m (.ok f, ⟨m'.store, m'.functions.insert name f, m'.objects, m'.minted⟩)
  | missing {m' : Machine} {e : Error} (unknown : m.functions.get? name = none) (grown : m.Grown m')
      (undefined : p.functionDefinition name m.minted = (.error e, m'.minted)) : Extracts name m (.error e, m')

theorem extracts_extractFunction (name : String) (m : Machine) :
    Extracts p name m (p.extractFunction name m) := by
  rw [Program.extractFunction_eq]
  unfold MemoView.fetch Machine.functionMemo
  dsimp only
  cases hget : m.functions.get? name with
  | some f => exact .known hget
  | none =>
    have hmakes := makes_takeFunction p name m
    dsimp only
    generalize p.takeFunction name m = x at hmakes
    generalize hdefs : p.functionDefinition name m.minted = y at hmakes
    cases hmakes with
    | error e grown => exact .missing hget grown hdefs
    | @ok m' f d grown made =>
      have hnew : m'.functions.get? name = none := by rw [grown.functions, hget]
      dsimp only
      rw [Table.insertNew_of_none hnew]
      exact .taken hget grown hdefs made

end

end PlayerScript
