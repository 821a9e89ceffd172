/-
Extraction does not depend on what was done before. After any two histories a function is taken out
of the source with the same outcome, up to minted names; and so is an object, as long as neither
history hands the object back, which could then be changed like any other one. A failed extraction
changes no memo and no layer, and a function once extracted is the same for good.
-/
import PlayerScript.Proofs.Eval.History

namespace PlayerScript

open Ast Eval

/-! ## Outcomes of extractions -/

/-- Two extractions of a function agree: the same error, or functions with the same parameters that
closed over the layer of globals and differ only in minted names. -/
inductive FunctionsAgree :
    Except Error FunctionRef × Machine → Except Error FunctionRef × Machine → Prop
  | ok {f₁ f₂ : FunctionRef} {m₁ m₂ : Machine} {d₁ d₂ : FunctionDef} {k₁ k₂ : Nat}
      (first : FunctionMade m₁.store f₁ d₁) (second : FunctionMade m₂.store f₂ d₂)
      (alike : DefinitionAlike k₁ k₂ d₁ d₂) : FunctionsAgree (.ok f₁, m₁) (.ok f₂, m₂)
  | error (e : Error) (m₁ m₂ : Machine) : FunctionsAgree (.error e, m₁) (.error e, m₂)

/-- Two extractions of an object agree: the same error, or objects with the same members, functions
that closed over the layer of globals and differ only in minted names. -/
inductive ObjectsAgree : Outcome Value → Outcome Value → Prop
  | done {o₁ o₂ : ObjectRef} {m₁ m₂ : Machine} {t₁ t₂ : Table FunctionDef} {k₁ k₂ : Nat}
      (first : TableMade m₁.store (m₁.store.members o₁) t₁)
      (second : TableMade m₂.store (m₂.store.members o₂) t₂) (alike : TableAlike k₁ k₂ t₁ t₂) :
      ObjectsAgree (.done (.object o₁) m₁) (.done (.object o₂) m₂)
  | failed (e : Error) (m₁ m₂ : Machine) : ObjectsAgree (.failed e m₁) (.failed e m₂)

/-- Both memos and all layers are as they were. -/
structure Machine.SameMemos (m m' : Machine) : Prop where
  functions : m'.functions = m.functions
  objects : m'.objects = m.objects
  layers : m'.store.layers = m.store.layers

theorem Machine.Grown.sameMemos {m m' : Machine} (h : m.Grown m') : m.SameMemos m' :=
  ⟨h.functions, h.known, h.layers⟩

/-! ## One extraction -/

/-- A result was defined, with some count of minted names, and made as it is defined. -/
inductive Yields {α δ : Type} (define : Nat → Except Error δ × Nat) (made : α → δ → Prop) :
    Except Error α → Prop
  | ok {a : α} {d : δ} {k k' : Nat} (defined : define k = (.ok d, k')) (holds : made a d) :
      Yields define made (.ok a)
  | error {e : Error} {k k' : Nat} (defined : define k = (.error e, k')) :
      Yields define made (.error e)

/-- If a definition is the same with every count of minted names, up to these names, then so is
what is made of it. -/
theorem Yields.agree {α δ : Type} {define : Nat → Except Error δ × Nat}
    {made₁ made₂ : α → δ → Prop} {R : Nat → Nat → δ → δ → Prop} {x₁ x₂ : Except Error α}
    (halike : ∀ k₁ k₂, Minted k₁ k₂ (R k₁ k₂) (define k₁) (define k₂))
    (h₁ : Yields define made₁ x₁) (h₂ : Yields define made₂ x₂) :
    (∃ a₁ a₂ d₁ d₂ k₁ k₂, x₁ = .ok a₁ ∧ x₂ = .ok a₂ ∧ made₁ a₁ d₁ ∧ made₂ a₂ d₂ ∧ R k₁ k₂ d₁ d₂) ∨
      ∃ e, x₁ = .error e ∧ x₂ = .error e := by
  cases h₁ with
  | @ok a₁ d₁ k₁ k₁' hd₁ hmade₁ =>
    cases h₂ with
    | @ok a₂ d₂ k₂ k₂' hd₂ hmade₂ =>
      have h := halike k₁ k₂
      rw [hd₁, hd₂] at h
      cases h with
      | ok j hR => exact .inl ⟨a₁, a₂, d₁, d₂, k₁, k₂, rfl, rfl, hmade₁, hmade₂, hR⟩
    | @error e k₂ k₂' hd₂ =>
      have h := halike k₁ k₂
      rw [hd₁, hd₂] at h
      cases h
  -- An error on one side only would be one of the definitions, which do not depend on the count.
  | @error e₁ k₁ k₁' hd₁ =>
    cases h₂ with
    | @ok a₂ d₂ k₂ k₂' hd₂ hmade₂ =>
      have h := halike k₁ k₂
      rw [hd₁, hd₂] at h
      cases h
    | @error e₂ k₂ k₂' hd₂ =>
      have h := halike k₁ k₂
      rw [hd₁, hd₂] at h
      cases h with
      | error j _ => exact .inr ⟨_, rfl, rfl⟩

section

variable {p : Program} {kept : Option String} {m m' : Machine} {name : String} {e : Error}
  {result : Except Error FunctionRef}

theorem extractFunction_error (h : p.extractFunction name m = (.error e, m')) :
    (∃ k', p.functionDefinition name m.minted = (.error e, k')) ∧ m.Grown m' := by
  have hextracts := extracts_extractFunction p name m
  rw [h] at hextracts
  cases hextracts with
  | missing _ grown undefined => exact ⟨⟨_, undefined⟩, grown⟩

theorem resolveObject_error (h : p.resolveObject name m = (.error e, m')) :
    (∃ k', p.objectDefinitions name (Source.objectCodes p.source name) m.minted = (.error e, k')) ∧
      m.Grown m' := by
  have hresolves := resolves_resolveObject p name m
  rw [h] at hresolves
  cases hresolves with
  | missing _ grown undefined => exact ⟨⟨_, undefined⟩, grown⟩

/-- A function that is extracted is one that the source defines. -/
theorem extractFunction_yields (h : Traced p kept m)
    (hx : p.extractFunction name m = (result, m')) :
    Yields (p.functionDefinition name) (FunctionMade m'.store) result := by
  cases result with
  | error e =>
    obtain ⟨k', hdefined⟩ := (extractFunction_error hx).1
    exact .error hdefined
  | ok f =>
    obtain ⟨⟨htraced, -⟩, hget⟩ := h.extractFunction name
    rw [hx] at htraced hget
    obtain ⟨k, d, k', hdefined, hmade⟩ := htraced.functions name f (hget f rfl)
    exact .ok hdefined hmade

/-- An object that is extracted and kept back is one that the source defines. -/
theorem resolveObject_yields {result : Except Error Value} (h : Traced p (some name) m)
    (hx : p.resolveObject name m = (result, m')) :
    Yields (p.objectDefinitions name (Source.objectCodes p.source name))
      (fun v t => ∃ o, v = .object o ∧ TableMade m'.store (m'.store.members o) t) result := by
  cases result with
  | error e =>
    obtain ⟨k', hdefined⟩ := (resolveObject_error hx).1
    exact .error hdefined
  | ok v =>
    obtain ⟨⟨htraced, -⟩, hget⟩ := h.resolveObject name
    rw [hx] at htraced hget
    obtain ⟨o, t, k, defs, k', ho, ht, hdefined, hmade⟩ :=
      htraced.object name rfl v (hget v rfl)
    have hmembers : m'.store.members o = t := Store.members_of_get? ht
    exact .ok hdefined ⟨o, ho, hmembers ▸ hmade⟩

/-- What is taken out of the source is an object, so anything else was known before. -/
theorem resolveObject_known {v : Value} (hv : p.resolveObject name m = (.ok v, m'))
    (hne : ∀ o, v ≠ .object o) : m' = m := by
  have hresolves := resolves_resolveObject p name m
  rw [hv] at hresolves
  cases hresolves with
  | known => rfl
  | taken => exact absurd rfl (hne _)

theorem extractObject_eq (p : Program) (name : String) (m : Machine) :
    p.extractObject name m = match p.resolveObject name m with
      | (.ok (.object o), m') => .done (.object o) m'
      | (.ok other, m') => .failed (.type (.notObject name other.kind)) m'
      | (.error e, m') => .failed e m' := by
  show Eval.andThen _ _ _ = _
  unfold Eval.andThen Eval.ofStep
  generalize p.resolveObject name m = x
  obtain ⟨result, m'⟩ := x
  cases result with
  | error e => rfl
  | ok v => cases v <;> rfl

theorem extractObject_failed (h : p.extractObject name m = .failed e m') : m.SameMemos m' := by
  rw [extractObject_eq] at h
  rcases hx : p.resolveObject name m with ⟨result, n⟩
  rw [hx] at h
  cases result with
  | error e' =>
    cases h
    exact (resolveObject_error hx).2.sameMemos
  | ok v =>
    cases v with
    | object o => cases h
    | _ =>
      cases h
      rw [resolveObject_known hx (by simp)]
      exact ⟨rfl, rfl, rfl⟩

/-! ## Extractions after different histories -/

variable {m₁ m₂ : Machine}

theorem functionsAgree (h₁ : Traced p kept m₁) (h₂ : Traced p kept m₂) (name : String) :
    FunctionsAgree (p.extractFunction name m₁) (p.extractFunction name m₂) := by
  have halike : ∀ k₁ k₂, Minted k₁ k₂ (DefinitionAlike k₁ k₂) (p.functionDefinition name k₁)
      (p.functionDefinition name k₂) := fun k₁ k₂ => functionDefinition_alike p k₁ k₂ name 0
  rcases hx₁ : p.extractFunction name m₁ with ⟨result₁, n₁⟩
  rcases hx₂ : p.extractFunction name m₂ with ⟨result₂, n₂⟩
  have hagree := Yields.agree halike (extractFunction_yields h₁ hx₁) (extractFunction_yields h₂ hx₂)
  obtain ⟨f₁, f₂, d₁, d₂, k₁, k₂, rfl, rfl, hmade₁, hmade₂, hdef⟩ | ⟨e, rfl, rfl⟩ := hagree
  · exact .ok hmade₁ hmade₂ hdef
  · exact .error e n₁ n₂

theorem objectsAgree (h₁ : Traced p (some name) m₁) (h₂ : Traced p (some name) m₂) :
    ObjectsAgree (p.extractObject name m₁) (p.extractObject name m₂) := by
  have halike : ∀ k₁ k₂, Minted k₁ k₂ (TableAlike k₁ k₂)
      (p.objectDefinitions name (Source.objectCodes p.source name) k₁)
      (p.objectDefinitions name (Source.objectCodes p.source name) k₂) := fun k₁ k₂ =>
    objectDefinitions_alike p k₁ k₂ name (Source.objectCodes p.source name) 0
  rw [extractObject_eq, extractObject_eq]
  rcases hx₁ : p.resolveObject name m₁ with ⟨result₁, n₁⟩
  rcases hx₂ : p.resolveObject name m₂ with ⟨result₂, n₂⟩
  have hagree := Yields.agree halike (resolveObject_yields h₁ hx₁) (resolveObject_yields h₂ hx₂)
  obtain ⟨_, _, t₁, t₂, k₁, k₂, rfl, rfl, ⟨o₁, rfl, hmade₁⟩, ⟨o₂, rfl, hmade₂⟩, htable⟩ |
    ⟨e, rfl, rfl⟩ := hagree
  · exact .done hmade₁ hmade₂ htable
  · exact .failed e n₁ n₂

/-- A function that is in the memo is extracted without a change. -/
theorem extractFunction_of_get? {f : FunctionRef} (h : m.functions.get? name = some f) :
    p.extractFunction name m = (.ok f, m) := by
  unfold Program.extractFunction MemoView.fetch Machine.functionMemo
  dsimp only
  rw [h]

end

/-- After any two histories of an interpreter, a function is taken out of the source with the same
outcome, up to minted names, and so is an object that the interpreter was not made with, if neither
history hands it back; the store at the beginning must not refer to an object yet to be made. A failed
extraction changes no memo and no layer, and after a successful one the same function is extracted for
good. -/
theorem extraction_after_histories (p : Program) (store : Store) (seeded : Table Value)
    {history₁ history₂ : List Operation} {m₁ m₂ : Machine}
    (hm₁ : Operation.runAll p history₁ (.initial store seeded) = some m₁)
    (hm₂ : Operation.runAll p history₂ (.initial store seeded) = some m₂) (name : String) :
    FunctionsAgree (p.extractFunction name m₁) (p.extractFunction name m₂) ∧
    (seeded.get? name = none → store.NoDangling →
      Operation.KeepBack p name history₁ (.initial store seeded) →
      Operation.KeepBack p name history₂ (.initial store seeded) →
      ObjectsAgree (p.extractObject name m₁) (p.extractObject name m₂)) ∧
    (∀ e m', p.extractFunction name m₁ = (.error e, m') → m₁.SameMemos m') ∧
    (∀ e m', p.extractObject name m₁ = .failed e m' → m₁.SameMemos m') ∧
    ∀ f m' later m'', p.extractFunction name m₁ = (.ok f, m') →
      Operation.runAll p later m' = some m'' → p.extractFunction name m'' = (.ok f, m'') := by
  -- For functions no object is kept back, so that nothing is asked of a history.
  have htraced : ∀ {history m}, Operation.runAll p history (.initial store seeded) = some m →
      Traced p none m := fun hm =>
    ((traced_initial p (by simp) (by simp)).runAll (by simp) hm).1
  refine ⟨functionsAgree (htraced hm₁) (htraced hm₂) name, ?_, ?_, ?_, ?_⟩
  · intro hseeded hstore hkeep₁ hkeep₂
    have hinitial : Traced p (some name) (.initial store seeded) :=
      traced_initial p (by rintro _ ⟨⟩; exact hseeded) fun _ _ => hstore
    refine objectsAgree (hinitial.runAll ?_ hm₁).1 (hinitial.runAll ?_ hm₂).1
    · rintro _ ⟨⟩
      exact hkeep₁
    · rintro _ ⟨⟩
      exact hkeep₂
  · exact fun e m' h => (extractFunction_error h).2.sameMemos
  · exact fun e m' h => extractObject_failed h
  · intro f m' later m'' hf hlater
    obtain ⟨⟨htraced', -⟩, hget⟩ := (htraced hm₁).extractFunction name
    rw [hf] at htraced' hget
    obtain ⟨-, hlasts⟩ := htraced'.runAll (by simp) hlater
    exact extractFunction_of_get? (hlasts.functions name f (hget f rfl))

/-- The names of the members of an object that is a result. -/
def Outcome.memberNames : Outcome Value → List String
  | .done (.object o) m => (m.store.members o).entries.map Prod.fst
  | _ => []

theorem names_eq_of_forall₂ {α β : Type} {R : String × α → String × β → Prop}
    (hR : ∀ x y, R x y → x.1 = y.1) {xs : List (String × α)} {ys : List (String × β)}
    (h : List.Forall₂ R xs ys) : xs.map Prod.fst = ys.map Prod.fst := by
  induction h with
  | nil => rfl
  | cons hxy _ ih => rw [List.map_cons, List.map_cons, hR _ _ hxy, ih]

theorem ObjectsAgree.memberNames_eq {o₁ o₂ : Outcome Value} (h : ObjectsAgree o₁ o₂) :
    o₁.memberNames = o₂.memberNames := by
  cases h with
  | failed e m₁ m₂ => rfl
  | @done o₁ o₂ m₁ m₂ t₁ t₂ k₁ k₂ first second alike =>
    calc (m₁.store.members o₁).entries.map Prod.fst
      _ = t₁.entries.map Prod.fst := names_eq_of_forall₂ (fun _ _ h => h.1) first
      _ = t₂.entries.map Prod.fst := names_eq_of_forall₂ (fun _ _ h => h.1) alike
      _ = (m₂.store.members o₂).entries.map Prod.fst :=
        (names_eq_of_forall₂ (fun _ _ h => h.1) second).symm

/-- A source with an object, whose member makes a function without a name, and with a function that
adds a member to its argument:
`X={b:function(){return function(){}}};function f(o){o['z']=null}`. -/
def sampleSource : Program where
  source :=
    ['X', '=', '\x7b', 'b', ':', 'f', 'u', 'n', 'c', 't', 'i', 'o', 'n', '(', ')', '\x7b', 'r',
      'e', 't', 'u', 'r', 'n', ' ', 'f', 'u', 'n', 'c', 't', 'i', 'o', 'n', '(', ')', '\x7b',
      '\x7d', '\x7d', '\x7d', ';', 'f', 'u', 'n', 'c', 't', 'i', 'o', 'n', ' ', 'f', '(', 'o',
      ')', '\x7b', 'o', '[', '\'', 'z', '\'', ']', '=', 'n', 'u', 'l', 'l', '\x7d']
  options := .standard

/-- A name is minted before the object is extracted, so that its functions are not the same. -/
theorem extraction_after_histories_sample :
    ∃ m₁ m₂, Operation.runAll sampleSource
        [.build [] [] [], .extractObject "X", .callFunction "f" [.null]]
        (.initial .initial Table.empty) = some m₁ ∧
      Operation.runAll sampleSource [] (.initial .initial Table.empty) = some m₂ ∧
      (sampleSource.extractObject "X" m₁).memberNames = ["b"] ∧
      ObjectsAgree (sampleSource.extractObject "X" m₁) (sampleSource.extractObject "X" m₂) ∧
      FunctionsAgree (sampleSource.extractFunction "f" m₁) (sampleSource.extractFunction "f" m₂) := by
  have hnames : (Operation.runAll sampleSource
      [.build [] [] [], .extractObject "X", .callFunction "f" [.null]]
      (.initial .initial Table.empty)).map
        (fun m => (sampleSource.extractObject "X" m).memberNames) = some ["b"] := by
    decide +kernel
  obtain ⟨m₁, hm₁, hb⟩ := Option.map_eq_some_iff.1 hnames
  have hm₂ : Operation.runAll sampleSource [] (.initial .initial Table.empty) =
      some (.initial .initial Table.empty) := rfl
  refine ⟨m₁, _, hm₁, hm₂, hb, ?_, (extraction_after_histories _ _ _ hm₁ hm₂ "f").1⟩
  refine (extraction_after_histories _ _ _ hm₁ hm₂ "X").2.1 rfl Store.noDangling_initial ?_ trivial
  refine ⟨List.forall_mem_nil _, fun _ _ => ⟨List.forall_mem_nil _, fun _ _ => ⟨?_, fun _ _ => trivial⟩⟩⟩
  exact List.forall_mem_singleton.2 (mayHold_plain (by simp))

/-! ## An object that is handed back -/

/-- An object that is handed back can be changed, and is then extracted with the change. -/
theorem extraction_of_handed_object :
    ∃ m₁ m₂, Operation.runAll sampleSource
        [.extractObject "X", .callFunction "f" [.object ⟨0⟩]] (.initial .initial Table.empty) =
          some m₁ ∧
      Operation.runAll sampleSource [] (.initial .initial Table.empty) = some m₂ ∧
      ¬ ObjectsAgree (sampleSource.extractObject "X" m₁) (sampleSource.extractObject "X" m₂) := by
  have hchanged : (Operation.runAll sampleSource
      [.extractObject "X", .callFunction "f" [.object ⟨0⟩]] (.initial .initial Table.empty)).map
        (fun m => (sampleSource.extractObject "X" m).memberNames) = some ["b", "z"] := by
    decide +kernel
  have hfirst : (sampleSource.extractObject "X" (.initial .initial Table.empty)).memberNames =
      ["b"] := by
    decide +kernel
  obtain ⟨m₁, hm₁, hnames⟩ := Option.map_eq_some_iff.1 hchanged
  refine ⟨m₁, _, hm₁, rfl, fun h => ?_⟩
  have heq := h.memberNames_eq
  rw [hnames, hfirst] at heq
  exact absurd heq (by decide)

end PlayerScript
