/-
What expressions without effects leave untouched. Without assignments, updates, calls and function literals
an expression changes no layer, array or object that exists. It can make new arrays and objects, and it can
take objects out of the source, which the interpreter then knows for good.
-/
import PlayerScript.Proofs.Ast.Nodes
import PlayerScript.Proofs.Eval.History
import PlayerScript.Proofs.Eval.Steps
import PlayerScript.Proofs.Store.Closed

namespace PlayerScript

open Ast Eval

variable {name : String} {property : Property}

/-- Whether a node is an expression that can change what exists: an assignment, an update, a call, or a
function literal, which binds its name. -/
def Ast.Node.hasEffect : Ast.Node → Bool
  | .expr (.assign _ _ _ _) | .expr (.update _ _ _) | .expr (.call _ _) | .expr (.function _ _ _) => true
  | _ => false

/-! ## Preserved states -/

/-- An object as the source defines the one under a name. -/
def Machine.Extracted (p : Program) (m : Machine) (name : String) (o : ObjectRef) : Prop :=
  m.store.Has (.object o) ∧ ∃ k defs k',
    p.objectDefinitions name (Source.objectCodes p.source name) k = (.ok defs, k') ∧
      TableMade m.store (m.store.members o) defs

/-- All that there was is still there as it was. Only objects that were taken out of the source are known
in addition, and names were minted. -/
structure Machine.Preserved (p : Program) (m m' : Machine) : Prop where
  store : m.store.Extends m'.store
  functions : m'.functions = m.functions
  known : ∀ name v, m.objects.get? name = some v → m'.objects.get? name = some v
  extracted : ∀ name v, m.objects.get? name = none → m'.objects.get? name = some v →
    ∃ o, v = .object o ∧ ¬ m.store.Has (.object o) ∧ m'.Extracted p name o
  minted : m.minted ≤ m'.minted

theorem Machine.Extracted.extends {p : Program} {m m' : Machine} {o : ObjectRef}
    (h : m.Extracted p name o) (hs : m.store.Extends m'.store) : m'.Extracted p name o := by
  obtain ⟨hhas, k, defs, k', hdefs, hmade⟩ := h
  refine ⟨hs.has hhas, k, defs, k', hdefs, ?_⟩
  rw [hs.members hhas]
  exact hmade.extends hs.closures

namespace Machine.Preserved

variable {p : Program} {m m' m'' : Machine}

theorem of_same (hstore : m.store.Extends m'.store) (hfunctions : m'.functions = m.functions)
    (hknown : m'.objects = m.objects) (hminted : m.minted ≤ m'.minted) : m.Preserved p m' := by
  refine ⟨hstore, hfunctions, fun name v hv => hknown ▸ hv, fun name v hnone hsome => ?_, hminted⟩
  rw [hknown, hnone] at hsome
  cases hsome

theorem refl (m : Machine) : m.Preserved p m := of_same (.refl _) rfl rfl (Nat.le_refl _)

theorem trans (h : m.Preserved p m') (h' : m'.Preserved p m'') : m.Preserved p m'' := by
  refine ⟨h.store.trans h'.store, h'.functions.trans h.functions,
    fun name v hv => h'.known name v (h.known name v hv), fun name v hnone hsome => ?_,
    Nat.le_trans h.minted h'.minted⟩
  -- The object was taken out of the source in the first part of the run or in the second one.
  cases hget : m'.objects.get? name with
  | some w =>
    obtain rfl : v = w := Option.some.inj (hsome.symm.trans (h'.known name w hget))
    obtain ⟨o, ho, hnew, hextracted⟩ := h.extracted name v hnone hget
    exact ⟨o, ho, hnew, hextracted.extends h'.store⟩
  | none =>
    obtain ⟨o, ho, hnew, hextracted⟩ := h'.extracted name v hget hsome
    exact ⟨o, ho, fun hhas => hnew (h.store.has hhas), hextracted⟩

theorem withStore {s : Store} (h : m.store.Extends s) : m.Preserved p (m.withStore s) :=
  of_same h rfl rfl (Nat.le_refl _)

theorem grown (h : m.Grown m') (hminted : m.minted ≤ m'.minted) : m.Preserved p m' :=
  of_same (.grown h) h.functions h.known hminted

/-- A new object as the source defines it can be remembered under its name. -/
theorem remember {t : Table Value} {defs : Table FunctionDef} {k k' : Nat}
    (hunknown : m.objects.get? name = none)
    (hdefined : p.objectDefinitions name (Source.objectCodes p.source name) k = (.ok defs, k'))
    (hmade : TableMade m.store t defs) :
    m.Preserved p ⟨(m.store.addObject t).2, m.functions, m.objects.insert name (m.store.addObject t).1,
      m.minted⟩ := by
  refine ⟨.addObject m.store t, rfl, fun name' v hv => ?_, fun name' v hnone hsome => ?_, Nat.le_refl _⟩
  · show (m.objects.insert name _).get? name' = some v
    rw [Table.get?_insert, if_neg, hv]
    rintro rfl
    rw [hunknown] at hv
    cases hv
  · have hget : (m.objects.insert name (m.store.addObject t).1).get? name' = some v := hsome
    rw [Table.get?_insert, hnone] at hget
    split at hget
    · rename_i heq
      cases heq
      cases hget
      refine ⟨_, rfl, Nat.lt_irrefl m.store.objects.size, ?_, k, defs, k', hdefined, ?_⟩
      · simp [Store.Has, Store.addObject]
      · exact (Store.members_addObject m.store t).symm ▸ hmade
    · cases hget

/-- Asking for an object of the source leaves all there is untouched. -/
theorem resolves {x : Except Error Value × Machine} (hx : Resolves p name m x) :
    m.Preserved p x.2 := by
  have hle := p.le_objectDefinitions name (Source.objectCodes p.source name) m.minted
  cases hx with
  | known => exact .refl m
  | missing _ hgrown undefined =>
    rw [undefined] at hle
    exact .grown hgrown hle
  | taken unknown hgrown defined made =>
    rw [defined] at hle
    rw [← hgrown.known] at unknown
    exact (Preserved.grown hgrown hle).trans (.remember unknown defined made)

end Machine.Preserved

/-! ## Computations that spare what there is -/

/-- A computation that ends in every state and spares all there is, whether it succeeds or fails. -/
def Spares {α : Type} (p : Program) (x : Eval α) : Prop :=
  ∀ m, ∃ m', (x m).state? = some m' ∧ m.Preserved p m'

section

variable {p : Program} {α β : Type}

theorem spares_done (a : α) : Spares p (done a) := fun m => ⟨m, rfl, .refl m⟩

theorem spares_fail (e : Error) : Spares p (fail e : Eval α) := fun m => ⟨m, rfl, .refl m⟩

theorem spares_read (f : Store → α) : Spares p (read f) := fun m => ⟨m, rfl, .refl m⟩

theorem spares_ofExcept (x : Except Error α) : Spares p (ofExcept x) := by
  intro m
  cases x <;> exact ⟨m, rfl, .refl m⟩

theorem spares_add {f : Store → α × Store} (h : ∀ s : Store, s.Extends (f s).2) : Spares p (add f) :=
  fun m => ⟨_, rfl, .withStore (h m.store)⟩

theorem spares_bind {x : Eval α} {f : α → Eval β} (hx : Spares p x) (hf : ∀ a, Spares p (f a)) :
    Spares p (x >>= f) := by
  intro m
  obtain ⟨m', hstate, hpreserved⟩ := hx m
  show ∃ m', (andThen x f m).state? = some m' ∧ m.Preserved p m'
  unfold andThen
  cases hrun : x m with
  | done a n =>
    rw [hrun] at hstate
    cases hstate
    obtain ⟨m'', hstate, hpreserved'⟩ := hf a m'
    exact ⟨m'', hstate, hpreserved.trans hpreserved'⟩
  | failed e n =>
    rw [hrun] at hstate
    exact ⟨m', hstate, hpreserved⟩
  | unfinished =>
    rw [hrun] at hstate
    cases hstate

theorem spares_ite {c : Prop} [Decidable c] {x y : Eval α} (hx : Spares p x) (hy : Spares p y) :
    Spares p (if c then x else y) := by
  split
  · exact hx
  · exact hy

theorem spares_namedObject (name : String) (optional : Bool) : Spares p (namedObject p name optional) := by
  intro m
  have hpreserved := Machine.Preserved.resolves (resolves_resolveObject p name m)
  unfold namedObject
  generalize p.resolveObject name m = x at hpreserved
  obtain ⟨result, m'⟩ := x
  refine ⟨m', ?_, hpreserved⟩
  cases result with
  | ok v => rfl
  | error e => cases optional <;> rfl

/-! ## Expressions -/

variable {parts : Evaluators} {scope : Scope}

theorem spares_evalAll {es : List Expr} (h : ∀ e ∈ es, Spares p (parts.expr scope e)) :
    Spares p (evalAll parts scope es) := by
  induction es with
  | nil => exact spares_done _
  | cons e rest ih =>
    obtain ⟨he, hrest⟩ := List.forall_mem_cons.1 h
    exact spares_bind he fun v => spares_bind (ih hrest) fun vs => spares_done _

theorem spares_evalMembers {members : List (String × Expr)}
    (h : ∀ member ∈ members, Spares p (parts.expr scope member.2)) (t : Table Value) :
    Spares p (evalMembers parts scope members t) := by
  induction members generalizing t with
  | nil => exact spares_done _
  | cons member rest ih =>
    obtain ⟨hmember, hrest⟩ := List.forall_mem_cons.1 h
    exact spares_bind hmember fun v => ih hrest _

theorem spares_evalSequence {es : List Expr} (h : ∀ e ∈ es, Spares p (parts.expr scope e)) (last : Value) :
    Spares p (evalSequence parts scope es last) := by
  induction es generalizing last with
  | nil => exact spares_done _
  | cons e rest ih =>
    obtain ⟨he, hrest⟩ := List.forall_mem_cons.1 h
    exact spares_bind he fun v => ih hrest v

theorem spares_memberTarget {object : Expr} (h : Spares p (parts.expr scope object)) (optional : Bool) :
    Spares p (memberTarget p parts scope object optional) := by
  cases object with
  | ident name =>
    intro m
    show ∃ m', (if scope.contains m.store name then parts.expr scope (.ident name) m
      else namedObject p name optional m).state? = some m' ∧ m.Preserved p m'
    split
    · exact h m
    · exact spares_namedObject name optional m
  | _ => exact h

theorem spares_propertyKey
    (h : ∀ e, .expr e ∈ Ast.Node.ofProperty property → Spares p (parts.expr scope e)) :
    Spares p (propertyKey parts scope property) := by
  cases property with
  | name => exact spares_done _
  | computed e => exact h e (.head _)

/-- Reading a member of a value that has been evaluated. -/
def memberOf (parts : Evaluators) (scope : Scope) (property : Property) (optional : Bool) (target : Value) :
    Eval Value :=
  if optional && target.isNullish then done .undefined
  else propertyKey parts scope property >>= fun key =>
    read (fun store => target.member store key) >>= fun v => ofExcept v

theorem evalMember_eq (p : Program) (parts : Evaluators) (scope : Scope) (object : Expr) (property : Property)
    (optional : Bool) : evalMember p parts scope object property optional =
      read (fun store => namespace? store scope object) >>= fun space =>
        match space with
        | some n => fail (.unsupported (n.name ++ " member access"))
        | none => memberTarget p parts scope object optional >>= memberOf parts scope property optional := rfl

theorem spares_memberOf
    (h : ∀ e, .expr e ∈ Ast.Node.ofProperty property → Spares p (parts.expr scope e)) (optional : Bool)
    (target : Value) : Spares p (memberOf parts scope property optional target) := by
  refine spares_ite (spares_done _) (spares_bind (spares_propertyKey h) fun key => ?_)
  exact spares_bind (spares_read _) fun v => spares_ofExcept v

theorem spares_evalMember {object : Expr} (hobject : Spares p (parts.expr scope object))
    (hproperty : ∀ e, .expr e ∈ Ast.Node.ofProperty property → Spares p (parts.expr scope e))
    (optional : Bool) : Spares p (evalMember p parts scope object property optional) := by
  rw [evalMember_eq]
  refine spares_bind (spares_read _) fun space => ?_
  cases space with
  | some n => exact spares_fail _
  | none => exact spares_bind (spares_memberTarget hobject optional) (spares_memberOf hproperty optional)

/-- An expression without an effect of its own spares what there is if its parts do. -/
theorem spares_exprStep {e : Expr} (heffect : (Ast.Node.expr e).hasEffect = false)
    (h : ∀ e', .expr e' ∈ (Ast.Node.expr e).below → Spares p (parts.expr scope e')) :
    Spares p (exprStep p parts scope e) := by
  cases e with
  | literal => exact spares_done _
  | ident name => exact spares_read fun store => scope.get store name
  | array items =>
    have hitems := spares_evalAll fun e' he' => h e' (List.mem_map_of_mem he')
    exact spares_bind hitems fun values => spares_add fun s => .addArray s _
  | object members =>
    have hmembers := spares_evalMembers
      (fun (member : String × Expr) (hm : member ∈ members) => h member.2 (List.mem_map_of_mem hm)) Table.empty
    exact spares_bind hmembers fun table => spares_add fun s => .addObject s _
  | unary op operand => exact spares_bind (h operand (.head _)) fun v => spares_read _
  | binary op left right =>
    refine spares_bind (h left (.head _)) fun a => spares_ite (spares_done _) ?_
    exact spares_bind (h right (.tail _ (.head _))) fun b => spares_read _
  | conditional test consequent alternate =>
    refine spares_bind (h test (.head _)) fun v => ?_
    exact spares_ite (h consequent (.tail _ (.head _))) (h alternate (.tail _ (.tail _ (.head _))))
  | sequence items => exact spares_evalSequence (fun e' he' => h e' (List.mem_map_of_mem he')) _
  | member object property optional =>
    exact spares_evalMember (h object (.head _)) (fun e' he' => h e' (.tail _ he')) optional
  | function | update | assign | call => cases heffect

end

/-- An expression without effects spares what there is. -/
theorem spares_evalExpr (p : Program) (rounds budget : Nat) (scope : Scope) {e : Expr}
    (heffects : AllNodes (fun a => a.hasEffect = false) (.expr e)) :
    Spares p (evalExpr p rounds budget scope e) := by
  induction budget generalizing e with
  | zero => exact spares_fail _
  | succ budget ih =>
    rw [evalExpr_succ]
    exact spares_exprStep (allNodes_iff.1 heffects).1 fun e' he' => ih (heffects.of_below he')

end PlayerScript
