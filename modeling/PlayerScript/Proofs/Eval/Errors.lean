/-
What is behind the errors of a run. Almost every error of the evaluator is plain: it is about a text or
a value. The others have causes that lie in the run itself, and such a cause stays one for every run
around it. Functions are never taken out of the store, so that a cause may speak of them.
-/
import PlayerScript.Interpreter
import PlayerScript.Proofs.Ast.Levels
import PlayerScript.Proofs.Eval.Definitions

namespace PlayerScript

/-! ## Texts -/

namespace Source

theorem plainly_separateAtBracket (code : List Char) (delim : Option (List Char)) :
    Plainly (separateAtBracket code delim) := by
  unfold separateAtBracket
  dsimp only
  split
  · exact failsWith_error rfl
  · split
    · exact failsWith_error rfl
    · split
      · exact failsWith_ok _
      · exact failsWith_error rfl

theorem plainly_functionCode (source : List Char) (name : String) : Plainly (functionCode source name) := by
  unfold functionCode
  dsimp only
  split
  · exact failsWith_error rfl
  · exact failsWith_bind (plainly_separateAtBracket _ _) fun _ => failsWith_ok _

theorem plainly_field (code : List Char) : Plainly (field code) := by
  unfold field
  refine failsWith_ite (failsWith_ok _) ?_
  split
  · split
    · exact failsWith_bind (plainly_separateAtBracket _ _) fun _ => failsWith_ok _
    · exact failsWith_ok _
  · exact failsWith_ok _

end Source

/-! ## Taking code out of the source -/

/-- Every function of the first state is one of the second. -/
def Machine.Keeps (m m' : Machine) : Prop := m.store.closures.Extends m'.store.closures

theorem Machine.Keeps.refl (m : Machine) : m.Keeps m := fun _ _ h => h

theorem Machine.Keeps.trans {m m' m'' : Machine} (h : m.Keeps m') (h' : m'.Keeps m'') : m.Keeps m'' :=
  fun i c hc => h' i c (h i c hc)

/-- A step that keeps the functions and has only plain errors. -/
structure MildStep {α : Type} (f : Machine → Except Error α × Machine) : Prop where
  keeps : ∀ m : Machine, m.Keeps (f m).2
  plain : ∀ m, Plainly (f m).1

theorem MildStep.of_eq {α : Type} {f : Machine → Except Error α × Machine} (h : MildStep f) {m m' : Machine}
    {x : Except Error α} (heq : f m = (x, m')) : m.Keeps m' ∧ Plainly x := by
  have hkeeps := h.keeps m
  have hplain := h.plain m
  rw [heq] at hkeeps hplain
  exact ⟨hkeeps, hplain⟩

theorem mildStep_fetch {α : Type} {view : MemoView Machine α}
    (hview : ∀ f m, (view.update f m).store = m.store) (name : String)
    {compute : Machine → Except Error α × Machine} (h : MildStep compute) :
    MildStep (view.fetch name compute) := by
  have hboth : ∀ m, m.Keeps (view.fetch name compute m).2 ∧ Plainly (view.fetch name compute m).1 := by
    intro m
    unfold MemoView.fetch
    split
    · exact ⟨.refl m, failsWith_ok _⟩
    · split
      · rename_i hrun
        refine ⟨?_, failsWith_ok _⟩
        unfold Machine.Keeps
        rw [hview]
        exact (h.of_eq hrun).1
      · rename_i hrun
        exact ⟨(h.of_eq hrun).1, (h.of_eq hrun).2.error rfl⟩
  exact ⟨fun m => (hboth m).1, fun m => (hboth m).2⟩

theorem Makes.keeps {α δ : Type} {R : Store → α → δ → Prop} {m : Machine}
    {x : Except Error α × Machine} {y : Except Error δ × Nat} (h : Makes R m x y) : m.Keeps x.2 := by
  cases h with
  | ok grown _ => exact grown.closures
  | error _ grown => exact grown.closures

namespace Program

variable (p : Program)

theorem mildStep_parse (code : List Char) : MildStep (p.parse code) :=
  ⟨fun m => .refl m, fun m => Ast.plainly_parseStatements code p.options.maxNesting m.minted⟩

theorem mildStep_compile (name : String) (code : Source.FunctionCode) (captured : Scope) :
    MildStep (p.compile name code captured) := by
  refine ⟨fun m => (makes_compile p name code captured m).keeps, fun m => ?_⟩
  unfold compile
  split
  · rename_i hrun
    exact ((p.mildStep_parse code.body).of_eq hrun).2.error rfl
  · exact failsWith_ok _

theorem mildStep_extractFunction (name : String) : MildStep (p.extractFunction name) := by
  refine mildStep_fetch (fun _ _ => rfl) name ⟨fun m => (makes_takeFunction p name m).keeps, fun m => ?_⟩
  split
  · rename_i he
    exact (Source.plainly_functionCode p.source name).error he
  · rename_i code _
    exact (p.mildStep_compile name code globalScope).plain m

theorem plainly_compileFields : ∀ (fields : List (List Char)) (members : Table Value) (m : Machine),
    Plainly (p.compileFields fields members m).1
  | [], _, _ => failsWith_ok _
  | field :: rest, members, m => by
    rw [compileFields]
    split
    · rename_i he
      exact (Source.plainly_field field).error he
    · exact plainly_compileFields rest members m
    · exact failsWith_ok _
    · split
      · rename_i hrun
        exact ((p.mildStep_compile _ _ globalScope).of_eq hrun).2.error rfl
      · exact plainly_compileFields rest _ _

theorem plainly_compileObject (name : String) : ∀ (codes : List (List Char)) (m : Machine),
    Plainly (p.compileObject name codes m).1
  | [], _ => failsWith_error rfl
  | code :: rest, m => by
    rw [compileObject]
    split
    · exact plainly_compileObject name rest m
    · rename_i body _ _
      have hfields := p.plainly_compileFields (Source.fieldCodes body) Table.empty m
      split
      · rename_i hrun
        rw [hrun] at hfields
        exact hfields.error rfl
      · exact failsWith_ok _
      · exact plainly_compileObject name rest _

theorem mildStep_resolveObject (name : String) : MildStep (p.resolveObject name) := by
  have hobject : MildStep (p.compileObject name (Source.objectCodes p.source name)) :=
    ⟨fun m => (makes_compileObject p name _ m).keeps, p.plainly_compileObject name _⟩
  refine mildStep_fetch (fun _ _ => rfl) name ⟨fun m => ?_, fun m => ?_⟩
  · split
    · rename_i hrun
      exact (hobject.of_eq hrun).1
    · rename_i hrun
      exact (hobject.of_eq hrun).1
  · split
    · rename_i hrun
      exact (hobject.of_eq hrun).2.error rfl
    · exact failsWith_ok _

end Program

/-! ## Values -/

theorem Value.plainly_member (store : Store) (target key : Value) : Plainly (target.member store key) := by
  unfold Value.member
  dsimp only
  split
  · exact failsWith_error rfl
  · exact failsWith_error rfl
  · exact failsWith_ite (failsWith_ok _) (failsWith_ok _)
  · exact failsWith_ite (failsWith_ok _) (failsWith_ok _)
  · split <;> exact failsWith_ok _
  · exact failsWith_ok _
  · exact failsWith_ok _
  · exact failsWith_ok _

theorem plainly_callStatic (store : Store) (space method : String) (args : List Value) :
    Plainly (callStatic store space method args) := by
  unfold callStatic
  refine failsWith_ite (failsWith_ite (failsWith_error rfl) (failsWith_ok _)) (failsWith_ite ?_ (failsWith_error rfl))
  split
  · exact failsWith_ok _
  · exact failsWith_error rfl

/-- An attempt that leaves the functions as they are and has only plain errors. -/
structure MildAttempt {α : Type} (store : Store) (x : Except Error (α × Store)) : Prop where
  plain : Plainly x
  closures : ∀ r, x = .ok r → r.2.closures = store.closures

section

variable {α β : Type} {store : Store}

theorem mildAttempt_ok {r : α × Store} (h : r.2.closures = store.closures) :
    MildAttempt store (.ok r) := by
  refine ⟨failsWith_ok _, ?_⟩
  rintro _ ⟨⟩
  exact h

theorem mildAttempt_error {e : Error} (h : e.isPlain = true) :
    MildAttempt store (.error e : Except Error (α × Store)) :=
  ⟨failsWith_error h, nofun⟩

theorem mildAttempt_bind {x : Except Error β} {f : β → Except Error (α × Store)} (hx : Plainly x)
    (hf : ∀ b, MildAttempt store (f b)) : MildAttempt store (x >>= f) := by
  cases x with
  | ok b => exact hf b
  | error e => exact mildAttempt_error (hx e rfl)

end

namespace Method

variable (m : Method) (store : Store) (target : Value) (args : List Value)

theorem plainly_string : Plainly (m.string target) := by
  unfold string
  split
  · exact failsWith_ok _
  · exact failsWith_error rfl

theorem plainly_array : Plainly (m.array target) := by
  unfold array
  split
  · exact failsWith_ok _
  · exact failsWith_error rfl

theorem plainly_noArguments : Plainly (m.noArguments target args) := by
  unfold noArguments
  exact failsWith_ite (failsWith_ok _) (failsWith_error rfl)

theorem plainly_someArgument : Plainly (m.someArgument target args) := by
  unfold someArgument
  exact failsWith_ite (failsWith_error rfl) (failsWith_ok _)

theorem plainly_iteration : Plainly (iteration store target args) := by
  unfold iteration
  refine failsWith_bind (forEach.plainly_array target) fun a => ?_
  dsimp only
  split
  · rename_i callback
    cases callback with
    | function => exact failsWith_ok _
    | _ => exact failsWith_error rfl
  · rename_i callback this
    cases callback with
    | function => exact failsWith_ok _
    | _ => exact failsWith_error rfl
  · exact failsWith_error rfl

theorem mildAttempt_lookFor (needle : Value) (start? : Option Value) :
    MildAttempt store (lookFor store target needle start?) := by
  unfold lookFor
  split
  · exact mildAttempt_ok rfl
  · exact mildAttempt_ok rfl
  · exact mildAttempt_error rfl

theorem mildAttempt_run : MildAttempt store (m.run store target args) := by
  unfold run
  cases m with
  | split =>
    refine mildAttempt_bind (split.plainly_string target) fun cs => ?_
    dsimp only
    split
    · exact mildAttempt_ok rfl
    · exact mildAttempt_ok rfl
    · exact mildAttempt_error rfl
  | join =>
    refine mildAttempt_bind (join.plainly_array target) fun a => ?_
    split
    · exact mildAttempt_ok rfl
    · exact mildAttempt_error rfl
  | reverse =>
    refine mildAttempt_bind (reverse.plainly_noArguments target args) fun _ => ?_
    exact mildAttempt_bind (reverse.plainly_array target) fun a => mildAttempt_ok rfl
  | slice =>
    dsimp only
    unfold runSlice
    split
    · exact mildAttempt_error rfl
    · split
      · exact mildAttempt_ok rfl
      · exact mildAttempt_ok rfl
      · exact mildAttempt_error rfl
  | splice =>
    refine mildAttempt_bind (splice.plainly_array target) fun a => ?_
    exact mildAttempt_bind (splice.plainly_someArgument target args) fun _ => mildAttempt_ok rfl
  | unshift => exact mildAttempt_bind (unshift.plainly_array target) fun a => mildAttempt_ok rfl
  | pop =>
    refine mildAttempt_bind (pop.plainly_noArguments target args) fun _ => ?_
    exact mildAttempt_bind (pop.plainly_array target) fun a => mildAttempt_ok rfl
  | push =>
    refine mildAttempt_bind (push.plainly_array target) fun a => ?_
    exact mildAttempt_bind (push.plainly_someArgument target args) fun _ => mildAttempt_ok rfl
  | forEach => exact mildAttempt_ok rfl
  | indexOf =>
    dsimp only
    unfold runIndexOf
    split
    · exact mildAttempt_lookFor store target _ _
    · exact mildAttempt_lookFor store target _ _
    · exact mildAttempt_error rfl
  | charCodeAt => exact mildAttempt_bind (charCodeAt.plainly_string target) fun cs => mildAttempt_ok rfl
  | concat =>
    dsimp only
    unfold runConcat
    split
    · exact mildAttempt_ok rfl
    · exact mildAttempt_ok rfl
    · exact mildAttempt_error rfl

theorem isPlain_unknown (name : String) : (unknown target name).isPlain = true := by
  unfold unknown
  split <;> rfl

end Method

end PlayerScript
