/-
Borrowed methods. Calling a method of a namespace's prototype on a receiver evaluates what a direct call
of the method evaluates, in the same order and within the same budget, and comes to the same method. The
direct call prefers a function that the receiver holds under the method's name, which it looks up when
the arguments have been evaluated; a receiver that holds none then makes the two calls the same.
-/
import PlayerScript.Proofs.Eval.Steps
import PlayerScript.Proofs.Token.Spelling

namespace PlayerScript

open Token

/-! ## Functions that a receiver holds -/

namespace Value

/-- A value is an object that holds a function under a name. -/
def HoldsFunction (store : Store) (name : String) (v : Value) : Prop :=
  ∃ o f, v = .object o ∧ (store.members o).get? name = some (.function f)

/-- A name is not the text of an index. -/
theorem index?_of_isName {name : String} (h : isName name.toList = true) : (Value.string name).index? = none := by
  show Text.unsigned? 10 Text.wordBound name.toList = none
  cases hcs : name.toList with
  | nil => rfl
  | cons c cs =>
    rw [hcs, isName, Bool.and_eq_true] at h
    have hnat := toNat_of_isNameStart h.1
    have hdigit : Text.isDigitOf 10 c = false :=
      Bool.eq_false_iff.2 fun hc => by have := isDecimal_iff.1 hc; omega
    have hplus : Text.dropPlus (c :: cs) = c :: cs := by
      unfold Text.dropPlus
      split
      · rename_i heq
        cases heq
        exact absurd hnat (by decide)
      · rfl
    rw [Text.unsigned?, hplus]
    simp [hdigit]

end Value

namespace Eval

variable {p : Program} {parts : Evaluators} {scope : Scope} {m : Machine} {method : String} {object : Expr}
  {args : List Expr}

theorem memberFunction?_eq_none {store : Store} {v : Value} (hname : isName method.toList = true)
    (h : ¬ v.HoldsFunction store method) : memberFunction? store v (.string method) = .ok none := by
  cases v with
  | array a =>
    simp only [memberFunction?, Value.member, Value.place?, Value.index?_of_isName hname, Option.bind_none,
      Option.getD_none]
    split_ifs <;> rfl
  | object o =>
    simp only [memberFunction?, Value.member, Value.text_string]
    cases hget : (store.members o).get? method with
    | none => split_ifs <;> rfl
    | some w =>
      cases w with
      | function f => exact absurd ⟨o, f, rfl, hget⟩ h
      | _ => rfl
  | _ => rfl

/-! ## The two calls -/

theorem bind_assoc {α β γ : Type} (x : Eval α) (f : α → Eval β) (g : β → Eval γ) :
    x >>= f >>= g = x >>= fun a => f a >>= g := by
  funext m
  show andThen (andThen x f) g m = andThen x (fun a => andThen (f a) g) m
  unfold andThen
  cases x m <;> rfl

/-- A borrowed method evaluates the receiver as its first argument. -/
theorem callBorrowed_cons : callBorrowed parts scope method false (object :: args) =
    parts.expr scope object >>= fun v => evalAll parts scope args >>= callMethod parts v method := by
  rw [callBorrowed, evalAll, bind_assoc]
  congr 1
  funext v
  exact bind_assoc _ _ _

theorem callMember_name (htarget : memberTarget p parts scope object false m = parts.expr scope object m)
    (hmember : ∀ {v m₁ vs m₂}, parts.expr scope object m = .done v m₁ →
      evalAll parts scope args m₁ = .done vs m₂ →
        memberFunction? m₂.store v (.string method) = .ok none) :
    callMember p parts scope object (.name method) false args m =
      (parts.expr scope object >>= fun v => evalAll parts scope args >>= callMethod parts v method) m := by
  show andThen _ _ m = andThen _ _ m
  unfold andThen
  rw [htarget]
  cases hv : parts.expr scope object m with
  | done v m₁ =>
    show andThen (evalAll parts scope args) _ m₁ = andThen _ _ m₁
    unfold andThen
    cases hvs : evalAll parts scope args m₁ with
    | done vs m₂ =>
      show andThen (ofExcept (memberFunction? m₂.store v (.string method))) _ m₂ = _
      rw [hmember hv hvs]
      show callMethod parts v ((Value.string method).text m₂.store) vs m₂ = _
      rw [Value.text_string]
    | _ => rfl
  | _ => rfl

theorem borrowed?_eq_none {property : Property} (h : ∀ how, property = .name how → how ≠ "call" ∧ how ≠ "apply")
    (store : Store) : borrowed? store scope object property = none := by
  unfold borrowed?
  split
  · obtain ⟨hcall, happly⟩ := h _ rfl
    rw [if_neg hcall, if_neg happly, ite_self]
  · rfl

theorem borrowed?_call {store : Store} {space : Expr} {q₁ q₂ : Bool}
    (h : (namespace? store scope space).isSome = true) :
    borrowed? store scope (.member (.member space (.name "prototype") q₁) (.name method) q₂) (.name "call") =
      some (method, false) := by
  have hspace : (namespace? store scope space).isNone = false := Option.isNone_eq_false_iff.2 h
  simp [borrowed?, hspace]

/-- A method borrowed from a namespace does what a direct call of it does, as long as the receiver holds
no function under its name when the arguments have been evaluated. -/
theorem borrowed_call_eq {rounds budget : Nat} {space : String} {q₁ q₂ q₃ : Bool}
    (hspace : (namespace? m.store scope (.ident space)).isSome = true) (hname : isName method.toList = true)
    (hcall : method ≠ "call") (happly : method ≠ "apply")
    (hbound : ∀ x, object = .ident x → scope.contains m.store x = true)
    (hmember : ∀ {v m₁ vs m₂}, evalExpr p rounds (budget - 1) scope object m = .done v m₁ →
      evalAll (evaluators p rounds (budget - 1)) scope args m₁ = .done vs m₂ →
        ¬ v.HoldsFunction m₂.store method) :
    evalExpr p rounds budget scope (.call (.member (.member (.member (.ident space) (.name "prototype") q₁)
        (.name method) q₂) (.name "call") q₃) (object :: args)) m =
      evalExpr p rounds budget scope (.call (.member object (.name method) false) args) m := by
  cases budget with
  | zero => rw [evalExpr, evalExpr]
  | succ budget =>
    have hunnamed : namespace? m.store scope object = none := by
      cases object with
      | ident x => rw [namespace?, if_pos (hbound x rfl)]
      | _ => rfl
    have htarget : memberTarget p (evaluators p rounds budget) scope object false m =
        (evaluators p rounds budget).expr scope object m := by
      cases object with
      | ident x => exact if_pos (hbound x rfl)
      | _ => rfl
    have hdirect : borrowed? m.store scope object (.name method) = none :=
      borrowed?_eq_none (by rintro _ ⟨⟩; exact ⟨hcall, happly⟩) _
    rw [evalExpr_callMember hdirect hunnamed,
      callMember_name htarget fun hv hvs => memberFunction?_eq_none hname (hmember hv hvs),
      ← callBorrowed_cons, evalExpr_succ, exprStep, evalCall, borrowed?_call hspace]

theorem borrowed_call_split :
    evalExpr ⟨[], .standard⟩ 0 3 ⟨.globals, []⟩ (.call (.member (.member (.member (.ident "String")
        (.name "prototype") false) (.name "split") false) (.name "call") false)
        [.literal (.string "ab"), .literal (.string "")]) (.initial .initial Table.empty) =
      evalExpr ⟨[], .standard⟩ 0 3 ⟨.globals, []⟩ (.call (.member (.literal (.string "ab")) (.name "split") false)
        [.literal (.string "")]) (.initial .initial Table.empty) :=
  borrowed_call_eq (by decide) (by decide) (by decide) (by decide) (by rintro _ ⟨⟩) (by
    rintro v m₁ vs m₂ hv - ⟨o, f, rfl, -⟩
    rw [evalExpr_literal] at hv
    cases hv)

/-- A store in which a variable is an object without members. -/
def withObject : Store :=
  { Store.initial with
    layers := Arena.empty.push (Table.empty.insert "o" (.object ⟨0⟩)), objects := Arena.empty.push Table.empty }

/-- Stores a function in the object. -/
def storeFunction : Expr :=
  .assign "o" (some (.literal (.string "m"))) none (.function "f" [] [.returns (some (.literal (.bool true)))])

/-- The object holds no function before the call. An argument stores one, and only the direct call finds it. -/
theorem borrowed_call_misses_function :
    (evalExpr ⟨[], .standard⟩ 0 9 ⟨.globals, []⟩ (.ident "o") (.initial withObject Table.empty) =
        .done (.object ⟨0⟩) (.initial withObject Table.empty) ∧
      ¬ (Value.object ⟨0⟩).HoldsFunction withObject "m") ∧
    (∃ m', evalExpr ⟨[], .standard⟩ 0 9 ⟨.globals, []⟩ (.call (.member (.ident "o") (.name "m") false)
        [storeFunction]) (.initial withObject Table.empty) = .done (.bool true) m') ∧
      ∃ m', evalExpr ⟨[], .standard⟩ 0 9 ⟨.globals, []⟩ (.call (.member (.member (.member (.ident "String")
        (.name "prototype") false) (.name "m") false) (.name "call") false) [.ident "o", storeFunction])
        (.initial withObject Table.empty) = .failed (Method.unknown (.object ⟨0⟩) "m") m' := by
  refine ⟨⟨rfl, ?_⟩, ⟨_, rfl⟩, ⟨_, rfl⟩⟩
  rintro ⟨_, _, ⟨⟩, ⟨⟩⟩

end Eval

end PlayerScript
