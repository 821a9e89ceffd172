/-
Parsing does the same whatever names were minted before: it objects to the same things, mints as many
names, and gives trees that differ only in these names.
-/
import PlayerScript.Proofs.Ast.Alike
import PlayerScript.Proofs.Ast.Survey.Counts

namespace PlayerScript.Ast

variable {k₁ k₂ : Nat} {names : List (Nat → String)}

/-- Results from two counts that are related, whatever names were met. -/
def Related {α : Type} (k₁ k₂ : Nat) (R : α → α → Prop) : Account Nat α := fun _ a => R (a k₁) (a k₂)

/-- Trees that differ only in minted names. -/
def alikeTrees (k₁ k₂ : Nat) : Trees Nat := ⟨Related k₁ k₂ (ExprAlike k₁ k₂), Related k₁ k₂ (StmtAlike k₁ k₂)⟩

theorem related_each {α : Type} {A : Account Nat α} {R : α → α → Prop}
    (h : ∀ {names a}, A names a → R (a k₁) (a k₂)) {as : Nat → List α} (hs : Each A names as) :
    List.Forall₂ R (as k₁) (as k₂) := by
  induction hs with
  | nil => exact .nil
  | cons ha _ ih => exact .cons (h ha) ih

theorem related_maybe {α : Type} {R : α → α → Prop} {a : Nat → Option α}
    (h : Maybe (Related k₁ k₂ R) names a) : Option.Rel R (a k₁) (a k₂) := by
  cases h with
  | none => exact .none
  | some h => exact .some h

theorem related_element {e : Nat → Expr}
    (h : (alikeTrees k₁ k₂).Element names e) : ExprAlike k₁ k₂ (e k₁) (e k₂) := by
  cases h with
  | hole => exact .literal _
  | expr h => exact h

theorem related_member {m : Nat → String × Expr}
    (h : (alikeTrees k₁ k₂).Member names m) : MemberAlike k₁ k₂ (m k₁) (m k₂) := by
  obtain ⟨key, h⟩ := h
  exact .mk h

theorem related_labelled {c : Nat → Clause}
    (h : (alikeTrees k₁ k₂).Labelled names c) : ClauseAlike k₁ k₂ (c k₁) (c k₂) := by
  obtain ⟨hl, hb⟩ := h
  exact .mk (related_maybe hl) (related_each id hb)

theorem related_declared {d : Nat → String × Option Expr}
    (h : (alikeTrees k₁ k₂).Declared names d) : DeclAlike k₁ k₂ (d k₁) (d k₂) := by
  obtain ⟨name, h⟩ := h
  exact .mk (related_maybe h)

theorem related_init {init : Nat → Option Stmt}
    (h : (alikeTrees k₁ k₂).Init names init) : Option.Rel (StmtAlike k₁ k₂) (init k₁) (init k₂) := by
  cases h with
  | none => exact .none
  | var h => exact .some (.var (related_each related_declared h))
  | expr h => exact .some (.expr h)

variable (k₁ k₂) in
/-- A construct differs only in minted names if its parts do. -/
theorem builds_alike {w : TokenKind → Nat} {s : Survey Nat w}
    (hname : ∀ {name}, s.Name name → NameAlike k₁ k₂ (name k₁) (name k₂)) :
    Builds s (alikeTrees k₁ k₂) (alikeTrees k₁ k₂) where
  literal := .literal
  ident name _ := .ident name
  update := .update
  wrapped h := h
  array h := .array (related_each related_element h)
  object h := .object (related_each related_member h)
  function h _ hb := .function (hname h) (related_each id hb)
  unary _ h := .unary h
  binary _ ha hb := .binary ha hb
  conditional ha hb hc := .conditional ha hb hc
  assign _ _ hi hv := .assign (related_maybe hi) hv
  sequence h := .sequence (related_each id h)
  member name _ h := .member h (.name name)
  computed _ he hk := .member he (.computed hk)
  call he ha := .call he (related_each id ha)
  empty := .empty
  breaks := .breaks
  continues := .continues
  expr h := .expr h
  var h := .var (related_each related_declared h)
  declared name _ hb := .var (.cons (.mk (.some (.function (.own name) (related_each id hb)))) .nil)
  returns h := .returns (related_maybe h)
  throws h := .throws h
  block h := .block (related_each id h)
  ifElse hc hb ho := .ifElse hc hb (related_maybe ho)
  forLoop hi hc hu hb := .forLoop (related_init hi) (related_maybe hc) (related_maybe hu) hb
  switch he hc := .switch he (related_each related_labelled hc)
  tryBlock _ hb hf := by
    cases hf with
    | none => exact .tryBlock (related_each id hb)
    | some h => exact .tryCleanup (related_each id hb) (related_each id h)

/-- Parsing a text after different numbers of minted names: the same error, or trees that differ only
in minted names, and as many new names. -/
theorem parseStatements_alike (source : List Char) (maxDepth k₁ k₂ j : Nat) :
    Minted k₁ k₂ (BodyAlike k₁ k₂) (parseStatements source maxDepth (k₁ + j))
      (parseStatements source maxDepth (k₂ + j)) := by
  unfold parseStatements
  cases itemsOf source with
  | error e => exact .error j e
  | ok items =>
    have hruns := statements_counted (fun _ _ => builds_alike k₁ k₂ ?_)
      (unburdened_all items) maxDepth j
    · cases hruns with
      | @error d j' _ h =>
        have h₁ := h k₁ (.still none)
        have h₂ := h k₂ (.still none)
        rw [Move.still_range] at h₁ h₂
        dsimp only
        rw [h₁, h₂]
        exact .error j' _
      | ok own _ h _ ha =>
        have h₁ := h k₁ (.still none)
        have h₂ := h k₂ (.still none)
        obtain ⟨body, rfl, hbody⟩ := ha
        rw [Move.still_range] at h₁ h₂
        dsimp only
        rw [h₁, h₂]
        exact .ok _ (related_each id hbody)
    · rintro _ (⟨name, rfl⟩ | ⟨-, i, rfl⟩)
      · exact .own name
      · exact .minted i

end PlayerScript.Ast
