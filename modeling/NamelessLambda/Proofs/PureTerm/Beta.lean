import Mathlib.Logic.Relation
import NamelessLambda.Proofs.PureTerm.Basic

/-!
Contract: beta reduction of pure terms, and its part at the head.

Owns:
- `Beta`, one contraction at any position, under binders included;
- `WeakHead`, one contraction at the head of the spine, which is unique;
- the terms on which head contraction stops: binders and neutral terms.

Does not own:
- how far arbitrary reduction sequences agree with head contraction.
-/

namespace NamelessLambda.PureTerm

open Relation

/-- Contraction of one redex, wherever it stands. -/
inductive Beta : PureTerm → PureTerm → Prop where
  | contract (body argument : PureTerm) :
      Beta (.app (.lam body) argument) (body.instantiate argument)
  | inBody {body body' : PureTerm} : Beta body body' → Beta (.lam body) (.lam body')
  | inFunction {function function' : PureTerm} (argument : PureTerm) :
      Beta function function' → Beta (.app function argument) (.app function' argument)
  | inArgument (function : PureTerm) {argument argument' : PureTerm} :
      Beta argument argument' → Beta (.app function argument) (.app function argument')

/-- Contraction of the redex at the head of the spine. -/
inductive WeakHead : PureTerm → PureTerm → Prop where
  | contract (body argument : PureTerm) :
      WeakHead (.app (.lam body) argument) (body.instantiate argument)
  | inFunction {function function' : PureTerm} (argument : PureTerm) :
      WeakHead function function' → WeakHead (.app function argument) (.app function' argument)

theorem not_weakHead_lam (body reduct : PureTerm) : ¬ WeakHead (.lam body) reduct := by
  intro step
  cases step

theorem WeakHead.unique {term left right : PureTerm} (first : WeakHead term left)
    (second : WeakHead term right) : left = right := by
  induction first generalizing right with
  | contract body argument =>
      cases second with
      | contract _ _ => rfl
      | inFunction _ inside => exact absurd inside (not_weakHead_lam body _)
  | inFunction argument inside inductionHypothesis =>
      cases second with
      | contract body _ => exact absurd inside (not_weakHead_lam body _)
      | inFunction _ inside' => rw [inductionHypothesis inside']

private theorem WeakHead.rename {term reduct : PureTerm} (step : WeakHead term reduct)
    (placement : Nat → Nat) : WeakHead (term.rename placement) (reduct.rename placement) := by
  induction step with
  | contract body argument =>
      rw [rename_instantiate]
      exact .contract _ _
  | inFunction argument _ inductionHypothesis => exact .inFunction _ inductionHypothesis

private theorem WeakHead.assign {term reduct : PureTerm} (step : WeakHead term reduct)
    (assignment : Nat → PureTerm) :
    WeakHead (term.assign assignment) (reduct.assign assignment) := by
  induction step with
  | contract body argument =>
      rw [assign_instantiate]
      exact .contract _ _
  | inFunction argument _ inductionHypothesis => exact .inFunction _ inductionHypothesis

theorem weakHeads_inFunction {function function' : PureTerm}
    (steps : ReflTransGen WeakHead function function') (argument : PureTerm) :
    ReflTransGen WeakHead (.app function argument) (.app function' argument) :=
  ReflTransGen.lift (PureTerm.app · argument) (fun _ _ step => .inFunction argument step) _ _ steps

theorem weakHeads_rename {term reduct : PureTerm} (steps : ReflTransGen WeakHead term reduct)
    (placement : Nat → Nat) :
    ReflTransGen WeakHead (term.rename placement) (reduct.rename placement) :=
  ReflTransGen.lift (PureTerm.rename placement) (fun _ _ step => step.rename placement) _ _ steps

theorem weakHeads_assign {term reduct : PureTerm} (steps : ReflTransGen WeakHead term reduct)
    (assignment : Nat → PureTerm) :
    ReflTransGen WeakHead (term.assign assignment) (reduct.assign assignment) :=
  ReflTransGen.lift (PureTerm.assign assignment) (fun _ _ step => step.assign assignment) _ _ steps

/-! ## Where head contraction stops -/

/-- Variable applied to any number of arguments. -/
inductive Neutral : PureTerm → Prop where
  | var (index : Nat) : Neutral (.var index)
  | app {function : PureTerm} (argument : PureTerm) :
      Neutral function → Neutral (.app function argument)

/-- Binder, or neutral term. -/
def WeakHeadNormal (term : PureTerm) : Prop := (∃ body, term = .lam body) ∨ Neutral term

private theorem Neutral.not_weakHead {term : PureTerm} (neutral : Neutral term)
    (reduct : PureTerm) : ¬ WeakHead term reduct := by
  intro step
  induction step with
  | contract body argument => cases neutral with | app _ inside => cases inside
  | inFunction argument _ inductionHypothesis =>
      cases neutral with
      | app _ inside => exact inductionHypothesis inside

theorem WeakHeadNormal.not_weakHead {term : PureTerm} (normal : WeakHeadNormal term)
    (reduct : PureTerm) : ¬ WeakHead term reduct := by
  rcases normal with ⟨body, rfl⟩ | neutral
  · exact not_weakHead_lam body reduct
  · exact neutral.not_weakHead reduct

end NamelessLambda.PureTerm
