import NamelessLambda.Proofs.PureTerm.Beta

/-!
Contract: head contraction of a reduct needs no more steps than that of the term.

A head contraction on one side is matched by one head contraction on the other,
or by none where the contracted redex is already gone. What is left over is more
contractions, since a redex in the argument may have been copied or dropped.

Owns:
- the stability of contraction under renaming and substitution;
- the simulation of one head contraction after any sequence of contractions.
-/

namespace NamelessLambda.PureTerm

open Relation

/-! ## Contraction under substitution -/

theorem Beta.rename {term reduct : PureTerm} (step : Beta term reduct) (placement : Nat → Nat) :
    Beta (term.rename placement) (reduct.rename placement) := by
  induction step generalizing placement with
  | contract body argument =>
      rw [rename_instantiate]
      exact .contract _ _
  | inBody _ inductionHypothesis => exact .inBody (inductionHypothesis _)
  | inFunction argument _ inductionHypothesis => exact .inFunction _ (inductionHypothesis placement)
  | inArgument function _ inductionHypothesis => exact .inArgument _ (inductionHypothesis placement)

theorem Beta.assign {term reduct : PureTerm} (step : Beta term reduct)
    (assignment : Nat → PureTerm) : Beta (term.assign assignment) (reduct.assign assignment) := by
  induction step generalizing assignment with
  | contract body argument =>
      rw [assign_instantiate]
      exact .contract _ _
  | inBody _ inductionHypothesis => exact .inBody (inductionHypothesis _)
  | inFunction argument _ inductionHypothesis =>
      exact .inFunction _ (inductionHypothesis assignment)
  | inArgument function _ inductionHypothesis =>
      exact .inArgument _ (inductionHypothesis assignment)

private theorem reduces_lam {body body' : PureTerm} (steps : ReflTransGen Beta body body') :
    ReflTransGen Beta (.lam body) (.lam body') :=
  ReflTransGen.lift PureTerm.lam (fun _ _ step => .inBody step) _ _ steps

private theorem reduces_app {function function' argument argument' : PureTerm}
    (inFunction : ReflTransGen Beta function function')
    (inArgument : ReflTransGen Beta argument argument') :
    ReflTransGen Beta (.app function argument) (.app function' argument') := by
  have first : ReflTransGen Beta (.app function argument) (.app function' argument) :=
    ReflTransGen.lift (PureTerm.app · argument) (fun _ _ step => .inFunction argument step) _ _
      inFunction
  have second : ReflTransGen Beta (.app function' argument) (.app function' argument') :=
    ReflTransGen.lift (PureTerm.app function') (fun _ _ step => .inArgument function' step) _ _
      inArgument
  exact first.trans second

private theorem reduces_bindInnermost {before after : Nat → PureTerm}
    (pointwise : ∀ index, ReflTransGen Beta (before index) (after index)) (index : Nat) :
    ReflTransGen Beta (bindInnermost before index) (bindInnermost after index) := by
  cases index with
  | zero => exact .refl
  | succ index =>
      exact ReflTransGen.lift (rename Nat.succ) (fun _ _ step => step.rename Nat.succ) _ _
        (pointwise index)

/-- Contractions in what is assigned to a variable happen once for each of its occurrences. -/
private theorem reduces_assign (term : PureTerm) {before after : Nat → PureTerm}
    (pointwise : ∀ index, ReflTransGen Beta (before index) (after index)) :
    ReflTransGen Beta (term.assign before) (term.assign after) := by
  induction term generalizing before after with
  | var index => exact pointwise index
  | constant code => exact .refl
  | lam body inductionHypothesis =>
      exact reduces_lam (inductionHypothesis (reduces_bindInnermost pointwise))
  | app function argument functionHypothesis argumentHypothesis =>
      exact reduces_app (functionHypothesis pointwise) (argumentHypothesis pointwise)

private theorem reduces_instantiate (body : PureTerm) {argument argument' : PureTerm}
    (step : Beta argument argument') :
    ReflTransGen Beta (body.instantiate argument) (body.instantiate argument') := by
  apply reduces_assign
  intro index
  cases index with
  | zero => exact .single step
  | succ index => exact .refl

/-! ## Simulation -/

/-- After one contraction, a head contraction is still to be made or has just been made. -/
private theorem WeakHead.after_beta {term next other : PureTerm} (step : WeakHead term next)
    (beta : Beta term other) :
    ReflTransGen Beta next other ∨
      ∃ next', WeakHead other next' ∧ ReflTransGen Beta next next' := by
  induction step generalizing other with
  | contract body argument =>
      cases beta with
      | contract _ _ => exact .inl .refl
      | inFunction _ inside =>
          cases inside with
          | inBody inBody => exact .inr ⟨_, .contract _ argument, .single (inBody.assign _)⟩
      | inArgument _ inside => exact .inr ⟨_, .contract body _, reduces_instantiate body inside⟩
  | @inFunction function function' argument headStep inductionHypothesis =>
      cases beta with
      | contract body _ => exact absurd headStep (not_weakHead_lam body function')
      | inFunction _ inside =>
          rcases inductionHypothesis inside with already | ⟨next', headStep', steps⟩
          · exact .inl (reduces_app already .refl)
          · exact .inr ⟨_, .inFunction argument headStep', reduces_app steps .refl⟩
      | inArgument _ inside =>
          exact .inr ⟨_, .inFunction _ headStep, .single (.inArgument function' inside)⟩

/-- After any contractions, a head contraction is matched by at most one. -/
theorem WeakHead.after_reduces {term next other : PureTerm} (step : WeakHead term next)
    (steps : ReflTransGen Beta term other) :
    ReflTransGen Beta next other ∨
      ∃ next', WeakHead other next' ∧ ReflTransGen Beta next next' := by
  induction steps with
  | refl => exact .inr ⟨next, step, .refl⟩
  | tail _ beta inductionHypothesis =>
      rcases inductionHypothesis with already | ⟨middle, headStep, before⟩
      · exact .inl (already.tail beta)
      · rcases headStep.after_beta beta with after | ⟨next', headStep', after⟩
        · exact .inl (before.trans after)
        · exact .inr ⟨next', headStep', before.trans after⟩

end NamelessLambda.PureTerm
