import NamelessLambda.Proofs.PureTerm.Beta

/-!
Contract: head contraction finds every weak head normal form.

A standard reduction contracts at the head first and then, at the shape it has
exposed, goes on inside the parts. `standard_of_reduces` brings any reduction
sequence into this order, and `weakHead_normalizes` reads off its head part.

Owns:
- `Standard` and its stability under contraction and substitution;
- the normalization theorem for head contraction.
-/

namespace NamelessLambda.PureTerm

open Relation

/-- Reduction by head contractions first and inside the parts afterwards. -/
inductive Standard : PureTerm → PureTerm → Prop where
  | var {term : PureTerm} {index : Nat} (exposed : ReflTransGen WeakHead term (.var index)) :
      Standard term (.var index)
  | constant {term : PureTerm} {code : Level}
      (exposed : ReflTransGen WeakHead term (.constant code)) : Standard term (.constant code)
  | lam {term body body' : PureTerm} (exposed : ReflTransGen WeakHead term (.lam body))
      (inBody : Standard body body') : Standard term (.lam body')
  | app {term function function' argument argument' : PureTerm}
      (exposed : ReflTransGen WeakHead term (.app function argument))
      (inFunction : Standard function function') (inArgument : Standard argument argument') :
      Standard term (.app function' argument')

private theorem Standard.refl (term : PureTerm) : Standard term term := by
  induction term with
  | var index => exact .var .refl
  | constant code => exact .constant .refl
  | lam body inductionHypothesis => exact .lam .refl inductionHypothesis
  | app function argument functionHypothesis argumentHypothesis =>
      exact .app .refl functionHypothesis argumentHypothesis

private theorem Standard.prepend {term middle reduct : PureTerm}
    (before : ReflTransGen WeakHead term middle) (standard : Standard middle reduct) :
    Standard term reduct := by
  cases standard with
  | var exposed => exact .var (before.trans exposed)
  | constant exposed => exact .constant (before.trans exposed)
  | lam exposed inBody => exact .lam (before.trans exposed) inBody
  | app exposed inFunction inArgument => exact .app (before.trans exposed) inFunction inArgument

private theorem Standard.rename {term reduct : PureTerm} (standard : Standard term reduct)
    (placement : Nat → Nat) : Standard (term.rename placement) (reduct.rename placement) := by
  induction standard generalizing placement with
  | var exposed => exact .var (weakHeads_rename exposed placement)
  | constant exposed => exact .constant (weakHeads_rename exposed placement)
  | lam exposed _ inductionHypothesis =>
      exact .lam (weakHeads_rename exposed placement) (inductionHypothesis _)
  | app exposed _ _ functionHypothesis argumentHypothesis =>
      exact .app (weakHeads_rename exposed placement) (functionHypothesis _) (argumentHypothesis _)

private theorem Standard.bindInnermost {before after : Nat → PureTerm}
    (pointwise : ∀ index, Standard (before index) (after index)) (index : Nat) :
    Standard (PureTerm.bindInnermost before index) (PureTerm.bindInnermost after index) := by
  cases index with
  | zero => exact .refl _
  | succ index => exact (pointwise index).rename Nat.succ

/-- Standard reduction of a term and of everything assigned to its variables combine. -/
theorem Standard.assign {term reduct : PureTerm} (standard : Standard term reduct)
    {before after : Nat → PureTerm} (pointwise : ∀ index, Standard (before index) (after index)) :
    Standard (term.assign before) (reduct.assign after) := by
  induction standard generalizing before after with
  | var exposed => exact (pointwise _).prepend (weakHeads_assign exposed before)
  | constant exposed => exact .constant (weakHeads_assign exposed before)
  | lam exposed _ inductionHypothesis =>
      exact .lam (weakHeads_assign exposed before)
        (inductionHypothesis (Standard.bindInnermost pointwise))
  | app exposed _ _ functionHypothesis argumentHypothesis =>
      exact .app (weakHeads_assign exposed before) (functionHypothesis pointwise)
        (argumentHypothesis pointwise)

private theorem Standard.instantiate {body body' argument argument' : PureTerm}
    (inBody : Standard body body') (inArgument : Standard argument argument') :
    Standard (body.instantiate argument) (body'.instantiate argument') := by
  apply inBody.assign
  intro index
  cases index with
  | zero => exact inArgument
  | succ index => exact .refl _

/-- A contraction after a standard reduction is absorbed, wherever it happens. -/
theorem Standard.beta {term middle reduct : PureTerm} (standard : Standard term middle)
    (step : Beta middle reduct) : Standard term reduct := by
  induction step generalizing term with
  | contract body argument =>
      -- The binder of the redex was exposed by head contractions in function position.
      cases standard with
      | app exposed inFunction inArgument =>
          cases inFunction with
          | lam exposedBinder inBody =>
              have contracted := (exposed.trans (weakHeads_inFunction exposedBinder _)).tail
                (.contract _ _)
              exact (inBody.instantiate inArgument).prepend contracted
  | inBody _ inductionHypothesis =>
      cases standard with
      | lam exposed inBody => exact .lam exposed (inductionHypothesis inBody)
  | inFunction argument _ inductionHypothesis =>
      cases standard with
      | app exposed inFunction inArgument =>
          exact .app exposed (inductionHypothesis inFunction) inArgument
  | inArgument function _ inductionHypothesis =>
      cases standard with
      | app exposed inFunction inArgument =>
          exact .app exposed inFunction (inductionHypothesis inArgument)

/-- Every reduction sequence can be brought into standard order. -/
theorem standard_of_reduces {term reduct : PureTerm} (steps : ReflTransGen Beta term reduct) :
    Standard term reduct := by
  induction steps with
  | refl => exact .refl term
  | tail _ step inductionHypothesis => exact inductionHypothesis.beta step

private theorem Standard.weakHeads_neutral {term reduct : PureTerm}
    (standard : Standard term reduct) (neutral : Neutral reduct) :
    ∃ exposed, ReflTransGen WeakHead term exposed ∧ Neutral exposed := by
  induction standard with
  | var exposed => exact ⟨_, exposed, neutral⟩
  | constant _ => cases neutral
  | lam _ _ _ => cases neutral
  | @app _ _ _ argument _ exposed _ _ functionHypothesis _ =>
      cases neutral with
      | app _ neutralFunction =>
          obtain ⟨head, steps, neutralHead⟩ := functionHypothesis neutralFunction
          exact ⟨.app head argument, exposed.trans (weakHeads_inFunction steps argument),
            .app argument neutralHead⟩

/-- If any reduction sequence ends in a weak head normal form, head contraction reaches one. -/
theorem weakHead_normalizes {term reduct : PureTerm} (steps : ReflTransGen Beta term reduct)
    (normal : WeakHeadNormal reduct) :
    ∃ exposed, ReflTransGen WeakHead term exposed ∧ WeakHeadNormal exposed := by
  have standard := standard_of_reduces steps
  rcases normal with ⟨body, rfl⟩ | neutral
  · cases standard with
    | lam exposed _ => exact ⟨_, exposed, .inl ⟨_, rfl⟩⟩
  · obtain ⟨exposed, headSteps, neutralExposed⟩ := standard.weakHeads_neutral neutral
    exact ⟨exposed, headSteps, .inr neutralExposed⟩

end NamelessLambda.PureTerm
