import Mathlib.Data.List.Induction
import NamelessLambda.Proofs.PureTerm.Beta

/-!
Contract: pure terms as a head applied to some arguments.

Owns:
- `applyAll`, and head contraction at the head of a spine;
- spines with a constant at the head, where head contraction stops;
- spines with a rigid head, which contractions keep.
-/

namespace NamelessLambda.PureTerm

open Relation

def applyAll (head : PureTerm) (arguments : List PureTerm) : PureTerm := arguments.foldl .app head

private theorem applyAll_append (head : PureTerm) (first second : List PureTerm) :
    head.applyAll (first ++ second) = (head.applyAll first).applyAll second :=
  List.foldl_append

theorem WeakHead.applyAll {head head' : PureTerm} (step : WeakHead head head')
    (arguments : List PureTerm) :
    WeakHead (head.applyAll arguments) (head'.applyAll arguments) := by
  induction arguments generalizing head head' with
  | nil => exact step
  | cons argument rest inductionHypothesis => exact inductionHypothesis (.inFunction argument step)

private theorem neutral_app_iff {function argument : PureTerm} :
    Neutral (.app function argument) ↔ Neutral function := by
  constructor
  · intro neutral
    cases neutral with
    | app _ inside => exact inside
  · exact .app argument

theorem neutral_applyAll_iff {head : PureTerm} {arguments : List PureTerm} :
    Neutral (head.applyAll arguments) ↔ Neutral head := by
  induction arguments generalizing head with
  | nil => exact Iff.rfl
  | cons argument rest inductionHypothesis => exact inductionHypothesis.trans neutral_app_iff

private theorem applyAll_ne_lam {head : PureTerm} (notLam : ∀ body, head ≠ .lam body)
    (arguments : List PureTerm) (body : PureTerm) : head.applyAll arguments ≠ .lam body := by
  induction arguments generalizing head with
  | nil => exact notLam body
  | cons argument rest inductionHypothesis =>
      apply inductionHypothesis
      intro body same
      cases same

/-- Arguments do not set a head in motion that is no binder and has no step of its own. -/
private theorem not_weakHead_applyAll {head : PureTerm} (notLam : ∀ body, head ≠ .lam body)
    (stopped : ∀ reduct, ¬ WeakHead head reduct) (arguments : List PureTerm) (reduct : PureTerm) :
    ¬ WeakHead (head.applyAll arguments) reduct := by
  induction arguments generalizing head with
  | nil => exact stopped reduct
  | cons argument rest inductionHypothesis =>
      apply inductionHypothesis
      · intro body same
        cases same
      · intro next step
        cases step with
        | contract body _ => exact notLam body rfl
        | inFunction _ inside => exact stopped _ inside

section Constant

variable (code : Level) (arguments : List PureTerm)

private theorem constant_ne_lam (body : PureTerm) : PureTerm.constant code ≠ .lam body := by
  intro same
  cases same

theorem not_weakHead_constant (reduct : PureTerm) :
    ¬ WeakHead ((PureTerm.constant code).applyAll arguments) reduct := by
  apply not_weakHead_applyAll (constant_ne_lam code)
  intro next step
  cases step

/-- A constant at the head stops head contraction, but not at a weak head normal form. -/
theorem not_weakHeadNormal_constant :
    ¬ WeakHeadNormal ((PureTerm.constant code).applyAll arguments) := by
  intro normal
  rcases normal with ⟨body, same⟩ | neutral
  · exact applyAll_ne_lam (constant_ne_lam code) arguments body same
  · cases neutral_applyAll_iff.mp neutral

end Constant

/-! ## Rigid heads -/

/-- Head that no contraction changes, whatever it is applied to. -/
inductive Rigid : PureTerm → Prop where
  | var (index : Nat) : Rigid (.var index)
  | constant (code : Level) : Rigid (.constant code)

private theorem Rigid.ne_lam {head : PureTerm} (rigid : Rigid head) (body : PureTerm) :
    head ≠ .lam body := by
  rintro rfl
  cases rigid

private theorem Rigid.not_beta {head : PureTerm} (rigid : Rigid head) (reduct : PureTerm) :
    ¬ Beta head reduct := by
  intro step
  cases rigid with
  | var index => cases step
  | constant code => cases step

/-- Contractions under a rigid head are made inside its arguments. -/
private theorem spine_of_beta {head reduct : PureTerm} {arguments : List PureTerm}
    (rigid : Rigid head) (step : Beta (head.applyAll arguments) reduct) :
    ∃ arguments', arguments'.length = arguments.length ∧ reduct = head.applyAll arguments' := by
  -- The last argument is the outermost one, so the induction is on the list from its end.
  induction arguments using List.reverseRecOn generalizing reduct with
  | nil => exact absurd step (rigid.not_beta reduct)
  | append_singleton before last inductionHypothesis =>
      rw [applyAll_append] at step
      generalize shape : head.applyAll before = function at step
      cases step with
      | contract body _ => exact absurd shape (applyAll_ne_lam rigid.ne_lam before body)
      | inFunction _ inside =>
          rw [← shape] at inside
          obtain ⟨before', length, rfl⟩ := inductionHypothesis inside
          refine ⟨before' ++ [last], ?_, (applyAll_append head before' [last]).symm⟩
          rw [List.length_append, List.length_append, length]
      | @inArgument _ _ last' inside =>
          rw [← shape]
          refine ⟨before ++ [last'], ?_, (applyAll_append head before [last']).symm⟩
          rw [List.length_append, List.length_append, List.length_singleton, List.length_singleton]

theorem spine_of_reduces {head reduct : PureTerm} {arguments : List PureTerm} (rigid : Rigid head)
    (steps : ReflTransGen Beta (head.applyAll arguments) reduct) :
    ∃ arguments', arguments'.length = arguments.length ∧ reduct = head.applyAll arguments' := by
  induction steps with
  | refl => exact ⟨arguments, rfl, rfl⟩
  | tail _ step inductionHypothesis =>
      obtain ⟨middle, length, rfl⟩ := inductionHypothesis
      obtain ⟨arguments', length', same⟩ := spine_of_beta rigid step
      exact ⟨arguments', length'.trans length, same⟩

theorem lam_of_reduces {body reduct : PureTerm} (steps : ReflTransGen Beta (.lam body) reduct) :
    ∃ body', reduct = .lam body' := by
  induction steps with
  | refl => exact ⟨body, rfl⟩
  | tail _ step inductionHypothesis =>
      obtain ⟨middle, rfl⟩ := inductionHypothesis
      cases step with
      | inBody _ => exact ⟨_, rfl⟩

end NamelessLambda.PureTerm
