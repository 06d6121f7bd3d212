import NamelessLambda.Proofs.PureTerm.Beta
import NamelessLambda.Proofs.Reading
import NamelessLambda.Proofs.Stepping

/-!
Contract: whatever evaluation returns is a beta reduct of what it was given.

`Contracts` replaces one redex by its substitution, at any position. Head steps
and cleaning passes are made of such contractions, and each of them is a beta
step between the readings of the terms, which knows nothing of levels that end.

Owns:
- `Contracts` and `BetaStep`;
- head steps, passes and evaluations as sequences of contractions.

Does not own:
- which reducts the evaluations find.
-/

namespace NamelessLambda

open Relation

namespace Term

/-- Contraction of one redex, wherever it stands, by a substitution that succeeds. -/
inductive Contracts : Term → Term → Prop where
  | redex {body argument : Term} {result : Substitution}
      (ran : body.substitute argument 0 = .ok result) :
      Contracts (.app (.lam body) argument) result.term
  | inBody {body body' : Term} : Contracts body body' → Contracts (.lam body) (.lam body')
  | inFunction {function function' : Term} (argument : Term) :
      Contracts function function' → Contracts (.app function argument) (.app function' argument)
  | inArgument (function : Term) {argument argument' : Term} :
      Contracts argument argument' → Contracts (.app function argument) (.app function argument')

/-- One step of beta reduction between the readings of two terms. -/
def BetaStep (term reduct : Term) : Prop := PureTerm.Beta term.toPure reduct.toPure

theorem Contracts.betaStep {term reduct : Term} (step : Contracts term reduct) :
    BetaStep term reduct := by
  unfold BetaStep
  induction step with
  | redex ran =>
      rw [toPure_of_substitute_zero ran]
      exact .contract _ _
  | inBody _ inductionHypothesis => exact .inBody inductionHypothesis
  | inFunction argument _ inductionHypothesis => exact .inFunction _ inductionHypothesis
  | inArgument function _ inductionHypothesis => exact .inArgument _ inductionHypothesis

/-! ## Contractions inside a term -/

private theorem contracts_inBody {body body' : Term} (steps : TransGen Contracts body body') :
    TransGen Contracts (.lam body) (.lam body') :=
  TransGen.lift Term.lam (fun _ _ step => .inBody step) _ _ steps

private theorem contracts_inFunction {function function' : Term} (argument : Term)
    (steps : TransGen Contracts function function') :
    TransGen Contracts (.app function argument) (.app function' argument) :=
  TransGen.lift (Term.app · argument) (fun _ _ step => .inFunction argument step) _ _ steps

private theorem contracts_inArgument (function : Term) {argument argument' : Term}
    (steps : TransGen Contracts argument argument') :
    TransGen Contracts (.app function argument) (.app function argument') :=
  TransGen.lift (Term.app function) (fun _ _ step => .inArgument function step) _ _ steps

private theorem Contracts.applyAll {head head' : Term} (step : Contracts head head')
    (arguments : List Term) : Contracts (head.applyAll arguments) (head'.applyAll arguments) := by
  induction arguments generalizing head head' with
  | nil => exact step
  | cons argument rest inductionHypothesis => exact inductionHypothesis (.inFunction argument step)

/-! ## Steps and passes -/

theorem contracts_of_headStep {term next : Term} (stepped : term.headStep = .ok (some next)) :
    Contracts term next := by
  obtain ⟨body, argument, rest, result, rfl, ran, rfl⟩ := headStep_eq_some_iff.mp stepped
  exact (Contracts.redex ran).applyAll rest

/-- An application whose parts have been cleaned contracts in the parts that changed. -/
private theorem contracts_of_rebuildApp {function argument rebuilt : Term}
    {function' argument' : Option Term}
    (inFunction : ∀ changed, function' = some changed → TransGen Contracts function changed)
    (inArgument : ∀ changed, argument' = some changed → TransGen Contracts argument changed)
    (changed : rebuildApp function argument function' argument' = some rebuilt) :
    TransGen Contracts (.app function argument) rebuilt := by
  obtain ⟨some, rfl⟩ := rebuildApp_eq_some_iff.mp changed
  cases function' with
  | none =>
      cases argument' with
      | none => simp at some
      | some argument' => exact contracts_inArgument function (inArgument argument' rfl)
  | some function' =>
      have first := contracts_inFunction argument (inFunction function' rfl)
      cases argument' with
      | none => exact first
      | some argument' =>
          have second := contracts_inArgument function' (inArgument argument' rfl)
          exact first.trans second

/-- A pass that changes a term contracts at least one redex. -/
theorem contracts_of_clean {term cleaned : Term} (ran : term.clean = .ok (some cleaned)) :
    TransGen Contracts term cleaned := by
  induction term generalizing cleaned with
  | var level => cases ran
  | lam body inductionHypothesis =>
      obtain ⟨inside, ranBody, same⟩ := clean_lam_eq_ok_iff.mp ran
      obtain ⟨body', rfl, rfl⟩ := Option.map_eq_some_iff.mp same.symm
      exact contracts_inBody (inductionHypothesis ranBody)
  | app function argument functionHypothesis argumentHypothesis =>
      rcases clean_app_eq_ok_iff.mp ran with
        ⟨reduced, contracted, same⟩ | ⟨_, function', argument', ranFunction, ranArgument, same⟩
      · obtain ⟨body, result, rfl, ranRedex, _, rfl⟩ := contractFrugal_eq_some_iff.mp contracted
        rw [Option.some.inj same]
        exact .single (.redex ranRedex)
      · apply contracts_of_rebuildApp _ _ same.symm
        · rintro changed rfl
          exact functionHypothesis ranFunction
        · rintro changed rfl
          exact argumentHypothesis ranArgument

theorem contracts_of_after?_clean {term last : Term} {passes : Nat}
    (reached : Path.after? clean passes term = some last) : ReflTransGen Contracts term last :=
  Path.reflTransGen_of_after? (fun _ _ ran => (contracts_of_clean ran).to_reflTransGen) reached

theorem contracts_of_state? {start state : Term} {steps : Nat}
    (reached : start.state? steps = some state) : ReflTransGen Contracts start state :=
  Path.reflTransGen_of_after? (fun _ _ ran => .single (contracts_of_headStep ran)) reached

theorem toPure_of_contracts {term reduct : Term} (steps : ReflTransGen Contracts term reduct) :
    ReflTransGen PureTerm.Beta term.toPure reduct.toPure :=
  ReflTransGen.lift toPure (fun _ _ step => Contracts.betaStep step) _ _ steps

end Term

/-! ## Evaluations -/

namespace Limits

open Term

theorem simplify_eq_ok_iff {limits : Limits} {term result : Term} :
    limits.simplify term = .ok result ↔
      term.size < limits.maxSize ∧
        ∃ passes, Path.after? clean passes term = some result ∧ result.clean = .ok none := by
  unfold Limits.simplify Run.simplify
  rw [outcome_simplifyFrom]
  by_cases large : limits.maxSize ≤ term.size
  · rw [if_pos large]
    constructor
    · intro impossible
      cases impossible
    · rintro ⟨small, _⟩
      omega
  · rw [if_neg large, Failure.map_eq_ok_iff]
    constructor
    · rintro ⟨cleaned, ran, rfl⟩
      exact ⟨Nat.not_le.mp large, cleaned.passes, cleanAll_eq_ok_iff.mp ran⟩
    · rintro ⟨_, passes, reached⟩
      exact ⟨⟨result, passes⟩, cleanAll_eq_ok_iff.mpr reached, rfl⟩

theorem contracts_of_simplify {limits : Limits} {term result : Term}
    (ran : limits.simplify term = .ok result) : ReflTransGen Contracts term result := by
  obtain ⟨_, passes, reached, _⟩ := simplify_eq_ok_iff.mp ran
  exact contracts_of_after?_clean reached

theorem contracts_of_normalize {limits : Limits} {term result : Term}
    (ran : limits.normalize term = .ok result) : ReflTransGen Contracts term result := by
  obtain ⟨steps, last, _, reached, _, _, passes, cleaned, _⟩ := normalize_eq_ok_iff.mp ran
  exact (contracts_of_state? reached).trans (contracts_of_after?_clean cleaned)

theorem evaluate_of_isLam {limits : Limits} {term : Term} (binder : term.isLam = true) :
    limits.evaluate term = limits.simplify term := by
  unfold Limits.evaluate Run.evaluate
  rw [if_pos binder]
  rfl

theorem evaluate_of_not_isLam {limits : Limits} {term : Term} (other : term.isLam = false) :
    limits.evaluate term = limits.normalize term := by
  unfold Limits.evaluate Run.evaluate
  rw [other]
  rfl

theorem contracts_of_evaluate {limits : Limits} {term result : Term}
    (ran : limits.evaluate term = .ok result) : ReflTransGen Contracts term result := by
  cases shape : term.isLam with
  | true =>
      rw [evaluate_of_isLam shape] at ran
      exact contracts_of_simplify ran
  | false =>
      rw [evaluate_of_not_isLam shape] at ran
      exact contracts_of_normalize ran

end Limits

open Term

theorem betaSteps_of_contracts {term reduct : Term} (steps : ReflTransGen Contracts term reduct) :
    ReflTransGen BetaStep term reduct :=
  ReflTransGen.mono (fun _ _ step => Contracts.betaStep step) _ _ steps

/-- Every result is a beta reduct, a head step is one beta step, and a pass that changes a term
is at least one. Beta steps are steps between readings, and the reading loses nothing. -/
theorem evaluation_reduces (limits : Limits) (term : Term) :
    Function.Injective toPure ∧
    (∀ result, limits.simplify term = .ok result → ReflTransGen BetaStep term result) ∧
    (∀ result, limits.normalize term = .ok result → ReflTransGen BetaStep term result) ∧
    (∀ result, limits.evaluate term = .ok result → ReflTransGen BetaStep term result) ∧
    (∀ next, term.headStep = .ok (some next) → BetaStep term next) ∧
    (∀ cleaned, term.clean = .ok (some cleaned) → TransGen BetaStep term cleaned) := by
  refine ⟨toPure_injective, ?_, ?_, ?_, ?_, ?_⟩
  · intro result ran
    exact betaSteps_of_contracts (Limits.contracts_of_simplify ran)
  · intro result ran
    exact betaSteps_of_contracts (Limits.contracts_of_normalize ran)
  · intro result ran
    exact betaSteps_of_contracts (Limits.contracts_of_evaluate ran)
  · intro next stepped
    exact (contracts_of_headStep stepped).betaStep
  · intro cleaned ran
    exact TransGen.mono (fun _ _ step => Contracts.betaStep step) _ _ (contracts_of_clean ran)

/-- The free variable `0` moves under the second binder of the constant function as `1`. -/
theorem constant_reduces :
    (Limits.standard.simplify (Sample.constant.applyAll [0]) = .ok (lambda 1 1) ∧
      Limits.standard.normalize (Sample.constant.applyAll [0]) = .ok (lambda 1 1) ∧
      Limits.standard.evaluate (Sample.constant.applyAll [0]) = .ok (lambda 1 1) ∧
      (Sample.constant.applyAll [0]).headStep = .ok (some (lambda 1 1)) ∧
      (Sample.constant.applyAll [0]).clean = .ok (some (lambda 1 1))) ∧
    ReflTransGen BetaStep (Sample.constant.applyAll [0]) (lambda 1 1) ∧
      BetaStep (Sample.constant.applyAll [0]) (lambda 1 1) ∧
      TransGen BetaStep (Sample.constant.applyAll [0]) (lambda 1 1) := by
  have stepped : (Sample.constant.applyAll [0]).headStep = .ok (some (lambda 1 1)) := rfl
  have cleaned : (Sample.constant.applyAll [0]).clean = .ok (some (lambda 1 1)) := rfl
  have simplified : Limits.standard.simplify (Sample.constant.applyAll [0]) = .ok (lambda 1 1) :=
    Limits.simplify_eq_ok_iff.mpr ⟨by rw [size_eq_nodeCount]; decide, 1, rfl, rfl⟩
  have normalized :
      Limits.standard.normalize (Sample.constant.applyAll [0]) = .ok (lambda 1 1) := by
    refine normalize_eq_ok_iff.mpr ⟨1, lambda 1 1, by decide, rfl, rfl, ?_, 0, rfl, rfl⟩
    intro index le state reached
    have either : index = 0 ∨ index = 1 := by omega
    rcases either with rfl | rfl
    · rw [← Option.some.inj reached, size_eq_nodeCount]
      decide
    · rw [← Option.some.inj reached, size_eq_nodeCount]
      decide
  have evaluated : Limits.standard.evaluate (Sample.constant.applyAll [0]) = .ok (lambda 1 1) :=
    (Limits.evaluate_of_not_isLam rfl).trans normalized
  have sound := evaluation_reduces .standard (Sample.constant.applyAll [0])
  exact ⟨⟨simplified, normalized, evaluated, stepped, cleaned⟩, sound.2.2.2.1 _ evaluated,
    sound.2.2.2.2.1 _ stepped, sound.2.2.2.2.2 _ cleaned⟩

end NamelessLambda
