import NamelessLambda.Proofs.PureTerm.Standard
import NamelessLambda.Proofs.Soundness

/-!
Contract: head steps find a weak head normal form whenever any reduction does.

A head step is the head contraction of the reading. Pure head contraction reaches
every weak head normal form that exists, so head steps can only miss one where
they fail on a level that cannot be moved.

Owns:
- head steps and weak head normal forms through the reading;
- `Blocked`, a step prevented by a level that cannot be moved;
- the completeness of stepping, and what a repetition or a sentinel at the head
  says about every other strategy.
-/

namespace NamelessLambda

open Relation

namespace Term

open PureTerm (WeakHead)

/-! ## Head steps through the reading -/

theorem weakHead_of_headStep {term next : Term} (stepped : term.headStep = .ok (some next)) :
    WeakHead term.toPure next.toPure := by
  obtain ⟨body, argument, rest, result, rfl, ran, rfl⟩ := headStep_eq_some_iff.mp stepped
  rw [toPure_applyAll, toPure_applyAll, toPure_of_substitute_zero ran]
  exact (WeakHead.contract body.toPure argument.toPure).applyAll (rest.map toPure)

theorem WeakHeadNormal.toPure {term : Term} (normal : term.WeakHeadNormal) :
    term.toPure.WeakHeadNormal := by
  rcases normal with ⟨body, rfl⟩ | ⟨level, arguments, plain, rfl⟩
  · exact .inl ⟨body.toPure, rfl⟩
  · right
    rw [toPure_applyAll, toPure_var_of_nonneg (level.not_isSentinel_iff.mp plain)]
    exact PureTerm.neutral_applyAll_iff.mpr (.var level.index)

/-- Head step that a level in the redex prevents. -/
def Blocked (term : Term) : Prop :=
  ∃ failure, term.headStep = .error failure ∧ failure.OfBinding term.binderDepth

theorem blocked_of_redex {body argument : Term} {failure : Failure}
    (failed : body.substitute argument 0 = .error failure) (rest : List Term) :
    ((Term.lam body).applyAll (argument :: rest)).Blocked := by
  refine ⟨failure, ?_, ofBinding_of_headRedex failed rest⟩
  rw [headStep_applyAll_lam, failed]
  rfl

/-- No step that was made is blocked. -/
theorem not_blocked_of_state? {start last state : Term} {steps count : Nat}
    (reached : start.state? count = some last) (lt : steps < count)
    (reachedState : start.state? steps = some state) : ¬ state.Blocked := by
  obtain ⟨next, reachedNext⟩ := Path.exists_after?_of_le (Nat.succ_le_of_lt lt) reached
  obtain ⟨before, reachedBefore, moved⟩ := Path.after?_succ_eq_some_iff_last.mp reachedNext
  cases reachedBefore.symm.trans reachedState
  rintro ⟨failure, failed, _⟩
  cases moved.symm.trans failed

/-- A term without a step is a weak head normal form, has a sentinel at the head or is blocked. -/
private theorem stopped_cases {term : Term} (stopped : Path.Stopped headStep term) :
    term.headStep = .ok none ∨
      (∃ code arguments, term.toPure = (PureTerm.constant code).applyAll arguments) ∨
      term.Blocked := by
  rcases Path.stopped_iff.mp stopped with settles | ⟨failure, failed⟩
  · exact .inl settles
  · right
    rcases cause_of_headStep failed with ⟨code, arguments, sentinel, rfl, _⟩ | binding
    · left
      refine ⟨code, arguments.map Term.toPure, ?_⟩
      rw [toPure_applyAll, toPure_var_of_isSentinel sentinel]
    · exact .inr ⟨failure, failed, binding⟩

/-- A head contraction of the reading is made by a head step, unless that step is blocked. -/
theorem headStep_of_weakHead {term : Term} {next : PureTerm} (step : WeakHead term.toPure next) :
    (∃ next', term.headStep = .ok (some next') ∧ next'.toPure = next) ∨ term.Blocked := by
  rcases Path.stopped_or_moves headStep term with stopped | ⟨next', moved⟩
  · rcases stopped_cases stopped with settles | ⟨code, arguments, same⟩ | blocked
    · have normal := (headStep_eq_none_iff.mp settles).toPure
      exact absurd step (normal.not_weakHead _)
    · rw [same] at step
      exact absurd step (PureTerm.not_weakHead_constant code arguments _)
    · exact .inr blocked
  · exact .inl ⟨next', moved, (weakHead_of_headStep moved).unique step⟩

/-- Head steps follow head contraction of the reading until one of them is blocked. -/
private theorem exists_state_of_weakHeads {start : Term} {exposed : PureTerm}
    (steps : ReflTransGen WeakHead start.toPure exposed) :
    ∃ count state, start.state? count = some state ∧ (state.toPure = exposed ∨ state.Blocked) := by
  induction steps with
  | refl => exact ⟨0, start, rfl, .inl rfl⟩
  | tail _ step inductionHypothesis =>
      obtain ⟨count, state, reached, rfl | blocked⟩ := inductionHypothesis
      · rcases headStep_of_weakHead step with ⟨next, moved, same⟩ | blocked
        · exact ⟨count + 1, next, Path.after?_succ_of_moves reached moved, .inl same⟩
        · exact ⟨count, state, reached, .inr blocked⟩
      · exact ⟨count, state, reached, .inr blocked⟩

/-- A term that any contractions take to a weak head normal form is stepped to one, or to a
blocked term. -/
private theorem exists_settled_of_contracts {start reduct : Term}
    (steps : ReflTransGen Contracts start reduct) (normal : reduct.WeakHeadNormal) :
    ∃ count state, start.state? count = some state ∧
      (state.headStep = .ok none ∨ state.Blocked) := by
  obtain ⟨exposed, headSteps, exposedNormal⟩ :=
    PureTerm.weakHead_normalizes (toPure_of_contracts steps) normal.toPure
  obtain ⟨count, state, reached, rfl | blocked⟩ := exists_state_of_weakHeads headSteps
  · have stopped : Path.Stopped headStep state := by
      intro next moved
      exact exposedNormal.not_weakHead _ (weakHead_of_headStep moved)
    refine ⟨count, state, reached, ?_⟩
    rcases stopped_cases stopped with settles | ⟨code, arguments, same⟩ | blocked
    · exact .inl settles
    · rw [same] at exposedNormal
      exact absurd exposedNormal (PureTerm.not_weakHeadNormal_constant code arguments)
    · exact .inr blocked
  · exact ⟨count, state, reached, .inr blocked⟩

end Term

open Term

/-! ## Completeness -/

theorem head_of_headStep {term : Term} {code : Level}
    (failed : term.headStep = .error (.divergent code)) :
    code.isSentinel = true ∧ ∃ arguments, term = (Term.var code).applyAll arguments := by
  rcases cause_of_headStep failed with ⟨own, arguments, sentinel, same, cause⟩ | binding
  · cases cause
    exact ⟨sentinel, arguments, same⟩
  · exact absurd rfl (binding.ne_divergent code)

theorem headStep_of_divergent {limits : Limits} {start : Term} {code : Level}
    (divergent : limits.normalize start = .error (.divergent code)) :
    ∃ count last, start.state? count = some last ∧ last.headStep = .error (.divergent code) := by
  obtain ⟨count, last, _, _, reached, fails | ⟨_, failsCleaning⟩⟩ :=
    (normalize_eq_error_iff rfl).mp divergent
  · exact ⟨count, last, reached, fails⟩
  · exact absurd rfl ((ofBinding_of_cleanAll failsCleaning).ne_divergent code)

/-- A repetition and a sentinel at the head rule out any weak head normal form. -/
private theorem not_weakHeadNormal_of_failure {limits : Limits} {start reduct : Term}
    {failure : Failure} (failed : limits.normalize start = .error failure)
    (verdict : (∃ steps, failure = .cyclic steps) ∨ ∃ code, failure = .divergent code)
    (steps : ReflTransGen Contracts start reduct) : ¬ reduct.WeakHeadNormal := by
  intro normal
  obtain ⟨count, state, reached, ends⟩ := exists_settled_of_contracts steps normal
  have stopped : Path.Stopped headStep state := by
    rcases ends with settles | ⟨_, fails, _⟩
    · exact Path.stopped_of_settled settles
    · exact Path.stopped_of_failed fails
  rcases verdict with ⟨visited, rfl⟩ | ⟨code, rfl⟩
  · obtain ⟨next, moved⟩ := exists_next_of_cyclic failed reached
    exact stopped next moved
  · obtain ⟨count', last, reachedLast, fails⟩ := headStep_of_divergent failed
    have stoppedLast := Path.stopped_of_failed fails
    obtain ⟨_, rfl⟩ := Path.stopped_unique reached reachedLast stopped stoppedLast
    rcases ends with settles | ⟨cause, failsBinding, binding⟩
    · rw [settles] at fails
      cases fails
    · rw [failsBinding] at fails
      exact binding.ne_divergent code (Except.error.inj fails)

/-- Stepping ends at a weak head normal form whenever any sequence of contractions leads to one,
unless a level in a redex prevents a step. So a repetition and a sentinel at the head are verdicts
on every strategy. -/
theorem stepping_complete (start : Term) :
    (∀ reduct, ReflTransGen Contracts start reduct → reduct.WeakHeadNormal →
      ∃ count state, start.state? count = some state ∧
        (state.headStep = .ok none ∨ state.Blocked)) ∧
    (∀ (limits : Limits) (failure : Failure), limits.normalize start = .error failure →
      ((∃ steps, failure = .cyclic steps) ∨ ∃ code, failure = .divergent code) →
      ∀ reduct, ReflTransGen Contracts start reduct → ¬ reduct.WeakHeadNormal) := by
  constructor
  · intro reduct steps normal
    exact exists_settled_of_contracts steps normal
  · intro limits failure failed verdict reduct steps
    exact not_weakHeadNormal_of_failure failed verdict steps

/-- Discarding a divergent argument leaves a binder, which the argument alone never becomes. -/
theorem discarded_omega_settles :
    (∃ count state,
      (Sample.constant.applyAll [Sample.identity, Sample.omega]).state? count = some state ∧
        (state.headStep = .ok none ∨ state.Blocked)) ∧
    (∀ reduct, ReflTransGen Contracts Sample.omega reduct → ¬ reduct.WeakHeadNormal) := by
  have reached : (Sample.constant.applyAll [Sample.identity, Sample.omega]).state? 2 =
      some Sample.identity := rfl
  have normal : Sample.identity.WeakHeadNormal := headStep_eq_none_iff.mp rfl
  have cyclic : Limits.standard.normalize Sample.omega = .error (.cyclic 1) := by
    apply normalize_eq_cyclic_iff.mpr
    refine ⟨freshRun_one ?_, by decide, 0, Nat.one_pos, Sample.omega, rfl, rfl⟩
    rw [size_eq_nodeCount]
    decide
  constructor
  · exact (stepping_complete _).1 Sample.identity (contracts_of_state? reached) normal
  · exact (stepping_complete _).2 .standard (.cyclic 1) cyclic (.inl ⟨1, rfl⟩)

end NamelessLambda
