import NamelessLambda.Proofs.ShiftExchange
import NamelessLambda.Proofs.Soundness

/-!
Contract: evaluation of a shifted term is the shifted evaluation.

A shift leaves the sizes of terms and the copies of arguments as they are, and
it never makes two terms equal. So a run on the shifted term passes the same
checks as one on the term itself, as long as its levels can be moved.

Owns:
- the shift as a relation in lock step, and the evaluations that follow from it.
-/

namespace NamelessLambda

open Term

variable {limits : Limits} {cutoff : Level}

/-- With room for the binders of every term that is evaluated, a shift keeps lock step. -/
private theorem lockStep_shifted (nonneg : 0 ≤ cutoff.toInt)
    (room : cutoff.toInt + limits.maxSize ≤ 2 ^ 63) :
    LockStep .unshifted limits.maxSize (Shifted cutoff) where
  guards _ _ := rfl
  nodeCount_eq ran := (nodeCount_of_shift ran).symm
  isLam_eq ran := isLam_of_shift ran
  eq_iff ran ran' := by
    constructor
    · rintro rfl
      exact Except.ok.inj (ran.symm.trans ran')
    · rintro rfl
      exact shift_injective ran ran'
  headStep ran small := by
    have greatest := Level.toInt_last
    exact mirrored_headStep nonneg (by omega) ran
  clean ran small := by
    have greatest := Level.toInt_last
    exact mirrored_clean nonneg (by omega) ran

/-- Runs in lock step with a shifted run agree with it in every respect but the levels. -/
private theorem Run.Mirrored.agrees {run other : Run}
    (mirrored : Run.Mirrored .unshifted (Shifted cutoff) run other)
    (movable : ∀ level, other.outcome ≠ .error (.unshiftable level)) :
    (∀ result', other.outcome = .ok result' →
      ∃ result, run.outcome = .ok result ∧ result.shift cutoff = .ok result') ∧
    (∀ failure, other.outcome = .error failure → run.outcome = .error failure) ∧
    Event.AllRelated (Shifted cutoff) run.events other.events := by
  have outcome := mirrored.outcome
  refine ⟨?_, ?_, mirrored.events ?_⟩
  · intro result' ran
    rw [ran] at outcome
    exact outcome.exists_ok
  · intro failure failed
    rw [failed] at outcome
    rcases outcome.excused_or_exists_error with ⟨level, rfl⟩ | ⟨cause, ran, rfl⟩
    · exact absurd failed (movable level)
    · exact ran
  · rintro _ failed ⟨level, rfl⟩
    exact movable level failed

/-- If the free variables of a term are shifted and an evaluation does not fail on a level that
cannot move, then the term itself has the same outcome, with the result before the shift, after the
same steps and passes. -/
theorem evaluation_of_shifted (limits : Limits) (cutoff : Level) {term shifted : Term}
    (nonneg : 0 ≤ cutoff) (room : cutoff.toInt + limits.maxSize ≤ 2 ^ 63)
    (ran : term.shift cutoff = .ok shifted) :
    ∀ evaluation ∈ [Run.simplify, Run.normalize, Run.evaluate],
      (∀ level, (evaluation limits shifted).outcome ≠ .error (.unshiftable level)) →
        (∀ result', (evaluation limits shifted).outcome = .ok result' →
          ∃ result, (evaluation limits term).outcome = .ok result ∧
            result.shift cutoff = .ok result') ∧
        (∀ failure, (evaluation limits shifted).outcome = .error failure →
          (evaluation limits term).outcome = .error failure) ∧
        Event.AllRelated (Shifted cutoff) (evaluation limits term).events
          (evaluation limits shifted).events ∧
        Event.stepCount (evaluation limits term).events =
          Event.stepCount (evaluation limits shifted).events ∧
        (evaluation limits term).events.toList.map Event.measurements =
          (evaluation limits shifted).events.toList.map Event.measurements := by
  have lock := lockStep_shifted (Int64.le_iff_toInt_le.mp nonneg) room
  have mirrored : ∀ evaluation ∈ [Run.simplify, Run.normalize, Run.evaluate],
      Run.Mirrored .unshifted (Shifted cutoff) (evaluation limits term)
        (evaluation limits shifted) :=
    forall_evaluations (lock.simplify ran) (lock.normalize ran) (lock.evaluate ran)
  intro evaluation member movable
  obtain ⟨results, failures, reports⟩ := (mirrored evaluation member).agrees movable
  exact ⟨results, failures, reports, reports.stepCount_eq, reports.measurements_eq⟩

/-- The variable `0` of the argument lies below the cutoff and stays, the variable `1` moves. -/
theorem constant_of_shifted :
    (∃ result,
      (Run.normalize .standard (Sample.constant.applyAll [applyAll 0 [1]])).outcome = .ok result ∧
        result.shift 1 = .ok (lambda 1 (applyAll 1 [3]))) ∧
      Event.stepCount (Run.normalize .standard (Sample.constant.applyAll [applyAll 0 [1]])).events =
        Event.stepCount
          (Run.normalize .standard (Sample.constant.applyAll [applyAll 0 [2]])).events := by
  have ran : (Run.normalize .standard (Sample.constant.applyAll [applyAll 0 [2]])).outcome =
      .ok (lambda 1 (applyAll 1 [3])) :=
    normalize_of_single_step (by decide) (by decide) rfl (by decide) rfl rfl
  have movable : ∀ level,
      (Run.normalize .standard (Sample.constant.applyAll [applyAll 0 [2]])).outcome ≠
        .error (.unshiftable level) := by
    intro level failed
    rw [ran] at failed
    cases failed
  have agrees := evaluation_of_shifted .standard 1 (by decide) (by decide)
    (rfl : (Sample.constant.applyAll [applyAll 0 [1]]).shift 1 =
      .ok (Sample.constant.applyAll [applyAll 0 [2]])) Run.normalize (by simp) movable
  exact ⟨agrees.1 _ ran, agrees.2.2.2.1⟩

end NamelessLambda
