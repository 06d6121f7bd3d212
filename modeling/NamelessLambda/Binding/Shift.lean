import NamelessLambda.Failure
import NamelessLambda.Term.Size

/-!
Contract: shifting a term under one more binder.

`shift cutoff` raises by one every variable at or above `cutoff`, and the cutoff
rises with each binder it passes, so bound variables and sentinels stay as they
are. It fails on a variable that has no greater level, function before argument.

Owns:
- `shift`;
- the shape and the node count that it keeps.
-/

namespace NamelessLambda.Term

/-- Makes room for one more binder around `cutoff` inner ones. -/
def shift (cutoff : Level) : Term → Except Failure Term
  | .var level =>
      if level < cutoff then .ok (.var level)
      else do return .var (← level.raise)
  | .lam body => do
      let inner ← cutoff.enter
      return .lam (← shift inner body)
  | .app function argument => do
      let function ← shift cutoff function
      let argument ← shift cutoff argument
      return .app function argument

theorem shift_var_eq_ok_iff {cutoff level : Level} {shifted : Term} :
    shift cutoff (.var level) = .ok shifted ↔
      (level < cutoff ∧ shifted = .var level) ∨
        (¬ level < cutoff ∧ ∃ raised, level.next? = some raised ∧ shifted = .var raised) := by
  unfold shift
  by_cases below : level < cutoff
  · rw [if_pos below]
    simp [below, eq_comm]
  · rw [if_neg below]
    simp [below, Failure.map_eq_ok_iff, Level.raise_eq_ok_iff]

theorem shift_var_eq_error_iff {cutoff level : Level} {failure : Failure} :
    shift cutoff (.var level) = .error failure ↔
      cutoff.toInt ≤ level.toInt ∧ level = .last ∧ failure = .unshiftable level := by
  unfold shift
  by_cases below : level < cutoff
  · rw [if_pos below]
    simp [Int.not_le.mpr (Int64.lt_iff_toInt_lt.mp below)]
  · rw [if_neg below]
    have above := Int.not_lt.mp (mt Int64.lt_iff_toInt_lt.mpr below)
    simp [above, Failure.map_eq_error_iff, Level.raise_eq_error_iff]

theorem shift_lam_eq_ok_iff {cutoff : Level} {body shifted : Term} :
    shift cutoff (.lam body) = .ok shifted ↔
      ∃ inner body', cutoff.next? = some inner ∧ shift inner body = .ok body' ∧
        shifted = .lam body' := by
  simp [shift, Failure.bind_eq_ok_iff, Failure.map_eq_ok_iff, Level.enter_eq_ok_iff]

theorem shift_app_eq_ok_iff {cutoff : Level} {function argument shifted : Term} :
    shift cutoff (.app function argument) = .ok shifted ↔
      ∃ function' argument', shift cutoff function = .ok function' ∧
        shift cutoff argument = .ok argument' ∧ shifted = .app function' argument' := by
  simp [shift, Failure.bind_eq_ok_iff, Failure.map_eq_ok_iff]

theorem shift_lam_eq_error_iff {cutoff : Level} {body : Term} {failure : Failure} :
    shift cutoff (.lam body) = .error failure ↔
      (cutoff = .last ∧ failure = .binderOverflow) ∨
        ∃ inner, cutoff.next? = some inner ∧ shift inner body = .error failure := by
  simp [shift, Failure.bind_eq_error_iff, Failure.map_eq_error_iff, Level.enter_eq_error_iff,
    Level.enter_eq_ok_iff]

theorem shift_app_eq_error_iff {cutoff : Level} {function argument : Term} {failure : Failure} :
    shift cutoff (.app function argument) = .error failure ↔
      shift cutoff function = .error failure ∨
        ∃ function', shift cutoff function = .ok function' ∧
          shift cutoff argument = .error failure := by
  simp [shift, Failure.bind_eq_error_iff, Failure.map_eq_error_iff]

theorem isVar_of_shift {cutoff : Level} {term shifted : Term}
    (ran : shift cutoff term = .ok shifted) : shifted.isVar = term.isVar := by
  cases term with
  | var level =>
      rcases shift_var_eq_ok_iff.mp ran with ⟨_, rfl⟩ | ⟨_, _, _, rfl⟩ <;> rfl
  | lam body =>
      obtain ⟨_, _, _, _, rfl⟩ := shift_lam_eq_ok_iff.mp ran
      rfl
  | app function argument =>
      obtain ⟨_, _, _, _, rfl⟩ := shift_app_eq_ok_iff.mp ran
      rfl

theorem nodeCount_of_shift {cutoff : Level} {term shifted : Term}
    (ran : shift cutoff term = .ok shifted) : shifted.nodeCount = term.nodeCount := by
  induction term generalizing cutoff shifted with
  | var level =>
      rcases shift_var_eq_ok_iff.mp ran with ⟨_, rfl⟩ | ⟨_, _, _, rfl⟩ <;> rfl
  | lam body inductionHypothesis =>
      obtain ⟨_, _, _, ranBody, rfl⟩ := shift_lam_eq_ok_iff.mp ran
      rw [nodeCount, nodeCount, inductionHypothesis ranBody]
  | app function argument functionHypothesis argumentHypothesis =>
      obtain ⟨_, _, ranFunction, ranArgument, rfl⟩ := shift_app_eq_ok_iff.mp ran
      rw [nodeCount, nodeCount, functionHypothesis ranFunction, argumentHypothesis ranArgument]

end NamelessLambda.Term
