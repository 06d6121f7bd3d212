import NamelessLambda.Proofs.FailureCauses
import NamelessLambda.Proofs.Iteration

/-!
Contract: cleaning until nothing changes, as a run of cleaning passes.

Owns:
- the last term of the run, which `cleanAll` returns or fails on;
- the size that a run of passes takes away;
- the causes of a failed cleaning.

Does not own:
- the shape of a term that no pass changes.
-/

namespace NamelessLambda.Term

theorem cleanAllFrom_of_clean_error {passes : Nat} {term : Term} {failure : Failure}
    (failed : term.clean = .error failure) : cleanAllFrom passes term = .error failure := by
  rw [cleanAllFrom]
  split <;> simp_all

theorem cleanAllFrom_of_clean_none {passes : Nat} {term : Term}
    (settled : term.clean = .ok none) : cleanAllFrom passes term = .ok ⟨term, passes⟩ := by
  rw [cleanAllFrom]
  split <;> simp_all

theorem cleanAllFrom_of_clean_some {passes : Nat} {term next : Term}
    (moved : term.clean = .ok (some next)) :
    cleanAllFrom passes term = cleanAllFrom (passes + 1) next := by
  rw [cleanAllFrom]
  split <;> simp_all

/-- Cleaning goes on from the term that some passes lead to. -/
private theorem cleanAllFrom_of_after? {passes more : Nat} {term last : Term}
    (reached : Path.after? clean more term = some last) :
    cleanAllFrom passes term = cleanAllFrom (passes + more) last := by
  induction more generalizing passes term with
  | zero => rw [Path.after?_zero_eq_some_iff.mp reached, Nat.add_zero]
  | succ more inductionHypothesis =>
      obtain ⟨next, moved, reachedLast⟩ := Path.after?_succ_eq_some_iff.mp reached
      rw [cleanAllFrom_of_clean_some moved, inductionHypothesis reachedLast]
      congr 1
      omega

/-- Passes that change something lead to a term that no pass changes. -/
theorem exists_clean_stopped (term : Term) :
    ∃ passes last, Path.after? clean passes term = some last ∧ Path.Stopped clean last := by
  induction size : term.nodeCount using Nat.strongRecOn generalizing term with
  | ind size inductionHypothesis =>
      rcases Path.stopped_or_moves clean term with stopped | ⟨next, moved⟩
      · exact ⟨0, term, rfl, stopped⟩
      · have smaller := nodeCount_of_clean moved
        obtain ⟨passes, last, reached, stopped⟩ :=
          inductionHypothesis next.nodeCount (by omega) next rfl
        exact ⟨passes + 1, last, Path.after?_succ_eq_some_iff.mpr ⟨next, moved, reached⟩, stopped⟩

theorem cleanAll_of_clean_none {term : Term} (settled : term.clean = .ok none) :
    term.cleanAll = .ok ⟨term, 0⟩ :=
  cleanAllFrom_of_clean_none settled

theorem cleanAll_of_clean_error {term : Term} {failure : Failure}
    (failed : term.clean = .error failure) : term.cleanAll = .error failure :=
  cleanAllFrom_of_clean_error failed

/-- Earlier passes are only counted. -/
theorem cleanAllFrom_eq_map (passes : Nat) (term : Term) :
    cleanAllFrom passes term =
      (fun cleaned => ⟨cleaned.term, cleaned.passes + passes⟩) <$> term.cleanAll := by
  obtain ⟨more, last, reached, stopped⟩ := exists_clean_stopped term
  rw [cleanAll, cleanAllFrom_of_after? reached, cleanAllFrom_of_after? reached]
  rcases Path.stopped_iff.mp stopped with settled | ⟨failure, failed⟩
  · rw [cleanAllFrom_of_clean_none settled, cleanAllFrom_of_clean_none settled, Nat.zero_add,
      Nat.add_comm]
    rfl
  · rw [cleanAllFrom_of_clean_error failed, cleanAllFrom_of_clean_error failed]
    rfl

theorem cleanAll_eq_ok_iff {term : Term} {cleaned : Cleaned} :
    term.cleanAll = .ok cleaned ↔
      Path.after? clean cleaned.passes term = some cleaned.term ∧
        cleaned.term.clean = .ok none := by
  constructor
  · intro ran
    obtain ⟨passes, last, reached, stopped⟩ := exists_clean_stopped term
    rw [cleanAll, cleanAllFrom_of_after? reached, Nat.zero_add] at ran
    rcases Path.stopped_iff.mp stopped with settled | ⟨failure, failed⟩
    · rw [cleanAllFrom_of_clean_none settled] at ran
      cases ran
      exact ⟨reached, settled⟩
    · rw [cleanAllFrom_of_clean_error failed] at ran
      cases ran
  · rintro ⟨reached, settled⟩
    rw [cleanAll, cleanAllFrom_of_after? reached, cleanAllFrom_of_clean_none settled,
      Nat.zero_add]

theorem cleanAll_eq_error_iff {term : Term} {failure : Failure} :
    term.cleanAll = .error failure ↔
      ∃ passes last, Path.after? clean passes term = some last ∧ last.clean = .error failure := by
  constructor
  · intro failed
    obtain ⟨passes, last, reached, stopped⟩ := exists_clean_stopped term
    rw [cleanAll, cleanAllFrom_of_after? reached] at failed
    refine ⟨passes, last, reached, ?_⟩
    rcases Path.stopped_iff.mp stopped with settled | ⟨cause, failedPass⟩
    · rw [cleanAllFrom_of_clean_none settled] at failed
      cases failed
    · rw [cleanAllFrom_of_clean_error failedPass] at failed
      rw [failedPass, Except.error.inj failed]
  · rintro ⟨passes, last, reached, failed⟩
    rw [cleanAll, cleanAllFrom_of_after? reached, cleanAllFrom_of_clean_error failed]

/-- Every pass takes three nodes away. -/
theorem nodeCount_of_after?_clean {passes : Nat} {term last : Term}
    (reached : Path.after? clean passes term = some last) :
    last.nodeCount + 3 * passes ≤ term.nodeCount := by
  induction passes generalizing last with
  | zero =>
      rw [Path.after?_zero_eq_some_iff.mp reached]
      omega
  | succ passes inductionHypothesis =>
      obtain ⟨before, reachedBefore, moved⟩ := Path.after?_succ_eq_some_iff_last.mp reached
      have earlier := inductionHypothesis reachedBefore
      have smaller := nodeCount_of_clean moved
      omega

theorem ofBinding_of_cleanAll {term : Term} {failure : Failure}
    (failed : term.cleanAll = .error failure) : failure.OfBinding term.nodeCount := by
  obtain ⟨passes, last, reached, failedPass⟩ := cleanAll_eq_error_iff.mp failed
  have smaller := nodeCount_of_after?_clean reached
  have shallow := binderDepth_lt_nodeCount last
  apply (ofBinding_of_clean failedPass).mono
  omega

end NamelessLambda.Term
