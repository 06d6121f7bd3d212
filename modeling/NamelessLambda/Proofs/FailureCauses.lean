import Mathlib.Algebra.Group.Int.Defs
import NamelessLambda.Proofs.HeadSpine
import NamelessLambda.Reduction.Clean

/-!
Contract: which failures each operation can report.

Shifting and substituting fail on the greatest level, or where they would count
more binders than a level can hold. Cleaning adds no other cause, and a head
step adds only the sentinel at the head.

Owns:
- `binderDepth`, the number of nested binders;
- `Failure.OfBinding`, the two causes with the number of binders they need;
- the causes of a failed shift, substitution, head step and cleaning.

Does not own:
- on which terms these failures do arise.
-/

namespace NamelessLambda

/-- Failure of moving a level: past the greatest one, or past `binders` or fewer binders. -/
def Failure.OfBinding (binders : Int) (failure : Failure) : Prop :=
  failure = .unshiftable Level.last ∨ (failure = .binderOverflow ∧ 2 ^ 63 ≤ binders)

theorem Failure.OfBinding.mono {fewer more : Int} {failure : Failure} (le : fewer ≤ more)
    (cause : failure.OfBinding fewer) : failure.OfBinding more := by
  rcases cause with unshiftable | ⟨overflow, reached⟩
  · exact .inl unshiftable
  · exact .inr ⟨overflow, by omega⟩

theorem Failure.OfBinding.ne_divergent {binders : Int} {failure : Failure}
    (cause : failure.OfBinding binders) (code : Level) : failure ≠ .divergent code := by
  intro same
  rcases cause with rfl | ⟨rfl, _⟩ <;> cases same

theorem Failure.OfBinding.eq_unshiftable {binders : Int} {failure : Failure}
    (cause : failure.OfBinding binders) (shallow : binders ≤ Level.last.toInt) :
    failure = .unshiftable .last := by
  rcases cause with unshiftable | ⟨_, deep⟩
  · exact unshiftable
  · rw [Level.toInt_last] at shallow
    omega

/-- Below the range of levels, all of these failures are one and the same. -/
theorem Failure.OfBinding.eq_or_le {binders : Int} {failure other : Failure}
    (cause : failure.OfBinding binders) (causeOther : other.OfBinding binders) :
    failure = other ∨ 2 ^ 63 ≤ binders := by
  rcases cause with rfl | ⟨_, deep⟩
  · rcases causeOther with rfl | ⟨_, deep⟩
    · exact .inl rfl
    · exact .inr deep
  · exact .inr deep

namespace Term

/-- Largest number of nested binders on a path from the root. -/
def binderDepth : Term → Nat
  | .var _ => 0
  | .lam body => body.binderDepth + 1
  | .app function argument => max function.binderDepth argument.binderDepth

theorem binderDepth_lt_height (term : Term) : term.binderDepth < term.height := by
  induction term with
  | var level => exact Nat.one_pos
  | lam body inductionHypothesis => simp only [binderDepth, height]; omega
  | app function argument functionHypothesis argumentHypothesis =>
      simp only [binderDepth, height]
      omega

theorem binderDepth_lt_nodeCount (term : Term) : term.binderDepth < term.nodeCount :=
  Nat.lt_of_lt_of_le term.binderDepth_lt_height term.height_le_nodeCount

private theorem binderDepth_le_applyAll (head : Term) (arguments : List Term) :
    head.binderDepth ≤ (head.applyAll arguments).binderDepth := by
  induction arguments generalizing head with
  | nil => exact Nat.le_refl _
  | cons argument rest inductionHypothesis =>
      have inner := inductionHypothesis (Term.app head argument)
      have outer : head.binderDepth ≤ (Term.app head argument).binderDepth := Nat.le_max_left _ _
      rw [applyAll_cons]
      omega

theorem binderDepth_of_shift {cutoff : Level} {term shifted : Term}
    (ran : shift cutoff term = .ok shifted) : shifted.binderDepth = term.binderDepth := by
  induction term generalizing cutoff shifted with
  | var level =>
      rcases shift_var_eq_ok_iff.mp ran with ⟨_, rfl⟩ | ⟨_, _, _, rfl⟩ <;> rfl
  | lam body inductionHypothesis =>
      obtain ⟨_, _, _, ranBody, rfl⟩ := shift_lam_eq_ok_iff.mp ran
      rw [binderDepth, binderDepth, inductionHypothesis ranBody]
  | app function argument functionHypothesis argumentHypothesis =>
      obtain ⟨_, _, ranFunction, ranArgument, rfl⟩ := shift_app_eq_ok_iff.mp ran
      rw [binderDepth, binderDepth, functionHypothesis ranFunction, argumentHypothesis ranArgument]

/-! ## Shifting and substituting -/

theorem ofBinding_of_shift {cutoff : Level} {term : Term} {failure : Failure}
    (failed : shift cutoff term = .error failure) :
    failure.OfBinding (cutoff.toInt + term.binderDepth) := by
  induction term generalizing cutoff with
  | var level =>
      obtain ⟨_, rfl, same⟩ := shift_var_eq_error_iff.mp failed
      exact .inl same
  | lam body inductionHypothesis =>
      rcases shift_lam_eq_error_iff.mp failed with ⟨rfl, overflow⟩ | ⟨inner, entered, inBody⟩
      · have greatest := Level.toInt_last
        exact .inr ⟨overflow, by simp only [binderDepth]; omega⟩
      · have deeper := Level.toInt_of_next?_eq_some entered
        apply (inductionHypothesis inBody).mono
        simp only [binderDepth]
        omega
  | app function argument functionHypothesis argumentHypothesis =>
      rcases shift_app_eq_error_iff.mp failed with inFunction | ⟨_, _, inArgument⟩
      · apply (functionHypothesis inFunction).mono
        simp only [binderDepth]
        omega
      · apply (argumentHypothesis inArgument).mono
        simp only [binderDepth]
        omega

theorem ofBinding_of_substitute {term replacement : Term} {target : Level} {failure : Failure}
    (failed : term.substitute replacement target = .error failure) :
    failure.OfBinding (max (target.toInt + term.binderDepth) replacement.binderDepth) := by
  induction term generalizing replacement target with
  | var level => exact absurd failed (substitute_var_ne_error level replacement target failure)
  | lam body inductionHypothesis =>
      rcases substitute_lam_eq_error_iff.mp failed with
        shifting | ⟨shifted, ranShift, ⟨rfl, overflow⟩ | ⟨inner, entered, inBody⟩⟩
      · apply (ofBinding_of_shift shifting).mono
        show (0 : Int) + replacement.binderDepth ≤ _
        omega
      · have greatest := Level.toInt_last
        exact .inr ⟨overflow, by simp only [binderDepth]; omega⟩
      · have deeper := Level.toInt_of_next?_eq_some entered
        apply (inductionHypothesis inBody).mono
        rw [binderDepth_of_shift ranShift]
        simp only [binderDepth]
        omega
  | app function argument functionHypothesis argumentHypothesis =>
      rcases substitute_app_eq_error_iff.mp failed with inFunction | ⟨_, _, inArgument⟩
      · apply (functionHypothesis inFunction).mono
        simp only [binderDepth]
        omega
      · apply (argumentHypothesis inArgument).mono
        simp only [binderDepth]
        omega

/-- Contracting a redex fails only where the redex itself has that many binders. -/
private theorem ofBinding_of_redex {body argument : Term} {failure : Failure}
    (failed : body.substitute argument 0 = .error failure) :
    failure.OfBinding (Term.app (.lam body) argument).binderDepth := by
  apply (ofBinding_of_substitute failed).mono
  show max ((0 : Int) + body.binderDepth) argument.binderDepth ≤ _
  simp only [binderDepth]
  omega

/-- At the head of a spine as well. -/
theorem ofBinding_of_headRedex {body argument : Term} {failure : Failure}
    (failed : body.substitute argument 0 = .error failure) (rest : List Term) :
    failure.OfBinding ((Term.lam body).applyAll (argument :: rest)).binderDepth := by
  apply (ofBinding_of_redex failed).mono
  rw [applyAll_cons]
  exact_mod_cast binderDepth_le_applyAll (Term.app (.lam body) argument) rest

/-! ## Reducing -/

theorem cause_of_headStep {term : Term} {failure : Failure}
    (failed : term.headStep = .error failure) :
    (∃ code arguments, code.isSentinel = true ∧ term = (Term.var code).applyAll arguments ∧
      failure = .divergent code) ∨ failure.OfBinding term.binderDepth := by
  rcases headStep_eq_error_iff.mp failed with sentinel | ⟨body, argument, rest, rfl, failedRedex⟩
  · exact .inl sentinel
  · exact .inr (ofBinding_of_headRedex failedRedex rest)

theorem ofBinding_of_clean {term : Term} {failure : Failure}
    (failed : term.clean = .error failure) : failure.OfBinding term.binderDepth := by
  induction term with
  | var level => cases failed
  | lam body inductionHypothesis =>
      apply (inductionHypothesis (Failure.map_eq_error_iff.mp failed)).mono
      simp only [binderDepth]
      omega
  | app function argument functionHypothesis argumentHypothesis =>
      rcases clean_app_eq_error_iff.mp failed with
        contracting | ⟨_, inFunction | ⟨_, _, inArgument⟩⟩
      · obtain ⟨body, rfl, failedRedex⟩ := contractFrugal_eq_error_iff.mp contracting
        exact ofBinding_of_redex failedRedex
      · apply (functionHypothesis inFunction).mono
        simp only [binderDepth]
        omega
      · apply (argumentHypothesis inArgument).mono
        simp only [binderDepth]
        omega

end Term

end NamelessLambda
