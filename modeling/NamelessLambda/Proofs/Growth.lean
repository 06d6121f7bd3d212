import NamelessLambda.Proofs.HeadSpine

/-!
Contract: how much larger and higher one step can make a term.

A substitution puts the argument on leaves of the body, and a term has no more
leaves than nodes. The result has at most the product of the node counts, and no
path in it is longer than one of the body followed by one of the argument.

Owns:
- the height of shifted and substituted terms;
- `Term.GrowsTo`, the bounds on what a step leads to.

Does not own:
- the exact number of nodes after a substitution.
-/

namespace NamelessLambda.Term

theorem height_of_shift {cutoff : Level} {term shifted : Term}
    (ran : shift cutoff term = .ok shifted) : shifted.height = term.height := by
  induction term generalizing cutoff shifted with
  | var level =>
      rcases shift_var_eq_ok_iff.mp ran with ⟨_, rfl⟩ | ⟨_, _, _, rfl⟩ <;> rfl
  | lam body inductionHypothesis =>
      obtain ⟨_, _, _, ranBody, rfl⟩ := shift_lam_eq_ok_iff.mp ran
      rw [height, height, inductionHypothesis ranBody]
  | app function argument functionHypothesis argumentHypothesis =>
      obtain ⟨_, _, ranFunction, ranArgument, rfl⟩ := shift_app_eq_ok_iff.mp ran
      rw [height, height, functionHypothesis ranFunction, argumentHypothesis ranArgument]

/-- Paths of the replacement start at the last node of a path of the term. -/
theorem height_of_substitute {term replacement : Term} {target : Level} {result : Substitution}
    (ran : term.substitute replacement target = .ok result) :
    result.term.height < term.height + replacement.height := by
  induction term generalizing replacement target result with
  | var level =>
      have positive := replacement.height_pos
      rcases substitute_var_cases ran with ⟨_, rfl⟩ | ⟨_, rfl⟩ | ⟨nearer, _, _, rfl⟩
      · simp only [height]
        omega
      · simp only [height]
        omega
      · simp only [height]
        omega
  | lam body inductionHypothesis =>
      obtain ⟨_, _, _, ranShift, _, ranBody, rfl⟩ := substitute_lam_eq_ok_iff.mp ran
      have lower := inductionHypothesis ranBody
      rw [height_of_shift ranShift] at lower
      simp only [height]
      omega
  | app function argument functionHypothesis argumentHypothesis =>
      obtain ⟨_, _, ranFunction, ranArgument, rfl⟩ := substitute_app_eq_ok_iff.mp ran
      have lowerFunction := functionHypothesis ranFunction
      have lowerArgument := argumentHypothesis ranArgument
      simp only [height]
      omega

theorem copies_le_nodeCount {term replacement : Term} {target : Level} {result : Substitution}
    (ran : term.substitute replacement target = .ok result) : result.copies ≤ term.nodeCount := by
  induction term generalizing replacement target result with
  | var level =>
      rcases substitute_var_cases ran with ⟨_, rfl⟩ | ⟨_, rfl⟩ | ⟨nearer, _, _, rfl⟩
      · simp only [nodeCount]
        split <;> omega
      · exact Nat.zero_le _
      · exact Nat.zero_le _
  | lam body inductionHypothesis =>
      obtain ⟨_, _, _, _, _, ranBody, rfl⟩ := substitute_lam_eq_ok_iff.mp ran
      have fewBody := inductionHypothesis ranBody
      simp only [nodeCount]
      omega
  | app function argument functionHypothesis argumentHypothesis =>
      obtain ⟨_, _, ranFunction, ranArgument, rfl⟩ := substitute_app_eq_ok_iff.mp ran
      have fewFunction := functionHypothesis ranFunction
      have fewArgument := argumentHypothesis ranArgument
      simp only [nodeCount]
      omega

theorem nodeCount_substitute_le {term replacement : Term} {target : Level}
    {result : Substitution} (ran : term.substitute replacement target = .ok result) :
    result.term.nodeCount ≤ term.nodeCount * replacement.nodeCount := by
  obtain ⟨others, counted⟩ := Nat.exists_eq_succ_of_ne_zero (Nat.ne_of_gt replacement.nodeCount_pos)
  rw [nodeCount_of_substitute ran, counted, Nat.succ_sub_one, Nat.mul_succ, Nat.add_comm]
  exact Nat.add_le_add_right (Nat.mul_le_mul_right _ (copies_le_nodeCount ran)) _

/-! ## Steps -/

/-- A term that is no larger than the square of the size of `term`, and lower than this size. -/
structure GrowsTo (term next : Term) : Prop where
  size_le : next.nodeCount ≤ term.nodeCount * term.nodeCount
  height_lt : next.height < term.nodeCount

private theorem growsTo_of_redex {body argument : Term} {result : Substitution}
    (ran : body.substitute argument 0 = .ok result) :
    GrowsTo (.app (.lam body) argument) result.term where
  size_le := by
    have product := nodeCount_substitute_le ran
    have bodyLe : body.nodeCount ≤ (Term.app (.lam body) argument).nodeCount := by
      simp only [nodeCount]; omega
    have argumentLe : argument.nodeCount ≤ (Term.app (.lam body) argument).nodeCount := by
      simp only [nodeCount]; omega
    exact Nat.le_trans product (Nat.mul_le_mul bodyLe argumentLe)
  height_lt := by
    have lower := height_of_substitute ran
    have bodyLe := body.height_le_nodeCount
    have argumentLe := argument.height_le_nodeCount
    simp only [nodeCount]
    omega

private theorem GrowsTo.app {function function' : Term} (grows : GrowsTo function function')
    (argument : Term) : GrowsTo (.app function argument) (.app function' argument) where
  size_le := by
    have positive := function.nodeCount_pos
    have square := grows.size_le
    simp only [nodeCount]
    calc 1 + function'.nodeCount + argument.nodeCount
        ≤ 1 + function.nodeCount * function.nodeCount + argument.nodeCount := by omega
      _ ≤ (1 + function.nodeCount + argument.nodeCount) *
            (1 + function.nodeCount + argument.nodeCount) := by
          simp only [Nat.add_mul, Nat.mul_add, Nat.one_mul, Nat.mul_one]
          omega
  height_lt := by
    have lower := grows.height_lt
    have argumentLe := argument.height_le_nodeCount
    have positive := function.nodeCount_pos
    simp only [height, nodeCount]
    omega

private theorem GrowsTo.applyAll {head head' : Term} (grows : GrowsTo head head')
    (arguments : List Term) : GrowsTo (head.applyAll arguments) (head'.applyAll arguments) := by
  induction arguments generalizing head head' with
  | nil => exact grows
  | cons argument rest inductionHypothesis => exact inductionHypothesis (grows.app argument)

theorem growsTo_of_headStep {term next : Term} (moved : term.headStep = .ok (some next)) :
    GrowsTo term next := by
  obtain ⟨body, argument, rest, result, rfl, ran, rfl⟩ := headStep_eq_some_iff.mp moved
  exact (growsTo_of_redex ran).applyAll rest

end NamelessLambda.Term
