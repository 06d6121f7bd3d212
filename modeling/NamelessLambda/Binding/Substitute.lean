import NamelessLambda.Binding.Shift

/-!
Contract: capture-avoiding substitution that removes a binder.

`substitute term replacement target` puts `replacement` for the variable
`target` and moves every variable above it one binder closer. The replacement is
shifted once for each binder it passes, even where the variable does not occur,
so a replacement that cannot be shifted fails the whole substitution.

Owns:
- `substitute` and its result, a term with the number of copies made;
- the bound on the size of the result.
-/

namespace NamelessLambda

/-- Outcome of a substitution. -/
structure Substitution where
  term : Term
  /-- Copies of the replacement in `term`; copies of a mere variable are free. -/
  copies : Nat
deriving DecidableEq, Repr

namespace Term

/-- Replaces the variable `target` and removes its binder. -/
def substitute : (term replacement : Term) → (target : Level) → Except Failure Substitution
  | .var level, replacement, target =>
      if level = target then .ok ⟨replacement, if replacement.isVar then 0 else 1⟩
      else if level < target then .ok ⟨.var level, 0⟩
      else .ok ⟨.var (level - 1), 0⟩
  | .lam body, replacement, target => do
      let shifted ← replacement.shift 0
      let inner ← target.enter
      let result ← body.substitute shifted inner
      return ⟨.lam result.term, result.copies⟩
  | .app function argument, replacement, target => do
      let function ← function.substitute replacement target
      let argument ← argument.substitute replacement target
      return ⟨.app function.term argument.term, function.copies + argument.copies⟩

theorem substitute_var_self (replacement : Term) (target : Level) :
    substitute (.var target) replacement target =
      .ok ⟨replacement, if replacement.isVar then 0 else 1⟩ := by
  rw [substitute, if_pos rfl]

theorem substitute_var_of_lt {level target : Level} {replacement : Term}
    (inside : level.toInt < target.toInt) :
    substitute (.var level) replacement target = .ok ⟨.var level, 0⟩ := by
  have different : level ≠ target := by
    rintro rfl
    exact Int.lt_irrefl _ inside
  rw [substitute, if_neg different, if_pos (Int64.lt_iff_toInt_lt.mpr inside)]

/-- A variable bound outside of the removed binder moves one binder closer. -/
theorem exists_substitute_var_of_gt {level target : Level} (outside : target.toInt < level.toInt) :
    ∃ nearer : Level, (∀ replacement,
      substitute (.var level) replacement target = .ok ⟨.var nearer, 0⟩) ∧
        nearer.toInt = level.toInt - 1 := by
  have different : level ≠ target := by
    rintro rfl
    exact Int.lt_irrefl _ outside
  have notBelow : ¬ level < target := by
    rw [Int64.lt_iff_toInt_lt]
    omega
  refine ⟨level - 1, fun replacement => ?_,
    Level.toInt_sub_one_of_lt (Int64.lt_iff_toInt_lt.mpr outside)⟩
  rw [substitute, if_neg different, if_neg notBelow]

/-- A variable is replaced, kept or moved one binder closer, by where its own binder is. -/
theorem substitute_var_cases {level target : Level} {replacement : Term} {result : Substitution}
    (ran : substitute (.var level) replacement target = .ok result) :
    (level = target ∧ result = ⟨replacement, if replacement.isVar then 0 else 1⟩) ∨
      (level.toInt < target.toInt ∧ result = ⟨.var level, 0⟩) ∨
      ∃ nearer : Level, target.toInt < level.toInt ∧ nearer.toInt = level.toInt - 1 ∧
        result = ⟨.var nearer, 0⟩ := by
  rcases Int.lt_trichotomy level.toInt target.toInt with inside | same | outside
  · rw [substitute_var_of_lt inside] at ran
    exact .inr (.inl ⟨inside, (Except.ok.inj ran).symm⟩)
  · have here := Int64.toInt_inj.mp same
    rw [here, substitute_var_self] at ran
    exact .inl ⟨here, (Except.ok.inj ran).symm⟩
  · obtain ⟨nearer, found, nearerNext⟩ := exists_substitute_var_of_gt outside
    rw [found] at ran
    exact .inr (.inr ⟨nearer, outside, nearerNext, (Except.ok.inj ran).symm⟩)

theorem substitute_var_ne_error (level : Level) (replacement : Term) (target : Level)
    (failure : Failure) : substitute (.var level) replacement target ≠ .error failure := by
  intro failed
  unfold substitute at failed
  split at failed
  · cases failed
  · split at failed <;> cases failed

theorem substitute_lam_eq_ok_iff {body replacement : Term} {target : Level}
    {result : Substitution} :
    substitute (.lam body) replacement target = .ok result ↔
      ∃ shifted inner inside, replacement.shift 0 = .ok shifted ∧ target.next? = some inner ∧
        body.substitute shifted inner = .ok inside ∧
        result = ⟨.lam inside.term, inside.copies⟩ := by
  simp [substitute, Failure.bind_eq_ok_iff, Failure.map_eq_ok_iff, Level.enter_eq_ok_iff]

theorem substitute_app_eq_ok_iff {function argument replacement : Term} {target : Level}
    {result : Substitution} :
    substitute (.app function argument) replacement target = .ok result ↔
      ∃ first second, function.substitute replacement target = .ok first ∧
        argument.substitute replacement target = .ok second ∧
        result = ⟨.app first.term second.term, first.copies + second.copies⟩ := by
  simp [substitute, Failure.bind_eq_ok_iff, Failure.map_eq_ok_iff]

theorem substitute_lam_eq_error_iff {body replacement : Term} {target : Level}
    {failure : Failure} :
    substitute (.lam body) replacement target = .error failure ↔
      replacement.shift 0 = .error failure ∨
        ∃ shifted, replacement.shift 0 = .ok shifted ∧
          ((target = .last ∧ failure = .binderOverflow) ∨
            ∃ inner, target.next? = some inner ∧
              body.substitute shifted inner = .error failure) := by
  simp [substitute, Failure.bind_eq_error_iff, Failure.map_eq_error_iff,
    Level.enter_eq_error_iff, Level.enter_eq_ok_iff]

theorem substitute_app_eq_error_iff {function argument replacement : Term} {target : Level}
    {failure : Failure} :
    substitute (.app function argument) replacement target = .error failure ↔
      function.substitute replacement target = .error failure ∨
        ∃ first, function.substitute replacement target = .ok first ∧
          argument.substitute replacement target = .error failure := by
  simp [substitute, Failure.bind_eq_error_iff, Failure.map_eq_error_iff]

/-- Each counted copy adds all nodes of the replacement but the one it stands on. -/
theorem nodeCount_of_substitute {term replacement : Term} {target : Level}
    {result : Substitution} (ran : term.substitute replacement target = .ok result) :
    result.term.nodeCount =
      term.nodeCount + result.copies * (replacement.nodeCount - 1) := by
  induction term generalizing replacement target result with
  | var level =>
      rcases substitute_var_cases ran with ⟨_, rfl⟩ | ⟨_, rfl⟩ | ⟨nearer, _, _, rfl⟩
      · by_cases leaf : replacement.isVar = true
        · simp [nodeCount, leaf, nodeCount_eq_one_of_isVar leaf]
        · have positive := replacement.nodeCount_pos
          simp only [nodeCount, leaf, Bool.false_eq_true, if_false, Nat.one_mul]
          omega
      · simp [nodeCount]
      · simp [nodeCount]
  | lam body inductionHypothesis =>
      obtain ⟨_, _, _, ranShift, _, ranBody, rfl⟩ := substitute_lam_eq_ok_iff.mp ran
      rw [nodeCount, nodeCount, inductionHypothesis ranBody, nodeCount_of_shift ranShift,
        Nat.add_assoc]
  | app function argument functionHypothesis argumentHypothesis =>
      obtain ⟨_, _, ranFunction, ranArgument, rfl⟩ := substitute_app_eq_ok_iff.mp ran
      rw [nodeCount, nodeCount, functionHypothesis ranFunction, argumentHypothesis ranArgument,
        Nat.add_mul]
      omega

end Term

end NamelessLambda
