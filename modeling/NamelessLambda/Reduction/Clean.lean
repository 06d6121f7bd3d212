import NamelessLambda.Binding.Substitute

/-!
Contract: one cleaning pass, and cleaning until nothing changes.

A pass contracts, from the root down, every redex that makes at most one copy of
its argument. Such a contraction cannot grow the term, so repeated passes end.
A redex that would copy its argument is kept and the pass goes on inside it.

Owns:
- `contractFrugal`, `clean` and `cleanAll`;
- the size that each pass takes away, which is what makes `cleanAll` total.
-/

namespace NamelessLambda

namespace Term

/-- Contracts the redex formed by `function` and `argument` if it makes at most one copy. -/
def contractFrugal : (function argument : Term) → Except Failure (Option Term)
  | .lam body, argument => do
      let result ← body.substitute argument 0
      return if result.copies < 2 then some result.term else none
  | _, _ => .ok none

/-- Application rebuilt from whichever parts have changed. -/
def rebuildApp (function argument : Term) : (function' argument' : Option Term) → Option Term
  | none, none => none
  | function', argument' => some (.app (function'.getD function) (argument'.getD argument))

/-- There is a rebuilt application exactly if one of its parts has changed. -/
theorem rebuildApp_eq_some_iff {function argument rebuilt : Term}
    {function' argument' : Option Term} :
    rebuildApp function argument function' argument' = some rebuilt ↔
      (function'.isSome ∨ argument'.isSome) ∧
        rebuilt = .app (function'.getD function) (argument'.getD argument) := by
  cases function' <;> cases argument' <;> simp [rebuildApp, eq_comm]

theorem rebuildApp_eq_none_iff {function argument : Term} {function' argument' : Option Term} :
    rebuildApp function argument function' argument' = none ↔
      function' = none ∧ argument' = none := by
  cases function' <;> cases argument' <;> simp [rebuildApp]

/-- One cleaning pass; `none` when there is nothing to contract. -/
def clean : Term → Except Failure (Option Term)
  | .var _ => .ok none
  | .lam body => do return (← body.clean).map .lam
  | .app function argument => do
      match ← contractFrugal function argument with
      | some reduced => return some reduced
      | none =>
          let function' ← function.clean
          let argument' ← argument.clean
          return rebuildApp function argument function' argument'

theorem clean_lam_eq_ok_iff {body : Term} {outcome : Option Term} :
    clean (.lam body) = .ok outcome ↔
      ∃ inside, body.clean = .ok inside ∧ outcome = inside.map .lam := by
  simp [clean, Failure.map_eq_ok_iff]

/-- A pass over an application contracts it, or else cleans both of its parts. -/
theorem clean_app_eq_ok_iff {function argument : Term} {outcome : Option Term} :
    clean (.app function argument) = .ok outcome ↔
      (∃ reduced, contractFrugal function argument = .ok (some reduced) ∧
        outcome = some reduced) ∨
      (contractFrugal function argument = .ok none ∧
        ∃ function' argument', function.clean = .ok function' ∧ argument.clean = .ok argument' ∧
          outcome = rebuildApp function argument function' argument') := by
  rw [clean, Failure.bind_eq_ok_iff]
  constructor
  · rintro ⟨contraction, contracted, rest⟩
    cases contraction with
    | some reduced => exact .inl ⟨reduced, contracted, Failure.pure_eq_ok_iff.mp rest⟩
    | none =>
        simp only [Failure.bind_eq_ok_iff, Failure.pure_eq_ok_iff] at rest
        obtain ⟨function', ranFunction, argument', ranArgument, same⟩ := rest
        exact .inr ⟨contracted, function', argument', ranFunction, ranArgument, same⟩
  · rintro (⟨reduced, contracted, same⟩ |
      ⟨contracted, function', argument', ranFunction, ranArgument, same⟩)
    · exact ⟨some reduced, contracted, Failure.pure_eq_ok_iff.mpr same⟩
    · refine ⟨none, contracted, ?_⟩
      simp only [Failure.bind_eq_ok_iff, Failure.pure_eq_ok_iff]
      exact ⟨function', ranFunction, argument', ranArgument, same⟩

/-- A pass over an application fails in the contraction, or else in one of its parts. -/
theorem clean_app_eq_error_iff {function argument : Term} {failure : Failure} :
    clean (.app function argument) = .error failure ↔
      contractFrugal function argument = .error failure ∨
        (contractFrugal function argument = .ok none ∧
          (function.clean = .error failure ∨
            ∃ function', function.clean = .ok function' ∧ argument.clean = .error failure)) := by
  rw [clean, Failure.bind_eq_error_iff]
  apply or_congr_right
  constructor
  · rintro ⟨contraction, contracted, rest⟩
    cases contraction with
    | some reduced => exact absurd rest (Failure.pure_ne_error _ _)
    | none =>
        simp only [Failure.bind_eq_error_iff, Failure.pure_ne_error, and_false, exists_false,
          or_false] at rest
        exact ⟨contracted, rest⟩
  · rintro ⟨contracted, inside⟩
    refine ⟨none, contracted, ?_⟩
    simp only [Failure.bind_eq_error_iff, Failure.pure_ne_error, and_false, exists_false, or_false]
    exact inside

theorem contractFrugal_eq_error_iff {function argument : Term} {failure : Failure} :
    contractFrugal function argument = .error failure ↔
      ∃ body, function = .lam body ∧ body.substitute argument 0 = .error failure := by
  cases function with
  | lam body => simp [contractFrugal, Failure.map_eq_error_iff]
  | var level => simp [contractFrugal]
  | app inner last => simp [contractFrugal]

theorem contractFrugal_eq_some_iff {function argument reduced : Term} :
    contractFrugal function argument = .ok (some reduced) ↔
      ∃ body result, function = .lam body ∧ body.substitute argument 0 = .ok result ∧
        result.copies < 2 ∧ reduced = result.term := by
  cases function with
  | lam body =>
      simp only [contractFrugal, Failure.bind_eq_ok_iff, Failure.pure_eq_ok_iff]
      constructor
      · rintro ⟨result, ran, chosen⟩
        by_cases few : result.copies < 2
        · rw [if_pos few] at chosen
          exact ⟨body, result, rfl, ran, few, Option.some.inj chosen⟩
        · rw [if_neg few] at chosen
          cases chosen
      · rintro ⟨_, result, same, ran, few, rfl⟩
        cases same
        exact ⟨result, ran, by rw [if_pos few]⟩
  | var level => simp [contractFrugal]
  | app inner last => simp [contractFrugal]

/-- A redex is kept if its substitution succeeds with more than one copy. -/
theorem contractFrugal_lam_eq_none_iff {body argument : Term} :
    contractFrugal (.lam body) argument = .ok none ↔
      ∃ result, body.substitute argument 0 = .ok result ∧ 2 ≤ result.copies := by
  simp only [contractFrugal, Failure.bind_eq_ok_iff, Failure.pure_eq_ok_iff]
  apply exists_congr
  intro result
  apply and_congr_right
  intro _
  by_cases few : result.copies < 2
  · rw [if_pos few]
    simp [few]
  · rw [if_neg few]
    simp [Nat.not_lt.mp few]

/-- A contraction removes the application, the binder and the variable it replaces. -/
theorem nodeCount_of_contractFrugal {function argument reduced : Term}
    (ran : contractFrugal function argument = .ok (some reduced)) :
    reduced.nodeCount + 3 ≤ (Term.app function argument).nodeCount := by
  obtain ⟨body, result, rfl, ranBody, few, rfl⟩ := contractFrugal_eq_some_iff.mp ran
  have positive := argument.nodeCount_pos
  have copied : result.copies * (argument.nodeCount - 1) ≤ 1 * (argument.nodeCount - 1) :=
    Nat.mul_le_mul_right _ (Nat.le_of_lt_succ few)
  rw [nodeCount_of_substitute ranBody, nodeCount, nodeCount]
  omega

/-- Every pass that changes a term takes at least three nodes away. -/
theorem nodeCount_of_clean {term cleaned : Term} (ran : term.clean = .ok (some cleaned)) :
    cleaned.nodeCount + 3 ≤ term.nodeCount := by
  induction term generalizing cleaned with
  | var level => cases ran
  | lam body inductionHypothesis =>
      obtain ⟨inside, ranBody, same⟩ := clean_lam_eq_ok_iff.mp ran
      obtain ⟨body', rfl, rfl⟩ := Option.map_eq_some_iff.mp same.symm
      have smaller := inductionHypothesis ranBody
      rw [nodeCount, nodeCount]
      omega
  | app function argument functionHypothesis argumentHypothesis =>
      rcases clean_app_eq_ok_iff.mp ran with
        ⟨reduced, contracted, same⟩ | ⟨_, function', argument', ranFunction, ranArgument, same⟩
      · cases same
        exact nodeCount_of_contractFrugal contracted
      · have smallerFunction : (function'.getD function).nodeCount ≤ function.nodeCount ∧
            (function'.isSome → (function'.getD function).nodeCount + 3 ≤ function.nodeCount) := by
          cases function' with
          | none => simp
          | some function' =>
              have smaller := functionHypothesis ranFunction
              simp only [Option.getD_some]
              omega
        have smallerArgument : (argument'.getD argument).nodeCount ≤ argument.nodeCount ∧
            (argument'.isSome → (argument'.getD argument).nodeCount + 3 ≤ argument.nodeCount) := by
          cases argument' with
          | none => simp
          | some argument' =>
              have smaller := argumentHypothesis ranArgument
              simp only [Option.getD_some]
              omega
        obtain ⟨changed, rfl⟩ := rebuildApp_eq_some_iff.mp same.symm
        rw [nodeCount, nodeCount]
        rcases changed with changed | changed
        · have gain := smallerFunction.2 changed
          omega
        · have gain := smallerArgument.2 changed
          omega

end Term

/-- A term without a frugal redex, and the number of passes that it took. -/
structure Cleaned where
  term : Term
  passes : Nat
deriving DecidableEq, Repr

namespace Term

/-- Cleans until nothing changes, after `passes` earlier passes. -/
def cleanAllFrom (passes : Nat) (term : Term) : Except Failure Cleaned :=
  match ran : term.clean with
  | .error failure => .error failure
  | .ok none => .ok ⟨term, passes⟩
  | .ok (some cleaned) => cleanAllFrom (passes + 1) cleaned
termination_by term.nodeCount
decreasing_by
  have smaller := nodeCount_of_clean ran
  omega

/-- Cleans until nothing changes. -/
def cleanAll (term : Term) : Except Failure Cleaned := cleanAllFrom 0 term

end Term

end NamelessLambda
