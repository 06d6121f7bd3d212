import NamelessLambda.Proofs.Soundness

/-!
Contract: evaluation leaves its own results alone.

No contraction, wherever it is made, gives a binder or a variable at the head of
a spine a step again. Cleaning therefore never undoes the stepping before it,
and a result meets every condition under which the evaluation returns it.

Owns:
- the shapes that contractions preserve;
- `Limits.Finished`, what holds of a result within the limits;
- the stability of results, and when evaluating is the same as stepping.

Does not own:
- a normal form theorem: a result may keep redexes that would copy their argument.
-/

namespace NamelessLambda

open Relation

/-! ## Shapes that contractions preserve -/

namespace Term

private theorem headStep_of_isLam {term : Term} (binder : term.isLam = true) :
    term.headStep = .ok none := by
  cases term with
  | lam body => rfl
  | var level => cases binder
  | app function argument => cases binder

theorem lam_of_reduces {body reduct : Term}
    (reduces : ReflTransGen PureTerm.Beta (Term.lam body).toPure reduct.toPure) :
    ∃ body', reduct = .lam body' := by
  obtain ⟨body', same⟩ := PureTerm.lam_of_reduces reduces
  exact ⟨ofPure body', by rw [← ofPure_toPure reduct, same, ofPure]⟩

/-- Contractions of the reading keep the variable at the head and the number of its arguments. -/
theorem spine_of_reduces {level : Level} {arguments : List Term} {reduct : Term}
    (reduces : ReflTransGen PureTerm.Beta ((Term.var level).applyAll arguments).toPure
      reduct.toPure) :
    ∃ arguments', arguments'.length = arguments.length ∧
      reduct = (Term.var level).applyAll arguments' := by
  rw [toPure_applyAll] at reduces
  obtain ⟨arguments', length, same⟩ :=
    PureTerm.spine_of_reduces (rigid_toPure_var level) reduces
  refine ⟨arguments'.map ofPure, ?_, ?_⟩
  · rw [List.length_map, length, List.length_map]
  · rw [← ofPure_toPure reduct, same, ofPure_applyAll, ofPure_toPure]

private theorem WeakHeadNormal.reduces {term reduct : Term} (normal : term.WeakHeadNormal)
    (steps : ReflTransGen Contracts term reduct) : reduct.WeakHeadNormal := by
  rcases normal with ⟨body, rfl⟩ | ⟨level, arguments, plain, rfl⟩
  · exact .inl (lam_of_reduces (toPure_of_contracts steps))
  · obtain ⟨arguments', _, rfl⟩ := spine_of_reduces (toPure_of_contracts steps)
    exact .inr ⟨level, arguments', plain, rfl⟩

private theorem isLam_of_contracts {term reduct : Term} (binder : term.isLam = true)
    (steps : ReflTransGen Contracts term reduct) : reduct.isLam = true := by
  cases term with
  | lam body =>
      obtain ⟨body', rfl⟩ := lam_of_reduces (toPure_of_contracts steps)
      rfl
  | var level => cases binder
  | app function argument => cases binder

end Term

open Term

/-! ## Results -/

namespace Limits

/-- Term to which no step and no pass applies, and which the limits admit. -/
structure Finished (limits : Limits) (result : Term) : Prop where
  noStep : result.headStep = .ok none
  noPass : result.clean = .ok none
  small : result.size < limits.maxSize

variable {limits : Limits} {term result : Term}

private theorem noPass_of_simplify (ran : limits.simplify term = .ok result) :
    result.clean = .ok none := by
  obtain ⟨_, _, _, nothingLeft⟩ := simplify_eq_ok_iff.mp ran
  exact nothingLeft

/-- Passes never grow a term, so a result fits wherever its origin did. -/
private theorem small_of_simplify (ran : limits.simplify term = .ok result) :
    result.size < limits.maxSize := by
  obtain ⟨small, passes, reached, _⟩ := simplify_eq_ok_iff.mp ran
  have smaller := nodeCount_of_after?_clean reached
  rw [size_eq_nodeCount] at small ⊢
  omega

theorem simplify_of_simplify (ran : limits.simplify term = .ok result) :
    limits.simplify result = .ok result := by
  apply simplify_eq_ok_iff.mpr
  exact ⟨small_of_simplify ran, 0, rfl, noPass_of_simplify ran⟩

theorem finished_of_simplify (ran : limits.simplify term = .ok result)
    (settled : result.headStep = .ok none) : limits.Finished result where
  noStep := settled
  noPass := noPass_of_simplify ran
  small := small_of_simplify ran

/-- With room for a second term, a term without a step is just cleaned. -/
theorem normalize_eq_simplify (settles : term.headStep = .ok none) (room : 2 ≤ limits.maxStates) :
    limits.normalize term = limits.simplify term := by
  apply normalize_of_stepsTo
  show StepsTo limits term (Run.simplifyFrom limits _ term).outcome
  rw [outcome_simplifyFrom]
  by_cases large : limits.maxSize ≤ term.size
  · rw [if_pos large]
    exact .rejected large
  · rw [if_neg large]
    exact .settled (freshRun_one (Nat.not_le.mp large)) room rfl settles rfl

theorem finished_of_normalize (ran : limits.normalize term = .ok result) :
    limits.Finished result := by
  obtain ⟨steps, last, _, reached, settles, small, passes, cleaned, nothingLeft⟩ :=
    normalize_eq_ok_iff.mp ran
  have smallLast := small steps (Nat.le_refl steps) last reached
  have simplified : limits.simplify last = .ok result :=
    simplify_eq_ok_iff.mpr ⟨smallLast, passes, cleaned, nothingLeft⟩
  have normal : result.WeakHeadNormal :=
    (headStep_eq_none_iff.mp settles).reduces (contracts_of_simplify simplified)
  exact finished_of_simplify simplified (headStep_eq_none_iff.mpr normal)

theorem finished_of_evaluate (ran : limits.evaluate term = .ok result) :
    limits.Finished result := by
  cases shape : term.isLam with
  | false =>
      rw [evaluate_of_not_isLam shape] at ran
      exact finished_of_normalize ran
  | true =>
      rw [evaluate_of_isLam shape] at ran
      have binder := isLam_of_contracts shape (contracts_of_simplify ran)
      exact finished_of_simplify ran (headStep_of_isLam binder)

theorem normalize_of_normalize (ran : limits.normalize term = .ok result) :
    limits.normalize result = .ok result := by
  obtain ⟨steps, _, room, _⟩ := normalize_eq_ok_iff.mp ran
  have finished := finished_of_normalize ran
  rw [normalize_eq_simplify finished.noStep (by omega)]
  exact simplify_eq_ok_iff.mpr ⟨finished.small, 0, rfl, finished.noPass⟩

theorem evaluate_eq_normalize (room : 2 ≤ limits.maxStates) (term : Term) :
    limits.evaluate term = limits.normalize term := by
  cases shape : term.isLam with
  | false => exact evaluate_of_not_isLam shape
  | true => rw [evaluate_of_isLam shape, normalize_eq_simplify (headStep_of_isLam shape) room]

theorem evaluate_of_evaluate (ran : limits.evaluate term = .ok result) :
    limits.evaluate result = .ok result := by
  cases shape : term.isLam with
  | false =>
      rw [evaluate_of_not_isLam shape] at ran
      obtain ⟨steps, _, room, _⟩ := normalize_eq_ok_iff.mp ran
      rw [evaluate_eq_normalize (by omega)]
      exact normalize_of_normalize ran
  | true =>
      rw [evaluate_of_isLam shape] at ran
      rw [evaluate_of_isLam (isLam_of_contracts shape (contracts_of_simplify ran))]
      exact simplify_of_simplify ran

end Limits

/-- Nothing more can be done about a result, and the operation that returned it returns it again.
The dispatch on binders only matters where no second term may be visited. -/
theorem results_stable (limits : Limits) (term : Term) :
    (∀ result, limits.evaluate term = .ok result →
      limits.Finished result ∧ limits.evaluate result = .ok result) ∧
    (∀ result, limits.normalize term = .ok result →
      limits.Finished result ∧ limits.normalize result = .ok result) ∧
    (∀ result, limits.simplify term = .ok result → limits.simplify result = .ok result) ∧
    (2 ≤ limits.maxStates → limits.evaluate term = limits.normalize term) := by
  refine ⟨?_, ?_, ?_, ?_⟩
  · intro result ran
    exact ⟨Limits.finished_of_evaluate ran, Limits.evaluate_of_evaluate ran⟩
  · intro result ran
    exact ⟨Limits.finished_of_normalize ran, Limits.normalize_of_normalize ran⟩
  · intro result ran
    exact Limits.simplify_of_simplify ran
  · intro room
    exact Limits.evaluate_eq_normalize room term

/-- A variable applied to a redex is cleaned to that variable applied to the reduct, at the
least limits that admit it. -/
theorem cleaned_argument_stable :
    ((⟨7, 2⟩ : Limits).evaluate (applyAll 0 [applyAll Sample.identity [1]]) =
        .ok (applyAll 0 [1]) ∧
      (⟨7, 2⟩ : Limits).normalize (applyAll 0 [applyAll Sample.identity [1]]) =
        .ok (applyAll 0 [1]) ∧
      (⟨7, 2⟩ : Limits).simplify (applyAll 0 [applyAll Sample.identity [1]]) =
        .ok (applyAll 0 [1])) ∧
    (⟨7, 2⟩ : Limits).Finished (applyAll 0 [1]) ∧
      (⟨7, 2⟩ : Limits).evaluate (applyAll 0 [1]) = .ok (applyAll 0 [1]) ∧
      (⟨7, 2⟩ : Limits).normalize (applyAll 0 [1]) = .ok (applyAll 0 [1]) ∧
      (⟨7, 2⟩ : Limits).simplify (applyAll 0 [1]) = .ok (applyAll 0 [1]) := by
  have small : (applyAll 0 [applyAll Sample.identity [1]] : Term).size < 7 := by
    rw [size_eq_nodeCount]
    decide
  have simplified : (⟨7, 2⟩ : Limits).simplify (applyAll 0 [applyAll Sample.identity [1]]) =
      .ok (applyAll 0 [1]) :=
    Limits.simplify_eq_ok_iff.mpr ⟨small, 1, rfl, rfl⟩
  have normalized : (⟨7, 2⟩ : Limits).normalize (applyAll 0 [applyAll Sample.identity [1]]) =
      .ok (applyAll 0 [1]) :=
    (Limits.normalize_eq_simplify rfl (Nat.le_refl 2)).trans simplified
  have stable := results_stable ⟨7, 2⟩ (applyAll 0 [applyAll Sample.identity [1]])
  have evaluated := (stable.2.2.2 (Nat.le_refl 2)).trans normalized
  have normalizedAgain := stable.2.1 _ normalized
  exact ⟨⟨evaluated, normalized, simplified⟩, normalizedAgain.1, (stable.1 _ evaluated).2,
    normalizedAgain.2, stable.2.2.1 _ simplified⟩

end NamelessLambda
