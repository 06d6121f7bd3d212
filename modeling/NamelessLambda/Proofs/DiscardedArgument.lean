import NamelessLambda.Proofs.CallByName
import NamelessLambda.Proofs.ShiftExchange

/-!
Contract: an argument that is discarded takes no part in an evaluation.

Two head steps turn `constant`, applied to a term and a further argument, into
that term. The first one shifts the term below a binder, and the second one
removes this binder with the argument. From there on the evaluation is that of
the term, and a run that stops never comes back to the two terms before it.

Owns:
- the two steps, and what prevents them;
- the limits under which the evaluation of the term is still the same.

Does not own:
- on which terms one of the steps is blocked.
-/

namespace NamelessLambda

open Term

namespace Term

/-! ## The two steps -/

/-- The body of `constant` is the variable of the first argument, below the second binder. -/
private theorem substitute_constant (term : Term) :
    (Term.lam (.var 1)).substitute term 0 =
      (fun shifted => ⟨.lam shifted, if shifted.isVar then 0 else 1⟩) <$> term.shift 0 := by
  rw [substitute]
  cases term.shift 0 <;> rfl

/-- The first step keeps the term below one binder, and the second one restores it, unless one of
them is blocked. -/
private theorem discard_cases (term discarded : Term) :
    (∃ shifted, Shifted 0 term shifted ∧
      (Sample.constant.applyAll [term, discarded]).state? 1 =
        some (.app (.lam shifted) discarded) ∧
      (Sample.constant.applyAll [term, discarded]).state? 2 = some term) ∨
    ∃ steps < 2, ∃ state,
      (Sample.constant.applyAll [term, discarded]).state? steps = some state ∧ state.Blocked := by
  have first := substitute_constant term
  cases ran : term.shift 0 with
  | error failure =>
      rw [ran] at first
      exact .inr ⟨0, by omega, _, rfl, blocked_of_redex first [discarded]⟩
  | ok shifted =>
      rw [ran] at first
      have moved : (Sample.constant.applyAll [term, discarded]).headStep =
          .ok (some (.app (.lam shifted) discarded)) :=
        headStep_eq_some_iff.mpr ⟨_, term, [discarded], _, rfl, first, rfl⟩
      have reached : (Sample.constant.applyAll [term, discarded]).state? 1 =
          some (.app (.lam shifted) discarded) :=
        Path.after?_succ_of_moves rfl moved
      cases back : shifted.substitute discarded 0 with
      | error failure => exact .inr ⟨1, by omega, _, reached, blocked_of_redex back []⟩
      | ok result =>
          cases substitute_of_shift ran back
          have restored : (Term.app (.lam shifted) discarded).headStep = .ok (some term) :=
            headStep_eq_some_iff.mpr ⟨shifted, discarded, [], _, rfl, back, rfl⟩
          exact .inl ⟨shifted, ran, reached, Path.after?_succ_of_moves reached restored⟩

private theorem nodeCount_constant (term discarded : Term) :
    (Sample.constant.applyAll [term, discarded]).nodeCount =
      term.nodeCount + discarded.nodeCount + 5 := by
  have binders : Sample.constant.nodeCount = 3 := rfl
  rw [nodeCount_applyAll, binders]
  simp only [List.length_cons, List.length_nil, totalNodes]
  omega

/-- The shifted term is as large as the term, so the first step takes three nodes away. -/
private theorem size_lt_of_discard {term discarded shifted state : Term} {bound index : Nat}
    (small : term.size + discarded.size + 5 < bound) (ran : Shifted 0 term shifted)
    (reached : (Sample.constant.applyAll [term, discarded]).state? 1 =
      some (.app (.lam shifted) discarded))
    (lt : index < 2)
    (reachedState : (Sample.constant.applyAll [term, discarded]).state? index = some state) :
    state.size < bound := by
  simp only [size_eq_nodeCount] at small ⊢
  rcases Nat.le_one_iff_eq_zero_or_eq_one.mp (Nat.le_of_lt_succ lt) with rfl | rfl
  · rw [Path.after?_zero_eq_some_iff.mp reachedState, nodeCount_constant]
    exact small
  · cases reached.symm.trans reachedState
    rw [nodeCount, nodeCount, nodeCount_of_shift ran]
    omega

end Term

/-- A term with a result has the same result as the first argument of `constant`, whatever the
second one is, under limits that admit the whole application and two more visited terms, unless one
of the two steps before is blocked. -/
theorem discarded_argument_ignored {limits looser : Limits} {term discarded result : Term}
    (ran : limits.normalize term = .ok result) (size_le : limits.maxSize ≤ looser.maxSize)
    (small : term.size + discarded.size + 5 < looser.maxSize)
    (states_le : limits.maxStates + 2 ≤ looser.maxStates)
    (unblocked : ∀ steps < 2, ∀ state,
      (Sample.constant.applyAll [term, discarded]).state? steps = some state → ¬ state.Blocked) :
    looser.normalize (Sample.constant.applyAll [term, discarded]) = .ok result := by
  rcases discard_cases term discarded with
    ⟨shifted, shifts, reached, restored⟩ | ⟨steps, lt, state, reached, blocked⟩
  · apply normalize_of_state? restored _ size_le states_le ran
    intro index lt state reachedState
    exact size_lt_of_discard small shifts reached lt reachedState
  · exact absurd blocked (unblocked steps lt state reached)

/-- The least limits at which the identity applied to itself has a result, and the least ones that
admit the divergent argument next to it. -/
theorem omega_discarded :
    (⟨20, 5⟩ : Limits).normalize
        (Sample.constant.applyAll [applyAll Sample.identity [Sample.identity], Sample.omega]) =
      .ok Sample.identity := by
  have ran : (⟨6, 3⟩ : Limits).normalize (applyAll Sample.identity [Sample.identity]) =
      .ok Sample.identity :=
    normalize_of_single_step (by decide) (by decide) rfl (by decide) rfl rfl
  have sizes : (applyAll Sample.identity [Sample.identity]).size + Sample.omega.size + 5 < 20 := by
    rw [size_eq_nodeCount, size_eq_nodeCount]
    decide
  have restored : (Sample.constant.applyAll
      [applyAll Sample.identity [Sample.identity], Sample.omega]).state? 2 =
        some (applyAll Sample.identity [Sample.identity]) := rfl
  exact discarded_argument_ignored ran (by decide) sizes (by decide)
    fun _ lt _ reached => not_blocked_of_state? restored lt reached

end NamelessLambda
