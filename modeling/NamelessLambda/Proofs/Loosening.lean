import NamelessLambda.Proofs.Stepping

/-!
Contract: limits decide whether an evaluation goes on, and nothing else.

Two runs of one evaluation under different limits do the same until a limit stops
one of them. A run that was not stopped by a limit is therefore the same run, with
the same events, under any limits that are looser there.

Owns:
- `Limits.LoosensPast`, which limits may be raised after an outcome;
- the lock step of the two runs.

Does not own:
- which outcome a run has.
-/

namespace NamelessLambda

open Term

/-- `looser` allows no less than `limits`, and no more of what `outcome` was a failure on. -/
structure Limits.LoosensPast (limits looser : Limits) (outcome : Except Failure Term) : Prop where
  size_le : limits.maxSize ≤ looser.maxSize
  states_le : limits.maxStates ≤ looser.maxStates
  size_eq : ∀ size limit, outcome = .error (.oversized size limit) →
    looser.maxSize = limits.maxSize
  states_eq : ∀ visited limit, outcome = .error (.exhausted visited limit) →
    looser.maxStates = limits.maxStates

namespace Run

open Limits (LoosensPast)

variable {limits looser : Limits}

private theorem simplifyFrom_of_loosensPast {events : Array Event} {term : Term}
    (loosens : limits.LoosensPast looser (simplifyFrom limits events term).outcome) :
    simplifyFrom looser events term = simplifyFrom limits events term := by
  unfold simplifyFrom at loosens ⊢
  by_cases large : limits.maxSize ≤ term.size
  · rw [if_pos large] at loosens ⊢
    have same := loosens.size_eq _ _ rfl
    rw [same, if_pos large]
  · have higher := loosens.size_le
    rw [if_neg large, if_neg (by omega)]

/-- Both loops look at the same term with the same visited set in every round. -/
private theorem normalizeFrom_of_loosensPast {visited : Std.HashSet Term} {events : Array Event}
    {current : Term}
    (loosens : limits.LoosensPast looser (normalizeFrom limits visited events current).outcome) :
    normalizeFrom looser visited events current = normalizeFrom limits visited events current := by
  -- The cases are the exits of the tighter loop; the looser one is opened by hand in each.
  fun_induction normalizeFrom limits visited events current with
  | case1 visited events current full =>
      have same := loosens.states_eq _ _ rfl
      rw [normalizeFrom, same, if_pos full]
  | case2 visited events current room failure fails =>
      have more := loosens.states_le
      rw [normalizeFrom, if_neg (by omega), fails]
  | case3 visited events current room settles =>
      have more := loosens.states_le
      rw [normalizeFrom, if_neg (by omega), settles]
      exact simplifyFrom_of_loosensPast loosens
  | case4 visited events current room next moved size reported =>
      rename_i large
      have more := loosens.states_le
      have same := loosens.size_eq _ _ rfl
      rw [normalizeFrom, if_neg (by omega), moved, same]
      exact if_pos large
  | case5 visited events current room next moved size reported small =>
      rename_i met
      have more := loosens.states_le
      have higher := loosens.size_le
      rw [normalizeFrom, if_neg (by omega), moved]
      simp only [if_pos met]
      exact if_neg (by omega)
  | case6 visited events current room next moved size reported small new =>
      rename_i inductionHypothesis
      have more := loosens.states_le
      have higher := loosens.size_le
      rw [normalizeFrom, if_neg (by omega), moved]
      simp only [if_neg new]
      rw [if_neg (by omega)]
      exact inductionHypothesis loosens

private theorem normalize_of_loosensPast {term : Term}
    (loosens : limits.LoosensPast looser (normalize limits term).outcome) :
    normalize looser term = normalize limits term := by
  by_cases large : limits.maxSize ≤ term.size
  · simp only [normalize, if_pos large] at loosens ⊢
    have same := loosens.size_eq _ _ rfl
    rw [same, if_pos large]
  · have higher := loosens.size_le
    simp only [normalize, if_neg large] at loosens ⊢
    rw [if_neg (by omega)]
    exact normalizeFrom_of_loosensPast loosens

private theorem evaluate_of_loosensPast {term : Term}
    (loosens : limits.LoosensPast looser (evaluate limits term).outcome) :
    evaluate looser term = evaluate limits term := by
  unfold evaluate at loosens ⊢
  cases shape : term.isLam with
  | true =>
      rw [shape] at loosens
      exact simplifyFrom_of_loosensPast loosens
  | false =>
      rw [shape] at loosens
      exact normalize_of_loosensPast loosens

/-- An evaluation is the same run under looser limits if what it was stopped by is not loosened. -/
theorem eq_of_loosensPast {evaluation : Limits → Term → Run}
    (known : evaluation ∈ [simplify, normalize, evaluate]) {term : Term}
    (loosens : limits.LoosensPast looser (evaluation limits term).outcome) :
    evaluation looser term = evaluation limits term := by
  simp only [List.mem_cons, List.not_mem_nil, or_false] at known
  rcases known with rfl | rfl | rfl
  · exact simplifyFrom_of_loosensPast loosens
  · exact normalize_of_loosensPast loosens
  · exact evaluate_of_loosensPast loosens

end Run

/-- Raising one limit changes no run that was not stopped by it, and raising both changes no run
that was stopped by neither: the outcome is the same, and so are the events. -/
theorem limits_only_gate {evaluation : Limits → Term → Run}
    (known : evaluation ∈ [Run.simplify, Run.normalize, Run.evaluate])
    (limits looser : Limits) (term : Term) :
    (looser.maxSize = limits.maxSize → limits.maxStates ≤ looser.maxStates →
      (∀ visited limit, (evaluation limits term).outcome ≠ .error (.exhausted visited limit)) →
      evaluation looser term = evaluation limits term) ∧
    (looser.maxStates = limits.maxStates → limits.maxSize ≤ looser.maxSize →
      (∀ size limit, (evaluation limits term).outcome ≠ .error (.oversized size limit)) →
      evaluation looser term = evaluation limits term) ∧
    (limits.maxSize ≤ looser.maxSize → limits.maxStates ≤ looser.maxStates →
      (∀ visited limit, (evaluation limits term).outcome ≠ .error (.exhausted visited limit)) →
      (∀ size limit, (evaluation limits term).outcome ≠ .error (.oversized size limit)) →
      evaluation looser term = evaluation limits term) := by
  refine ⟨?_, ?_, ?_⟩
  · intro sameSize moreStates notExhausted
    apply Run.eq_of_loosensPast known
    exact ⟨Nat.le_of_eq sameSize.symm, moreStates, fun _ _ _ => sameSize,
      fun visited limit stopped => absurd stopped (notExhausted visited limit)⟩
  · intro sameStates largerSize notOversized
    apply Run.eq_of_loosensPast known
    exact ⟨largerSize, Nat.le_of_eq sameStates.symm,
      fun size limit stopped => absurd stopped (notOversized size limit), fun _ _ _ => sameStates⟩
  · intro largerSize moreStates notExhausted notOversized
    apply Run.eq_of_loosensPast known
    exact ⟨largerSize, moreStates,
      fun size limit stopped => absurd stopped (notOversized size limit),
      fun visited limit stopped => absurd stopped (notExhausted visited limit)⟩

/-- The least limits under which the repetition of `omega` is found find it as all larger ones. -/
theorem normalize_omega_loosened :
    (Run.normalize ⟨10, 2⟩ Sample.omega).outcome = .error (.cyclic 1) ∧
      Run.normalize ⟨10, 1024⟩ Sample.omega = Run.normalize ⟨10, 2⟩ Sample.omega ∧
      Run.normalize ⟨1024, 2⟩ Sample.omega = Run.normalize ⟨10, 2⟩ Sample.omega ∧
      Run.normalize .standard Sample.omega = Run.normalize ⟨10, 2⟩ Sample.omega := by
  have fresh : FreshRun Sample.omega (⟨10, 2⟩ : Limits).maxSize 1 :=
    freshRun_one (by rw [size_eq_nodeCount]; decide)
  have cyclic : (Run.normalize ⟨10, 2⟩ Sample.omega).outcome = .error (.cyclic 1) :=
    normalize_eq_cyclic_iff.mpr ⟨fresh, by decide, 0, Nat.one_pos, Sample.omega, rfl, rfl⟩
  have known : Run.normalize ∈ [Run.simplify, Run.normalize, Run.evaluate] := by simp
  have notExhausted : ∀ visited limit,
      (Run.normalize ⟨10, 2⟩ Sample.omega).outcome ≠ .error (.exhausted visited limit) := by
    intro visited limit
    rw [cyclic]
    simp
  have notOversized : ∀ size limit,
      (Run.normalize ⟨10, 2⟩ Sample.omega).outcome ≠ .error (.oversized size limit) := by
    intro size limit
    rw [cyclic]
    simp
  exact ⟨cyclic,
    (limits_only_gate known ⟨10, 2⟩ ⟨10, 1024⟩ Sample.omega).1 rfl (by decide) notExhausted,
    (limits_only_gate known ⟨10, 2⟩ ⟨1024, 2⟩ Sample.omega).2.1 rfl (by decide) notOversized,
    (limits_only_gate known ⟨10, 2⟩ .standard Sample.omega).2.2 (by decide) (by decide)
      notExhausted notOversized⟩

end NamelessLambda
