import NamelessLambda.Proofs.CallByName
import NamelessLambda.Proofs.PureTerm.Simulation
import NamelessLambda.Proofs.Stability

/-!
Contract: stepping from a cleaned term ends no later and at the same head.

Cleaning contracts many redexes at once, wherever they stand. Each head step of the
original start is matched by at most one of the cleaned one, and what is left
between the two states is contractions, which never change the head of a state
without a step.

Owns:
- `Term.SameHead`;
- the simulation of head steps from any reduct, and its end.

Does not own:
- how far apart the two states are otherwise.
-/

namespace NamelessLambda

open Relation

namespace Term

/-- Both are binders, or both are one variable other than a sentinel under equally many
arguments. -/
def SameHead (term other : Term) : Prop :=
  (∃ body body', term = .lam body ∧ other = .lam body') ∨
    ∃ level arguments arguments', level.isSentinel = false ∧
      arguments'.length = arguments.length ∧ term = (Term.var level).applyAll arguments ∧
      other = (Term.var level).applyAll arguments'

/-! ## What contractions of the reading keep -/

/-- Every step of a run is matched by at most one step from a reduct, unless that one is blocked. -/
private theorem exists_state_of_reduct {start reduct last : Term} {steps : Nat}
    (reduces : ReflTransGen PureTerm.Beta start.toPure reduct.toPure)
    (reached : start.state? steps = some last) :
    ∃ fewer ≤ steps, ∃ state, reduct.state? fewer = some state ∧
      (ReflTransGen PureTerm.Beta last.toPure state.toPure ∨ state.Blocked) := by
  induction steps generalizing start reduct with
  | zero =>
      rw [Path.after?_zero_eq_some_iff.mp reached]
      exact ⟨0, Nat.le_refl 0, reduct, rfl, .inl reduces⟩
  | succ steps inductionHypothesis =>
      obtain ⟨next, moved, reachedLast⟩ := Path.after?_succ_eq_some_iff.mp reached
      rcases (weakHead_of_headStep moved).after_reduces reduces with
        already | ⟨_, headStep, reducesNext⟩
      · obtain ⟨fewer, le, found⟩ := inductionHypothesis already reachedLast
        exact ⟨fewer, Nat.le_succ_of_le le, found⟩
      · rcases headStep_of_weakHead headStep with ⟨next', moved', rfl⟩ | blocked
        · obtain ⟨fewer, le, state, reachedState, ends⟩ :=
            inductionHypothesis reducesNext reachedLast
          exact ⟨fewer + 1, Nat.succ_le_succ le, state,
            Path.after?_succ_eq_some_iff.mpr ⟨next', moved', reachedState⟩, ends⟩
        · exact ⟨0, Nat.zero_le _, reduct, rfl, .inr blocked⟩

private theorem WeakHeadNormal.sameHead {term reduct : Term} (normal : term.WeakHeadNormal)
    (reduces : ReflTransGen PureTerm.Beta term.toPure reduct.toPure) :
    reduct.WeakHeadNormal ∧ term.SameHead reduct := by
  rcases normal with ⟨body, rfl⟩ | ⟨level, arguments, plain, rfl⟩
  · obtain ⟨body', rfl⟩ := lam_of_reduces reduces
    exact ⟨.inl ⟨body', rfl⟩, .inl ⟨body, body', rfl, rfl⟩⟩
  · obtain ⟨arguments', length, rfl⟩ := spine_of_reduces reduces
    exact ⟨.inr ⟨level, arguments', plain, rfl⟩,
      .inr ⟨level, arguments, arguments', plain, length, rfl, rfl⟩⟩

private theorem headStep_divergent_of_reduces {term reduct : Term} {code : Level}
    (failed : term.headStep = .error (.divergent code))
    (reduces : ReflTransGen PureTerm.Beta term.toPure reduct.toPure) :
    reduct.headStep = .error (.divergent code) := by
  obtain ⟨sentinel, arguments, rfl⟩ := head_of_headStep failed
  obtain ⟨arguments', _, rfl⟩ := spine_of_reduces reduces
  rw [headStep_applyAll_var, if_pos sentinel]

end Term

open Term

/-- Cleaning before stepping delays neither the end of the steps nor a fatal sentinel, and the
steps end at the same head, unless a step from the cleaned term is blocked. -/
theorem cleaned_start_simulates {start cleaned last : Term} {passes steps : Nat}
    (reachedCleaned : Path.after? clean passes start = some cleaned)
    (reached : start.state? steps = some last) :
    (last.headStep = .ok none →
      ∃ fewer ≤ steps, ∃ state, cleaned.state? fewer = some state ∧
        ((state.headStep = .ok none ∧ last.SameHead state) ∨ state.Blocked)) ∧
    (∀ code, last.headStep = .error (.divergent code) →
      ∃ fewer ≤ steps, ∃ state, cleaned.state? fewer = some state ∧
        (state.headStep = .error (.divergent code) ∨ state.Blocked)) := by
  have reduces := toPure_of_contracts (contracts_of_after?_clean reachedCleaned)
  obtain ⟨fewer, le, state, reachedState, remaining | blocked⟩ :=
    exists_state_of_reduct reduces reached
  · constructor
    · intro settles
      obtain ⟨normal, sameHead⟩ := (headStep_eq_none_iff.mp settles).sameHead remaining
      exact ⟨fewer, le, state, reachedState, .inl ⟨headStep_eq_none_iff.mpr normal, sameHead⟩⟩
    · intro code fails
      exact ⟨fewer, le, state, reachedState, .inl (headStep_divergent_of_reduces fails remaining)⟩
  · exact ⟨fun _ => ⟨fewer, le, state, reachedState, .inr blocked⟩,
      fun _ _ => ⟨fewer, le, state, reachedState, .inr blocked⟩⟩

/-- A pass makes the first of the two steps that discard an argument, whether what is left is a
binder or a sentinel. -/
theorem cleaned_discard_simulates :
    (∃ fewer ≤ 2, ∃ state,
      (Term.app (.lam Sample.identity) 0).state? fewer = some state ∧
        ((state.headStep = .ok none ∧ Sample.identity.SameHead state) ∨ state.Blocked)) ∧
    (∃ fewer ≤ 2, ∃ state,
      (Term.app (.lam (.var (-1))) 0).state? fewer = some state ∧
        (state.headStep = .error (.divergent (-1)) ∨ state.Blocked)) := by
  have cleaned : Path.after? clean 1 (Sample.constant.applyAll [Sample.identity, 0]) =
      some (Term.app (.lam Sample.identity) 0) := rfl
  have reached : (Sample.constant.applyAll [Sample.identity, 0]).state? 2 =
      some Sample.identity := rfl
  have cleanedSentinel : Path.after? clean 1 (Sample.constant.applyAll [.var (-1), 0]) =
      some (Term.app (.lam (.var (-1))) 0) := rfl
  have reachedSentinel : (Sample.constant.applyAll [.var (-1), 0]).state? 2 =
      some (.var (-1)) := rfl
  exact ⟨(cleaned_start_simulates cleaned reached).1 rfl,
    (cleaned_start_simulates cleanedSentinel reachedSentinel).2 (-1) rfl⟩

end NamelessLambda
