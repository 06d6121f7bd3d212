import Mathlib.Logic.Relation
import NamelessLambda.Reduction.Path

/-!
Contract: the term that a given number of moves leads to.

A move is a function, so its run from one start is a sequence of terms. The run
ends where the move reports that nothing applies or that it failed.

Owns:
- `Path.Stopped`, a term that no move leads away from;
- `Path.after?`, the term after a given number of moves;
- how runs compose, where they end and what a repetition means for them.
-/

namespace NamelessLambda

namespace Path

variable {move : Term → Except Failure (Option Term)} {start last : Term}

/-- The move leads nowhere from `term`. -/
def Stopped (move : Term → Except Failure (Option Term)) (term : Term) : Prop :=
  ∀ next, move term ≠ .ok (some next)

/-- A move leads nowhere because it does not apply or because it fails. -/
theorem stopped_iff {term : Term} :
    Stopped move term ↔ move term = .ok none ∨ ∃ failure, move term = .error failure := by
  constructor
  · intro stopped
    cases outcome : move term with
    | error failure => exact .inr ⟨failure, rfl⟩
    | ok next =>
        cases next with
        | none => exact .inl rfl
        | some next => exact absurd outcome (stopped next)
  · intro ends next moved
    rcases ends with settled | ⟨failure, failed⟩
    · rw [settled] at moved
      cases moved
    · rw [failed] at moved
      cases moved

theorem stopped_of_settled {term : Term} (settled : move term = .ok none) : Stopped move term :=
  stopped_iff.mpr (.inl settled)

theorem stopped_of_failed {term : Term} {failure : Failure} (failed : move term = .error failure) :
    Stopped move term :=
  stopped_iff.mpr (.inr ⟨failure, failed⟩)

theorem stopped_or_moves (move : Term → Except Failure (Option Term)) (term : Term) :
    Stopped move term ∨ ∃ next, move term = .ok (some next) := by
  by_cases moves : ∃ next, move term = .ok (some next)
  · exact .inr moves
  · exact .inl (not_exists.mp moves)

/-- Term after exactly `count` moves, if each of them leads to one. -/
def after? (move : Term → Except Failure (Option Term)) :
    (count : Nat) → (start : Term) → Option Term
  | 0, start => some start
  | count + 1, start =>
      match move start with
      | .ok (some next) => after? move count next
      | _ => none

theorem after?_zero_eq_some_iff : after? move 0 start = some last ↔ last = start := by
  rw [after?, Option.some_inj, eq_comm]

theorem after?_succ_eq_some_iff {count : Nat} :
    after? move (count + 1) start = some last ↔
      ∃ next, move start = .ok (some next) ∧ after? move count next = some last := by
  rw [after?]
  split
  · rename_i next moved
    simp [moved]
  · rename_i stopped
    constructor
    · intro impossible
      cases impossible
    · rintro ⟨next, moved, _⟩
      exact absurd moved (stopped next)

theorem after?_add (first second : Nat) (start : Term) :
    after? move (first + second) start =
      (after? move first start).bind (after? move second) := by
  induction first generalizing start with
  | zero => rw [Nat.zero_add]; rfl
  | succ first inductionHypothesis =>
      rw [Nat.add_right_comm, after?, after?]
      split
      · rw [inductionHypothesis]
      · rfl

/-- A run goes on from each of its terms. -/
theorem after?_add_of_after? {first : Nat} {middle : Term}
    (reached : after? move first start = some middle) (more : Nat) :
    after? move (first + more) start = after? move more middle := by
  rw [after?_add, reached, Option.bind_some]

/-- A run is one move longer exactly if the move applies to its last term. -/
theorem after?_succ_eq_some_iff_last {count : Nat} :
    after? move (count + 1) start = some last ↔
      ∃ before, after? move count start = some before ∧ move before = .ok (some last) := by
  rw [after?_add, Option.bind_eq_some_iff]
  constructor
  · rintro ⟨before, reached, moved⟩
    obtain ⟨next, moved, same⟩ := after?_succ_eq_some_iff.mp moved
    rw [after?_zero_eq_some_iff.mp same]
    exact ⟨before, reached, moved⟩
  · rintro ⟨before, reached, moved⟩
    exact ⟨before, reached, after?_succ_eq_some_iff.mpr ⟨last, moved, rfl⟩⟩

theorem after?_succ_of_moves {count : Nat} {next : Term}
    (reached : after? move count start = some last) (moved : move last = .ok (some next)) :
    after? move (count + 1) start = some next :=
  after?_succ_eq_some_iff_last.mpr ⟨last, reached, moved⟩

theorem exists_after?_of_le {fewer count : Nat} (le : fewer ≤ count)
    (reached : after? move count start = some last) :
    ∃ middle, after? move fewer start = some middle := by
  obtain ⟨more, rfl⟩ := Nat.exists_eq_add_of_le le
  rw [after?_add, Option.bind_eq_some_iff] at reached
  obtain ⟨middle, reachedMiddle, _⟩ := reached
  exact ⟨middle, reachedMiddle⟩

/-- Nothing is reached beyond a term at which the run stops. -/
theorem after?_eq_none_of_stopped {count longer : Nat}
    (reached : after? move count start = some last) (stopped : Stopped move last)
    (lt : count < longer) : after? move longer start = none := by
  rw [Option.eq_none_iff_forall_ne_some]
  intro beyond reachedBeyond
  obtain ⟨next, reachedNext⟩ := exists_after?_of_le (Nat.succ_le_of_lt lt) reachedBeyond
  obtain ⟨before, reachedBefore, moved⟩ := after?_succ_eq_some_iff_last.mp reachedNext
  rw [reached] at reachedBefore
  cases reachedBefore
  exact stopped next moved

/-- Two terms at which a run stops are the same, after the same number of moves. -/
theorem stopped_unique {count count' : Nat} {last' : Term}
    (reached : after? move count start = some last)
    (reached' : after? move count' start = some last') (stopped : Stopped move last)
    (stopped' : Stopped move last') : count = count' ∧ last = last' := by
  have sameCount : count = count' := by
    rcases Nat.lt_trichotomy count count' with shorter | same | longer
    · rw [after?_eq_none_of_stopped reached stopped shorter] at reached'
      cases reached'
    · exact same
    · rw [after?_eq_none_of_stopped reached' stopped' longer] at reached
      cases reached
  subst sameCount
  rw [reached] at reached'
  exact ⟨rfl, Option.some.inj reached'⟩

/-- A run that stops has not met any term twice. -/
theorem after?_ne_of_stopped {count earlier later : Nat}
    (reached : after? move count start = some last) (stopped : Stopped move last)
    (lt : earlier < later) (le : later ≤ count) :
    after? move earlier start ≠ after? move later start := by
  intro same
  -- From the repeated term on, the run would stop sooner as well.
  have sooner : after? move (earlier + (count - later)) start = some last := by
    rw [after?_add, same, ← after?_add, Nat.add_sub_cancel' le, reached]
  rw [after?_eq_none_of_stopped sooner stopped (by omega)] at reached
  cases reached

private theorem terms_follow_of_moves {next : Term} (moved : move start = .ok (some next))
    (count : Nat) :
    (follow move (count + 1) start).terms = next :: (follow move count next).terms := by
  rw [follow, moved]

theorem terms_follow_succ {count : Nat} (reached : after? move (count + 1) start = some last) :
    (follow move (count + 1) start).terms = (follow move count start).terms ++ [last] := by
  induction count generalizing start with
  | zero =>
      obtain ⟨next, moved, same⟩ := after?_succ_eq_some_iff.mp reached
      rw [terms_follow_of_moves moved, after?_zero_eq_some_iff.mp same]
      rfl
  | succ count inductionHypothesis =>
      obtain ⟨next, moved, reachedLast⟩ := after?_succ_eq_some_iff.mp reached
      rw [terms_follow_of_moves moved, terms_follow_of_moves moved,
        inductionHypothesis reachedLast, List.cons_append]

theorem length_terms_follow {count : Nat} (reached : after? move count start = some last) :
    (follow move count start).terms.length = count := by
  induction count generalizing last with
  | zero => rfl
  | succ count inductionHypothesis =>
      obtain ⟨before, reachedBefore, _⟩ := after?_succ_eq_some_iff_last.mp reached
      rw [terms_follow_succ reached, List.length_append, inductionHypothesis reachedBefore,
        List.length_singleton]

theorem reflTransGen_of_after? {related : Term → Term → Prop} {count : Nat}
    (moves : ∀ term next, move term = .ok (some next) → Relation.ReflTransGen related term next)
    (reached : after? move count start = some last) :
    Relation.ReflTransGen related start last := by
  induction count generalizing last with
  | zero =>
      rw [after?_zero_eq_some_iff.mp reached]
  | succ count inductionHypothesis =>
      obtain ⟨before, reachedBefore, moved⟩ := after?_succ_eq_some_iff_last.mp reached
      exact (inductionHypothesis reachedBefore).trans (moves before last moved)

end Path

end NamelessLambda
