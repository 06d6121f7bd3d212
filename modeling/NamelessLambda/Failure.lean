import NamelessLambda.Level

/-!
Contract: the ways in which reducing a term fails.

Owns:
- one constructor per cause, carrying what the cause measured;
- the wording of each;
- the two guarded moves on levels, with the cause that each reports;
- when a computation in two parts succeeds and when it fails.

Does not own:
- where each cause arises.
-/

namespace NamelessLambda

/-- Cause of a failed reduction. -/
inductive Failure where
  /-- The head of the term is the sentinel `code`. -/
  | divergent (code : Level)
  /-- A term has `size` nodes, but fewer than `limit` are allowed. -/
  | oversized (size limit : Nat)
  /-- The stepper has `visited` terms, but fewer than `limit` are allowed. -/
  | exhausted (visited limit : Nat)
  /-- A step led back to an earlier term. -/
  | cyclic (steps : Nat)
  /-- The greatest level would have to move past one more binder. -/
  | unshiftable (level : Level)
  /-- The count of enclosing binders would pass the greatest level. -/
  | binderOverflow
deriving DecidableEq, Repr

/-- Wording shared by the causes that stop a computation for growing or running too far. -/
private def runaway (detail : String) : String := "runaway computation: " ++ detail

def Failure.message : Failure → String
  | .divergent code =>
      "reached divergent term at head position, error code: " ++ toString code.toInt
  | .oversized size limit =>
      runaway ("expression grew to size " ++ toString size ++ ", limit is " ++ toString limit)
  | .exhausted visited limit =>
      runaway ("visited " ++ toString visited ++ " states, limit is " ++ toString limit)
  | .cyclic steps =>
      runaway ("reduction revisited an earlier state after " ++ toString steps ++ " steps")
  | .unshiftable level =>
      runaway ("variable " ++ toString level.toInt ++ " cannot be shifted under another binder")
  | .binderOverflow => "attempt to add with overflow"

/-- A computation in two parts succeeds exactly if both parts do. -/
theorem Failure.bind_eq_ok_iff {α β : Type} {first : Except Failure α}
    {second : α → Except Failure β} {value : β} :
    (first >>= second) = .ok value ↔ ∃ middle, first = .ok middle ∧ second middle = .ok value := by
  cases first <;> simp [bind, Except.bind]

theorem Failure.pure_eq_ok_iff {α : Type} {given value : α} :
    (pure given : Except Failure α) = .ok value ↔ value = given := by
  simp [pure, Except.pure, eq_comm]

theorem Failure.map_eq_ok_iff {α β : Type} {first : Except Failure α} {change : α → β}
    {value : β} :
    change <$> first = .ok value ↔ ∃ given, first = .ok given ∧ value = change given := by
  cases first <;> simp [Functor.map, Except.map, eq_comm]

theorem Failure.bind_eq_error_iff {α β : Type} {first : Except Failure α}
    {second : α → Except Failure β} {failure : Failure} :
    (first >>= second) = .error failure ↔
      first = .error failure ∨ ∃ middle, first = .ok middle ∧ second middle = .error failure := by
  cases first <;> simp [bind, Except.bind]

theorem Failure.pure_ne_error {α : Type} (value : α) (failure : Failure) :
    (pure value : Except Failure α) ≠ .error failure := by
  intro same
  cases same

theorem Failure.map_eq_error_iff {α β : Type} {first : Except Failure α} {change : α → β}
    {failure : Failure} : change <$> first = .error failure ↔ first = .error failure := by
  cases first <;> simp [Functor.map, Except.map]

/-- Level of a variable once one more binder encloses it. -/
def Level.raise (level : Level) : Except Failure Level :=
  match level.next? with
  | some raised => .ok raised
  | none => .error (.unshiftable level)

/-- Level that a binder count has inside one more binder. -/
def Level.enter (level : Level) : Except Failure Level :=
  match level.next? with
  | some inner => .ok inner
  | none => .error .binderOverflow

theorem Level.raise_eq_ok_iff {level raised : Level} :
    level.raise = .ok raised ↔ level.next? = some raised := by
  cases found : level.next? <;> simp [raise, found]

theorem Level.raise_eq_error_iff {level : Level} {failure : Failure} :
    level.raise = .error failure ↔ level = last ∧ failure = .unshiftable level := by
  cases found : level.next? with
  | none =>
      have greatest := (next?_eq_none_iff level).mp found
      rw [raise, found]
      simp [greatest, eq_comm]
  | some raised =>
      have inner : level ≠ last := by
        intro same
        rw [(next?_eq_none_iff level).mpr same] at found
        cases found
      simp [raise, found, inner]

theorem Level.enter_eq_ok_iff {level inner : Level} :
    level.enter = .ok inner ↔ level.next? = some inner := by
  cases found : level.next? <;> simp [enter, found]

theorem Level.enter_eq_error_iff {level : Level} {failure : Failure} :
    level.enter = .error failure ↔ level = last ∧ failure = .binderOverflow := by
  cases found : level.next? with
  | none =>
      have greatest := (next?_eq_none_iff level).mp found
      rw [enter, found]
      simp [greatest, eq_comm]
  | some inner =>
      have notLast : level ≠ last := by
        intro same
        rw [(next?_eq_none_iff level).mpr same] at found
        cases found
      simp [enter, found, notLast]

end NamelessLambda
