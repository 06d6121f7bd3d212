/-!
Contract: variable levels and the two guarded moves on them.

A level is a signed 64-bit number. From zero upward it counts the binders
between a variable and the one that binds it; below zero it is a sentinel that
no binder ever captures.

Owns:
- the level type, its greatest value and its sentinels;
- `next?`, the successor that stops at the greatest level;
- `ofInt?`, the level of an integer that is not too far from zero;
- the readings of these moves as integers.

Does not own:
- what a caller reports when a level has no successor.
-/

namespace NamelessLambda

/-- Number that stands for a variable. -/
abbrev Level := Int64

namespace Level

/-- Greatest level, the only one without a successor. -/
def last : Level := Int64.maxValue

/-- Sentinels lie below zero. No binder captures one and no shift moves one. -/
def isSentinel (level : Level) : Bool := level < 0

/-- Level one further out, unless `level` is already the greatest. -/
def next? (level : Level) : Option Level :=
  if level = last then none else some (level + 1)

/-- Level equal to `value`, if it fits. -/
def ofInt? (value : Int) : Option Level :=
  if Int64.minValue.toInt ≤ value ∧ value ≤ last.toInt then some (Int64.ofInt value) else none

@[simp] theorem toInt_last : last.toInt = 9223372036854775807 := by decide

theorem toInt_le_last (level : Level) : level.toInt ≤ last.toInt := by
  have bound := level.toInt_lt
  rw [toInt_last]
  omega

theorem next?_eq_none_iff (level : Level) : level.next? = none ↔ level = last := by
  simp [next?]

theorem next?_eq_some_iff {level further : Level} :
    level.next? = some further ↔ level ≠ last ∧ further = level + 1 := by
  simp [next?, eq_comm]

/-- A successor is one greater as an integer: nothing wraps. -/
theorem toInt_of_next?_eq_some {level further : Level} (found : level.next? = some further) :
    further.toInt = level.toInt + 1 := by
  obtain ⟨different, rfl⟩ := next?_eq_some_iff.mp found
  have below : level.toInt ≠ last.toInt := fun same => different (Int64.toInt_inj.mp same)
  have bound := toInt_le_last level
  have least := level.le_toInt
  rw [toInt_last] at below bound
  rw [Int64.toInt_add, Int.bmod_eq_of_le]
  · rfl
  · show -(2 ^ 64 / 2) ≤ level.toInt + 1
    omega
  · show level.toInt + 1 < (2 ^ 64 + 1) / 2
    omega

theorem exists_next?_of_lt {level : Level} (room : level.toInt < last.toInt) :
    ∃ further, level.next? = some further ∧ further.toInt = level.toInt + 1 := by
  cases found : level.next? with
  | none =>
      rw [(next?_eq_none_iff level).mp found] at room
      exact absurd room (Int.lt_irrefl _)
  | some further => exact ⟨further, rfl, toInt_of_next?_eq_some found⟩

theorem next?_eq_some_of_toInt {level further : Level} (next : further.toInt = level.toInt + 1) :
    level.next? = some further := by
  have bound := toInt_le_last further
  obtain ⟨other, found, nextOther⟩ := exists_next?_of_lt (by omega : level.toInt < last.toInt)
  rw [found, Int64.toInt_inj.mp (nextOther.trans next.symm)]

/-- Stepping inward from a level that lies above another one never wraps. -/
theorem toInt_sub_one_of_lt {lower level : Level} (above : lower < level) :
    (level - 1).toInt = level.toInt - 1 := by
  have gap := Int64.lt_iff_toInt_lt.mp above
  have least := lower.le_toInt
  have bound := level.toInt_lt
  rw [Int64.toInt_sub, Int.bmod_eq_of_le]
  · rfl
  · show -(2 ^ 64 / 2) ≤ level.toInt - 1
    omega
  · show level.toInt - 1 < (2 ^ 64 + 1) / 2
    omega

theorem ofInt?_toInt (level : Level) : ofInt? level.toInt = some level := by
  have least : Int64.minValue.toInt ≤ level.toInt := level.le_toInt
  rw [ofInt?, if_pos ⟨least, level.toInt_le_last⟩, Int64.ofInt_toInt]

theorem ofInt?_eq_some_iff {value : Int} {level : Level} :
    ofInt? value = some level ↔ level.toInt = value := by
  constructor
  · intro found
    have least : Int64.minValue.toInt = -9223372036854775808 := by decide
    unfold ofInt? at found
    split at found
    case isTrue fits =>
      rw [least, toInt_last] at fits
      rw [← Option.some.inj found, Int64.toInt_ofInt_of_le (by omega) (by omega)]
    case isFalse => cases found
  · rintro rfl
    exact ofInt?_toInt level

end Level

end NamelessLambda
