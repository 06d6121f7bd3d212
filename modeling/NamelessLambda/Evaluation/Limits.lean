/-!
Contract: the bounds under which a term is evaluated, and how they are given.

Owns:
- the two bounds and their standard values;
- `Setting`, what a configuration document may hold, and its reading.

Does not own:
- the document format itself.
-/

namespace NamelessLambda

/-- Bounds of an evaluation. -/
structure Limits where
  /-- Every term that is evaluated or reached by a step has fewer nodes than this. -/
  maxSize : Nat
  /-- Evaluation fails once this many different terms have been visited. -/
  maxStates : Nat
deriving DecidableEq, Repr

namespace Limits

/-- Standard value of both bounds. -/
def threshold : Nat := 1024

/-- The same bound for sizes and visited terms. -/
def uniform (bound : Nat) : Limits := ⟨bound, bound⟩

def standard : Limits := uniform threshold

instance instInhabitedStandard : Inhabited Limits := ⟨standard⟩

end Limits

/-- Value in a configuration document, as far as a bound can depend on it. -/
inductive Setting.Entry where
  | integer (value : Int)
  | other
deriving DecidableEq, Repr

/-- Configuration document, as far as limits can depend on it. -/
inductive Setting where
  | sequence (entries : List Setting.Entry)
  | table (fields : List (String × Setting.Entry))
  | other
deriving DecidableEq, Repr

/-- A bound is an unsigned 64-bit integer. -/
def Setting.Entry.bound? : Setting.Entry → Option Nat
  | .integer value => if 0 ≤ value ∧ value.toNat < UInt64.size then some value.toNat else none
  | .other => none

/-- Bound under `key`, the standard one if the key is absent. -/
def Setting.field? (fields : List (String × Setting.Entry)) (key : String) : Option Nat :=
  match fields.lookup key with
  | none => some Limits.threshold
  | some entry => entry.bound?

/-- Limits that a document describes: a table by key, or a sequence by position.
Absent bounds are standard, other keys are ignored, and a third position is an error. -/
def Limits.ofSetting? : Setting → Option Limits
  | .sequence [] => some .standard
  | .sequence [size] => do return ⟨← size.bound?, threshold⟩
  | .sequence [size, states] => do return ⟨← size.bound?, ← states.bound?⟩
  | .table fields => do
      return ⟨← Setting.field? fields "max_size", ← Setting.field? fields "max_states"⟩
  | _ => none

end NamelessLambda
