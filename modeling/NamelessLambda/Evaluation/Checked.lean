import NamelessLambda.Evaluation.Run

/-!
Contract: evaluation on machine numbers and a bounded stack.

Counters are unsigned and levels signed 64-bit numbers, and an operation nests
as many calls as its term is high. The operations here are those of an
evaluation, and they stop with a fault where a result would leave its range or
a term would be too high or too large.

Owns:
- `Fault`, and the arithmetic and the acceptance of terms that can raise it;
- the operations and the three evaluations that check both.

Does not own:
- under which conditions no fault arises.
-/

namespace NamelessLambda

/-- Why an evaluation on a machine breaks off. -/
inductive Fault where
  /-- A sum, a difference or a successor is outside its type. -/
  | overflow
  /-- A term handed to an operation is too high or too large. -/
  | unbounded (term : Term)
deriving DecidableEq, Repr

/-- Computation that may fail as a reduction does, or break off. -/
abbrev Checked (α : Type) := ExceptT Failure (Except Fault) α

namespace Checked

/-- Computation that does not break off. -/
def of {α : Type} (plain : Except Failure α) : Checked α := ExceptT.mk (.ok plain)

def add (first second : Nat) : Except Fault Nat :=
  if first + second < UInt64.size then .ok (first + second) else .error .overflow

def sub (first second : Nat) : Except Fault Nat :=
  if second ≤ first then .ok (first - second) else .error .overflow

/-- Level inside one more binder. -/
def enter (level : Level) : Except Fault Level :=
  if level = .last then .error .overflow else .ok (level + 1)

/-- Level of a variable once a binder around it is gone. -/
def leave (level : Level) : Except Fault Level :=
  if level = Int64.minValue then .error .overflow else .ok (level - 1)

/-- Every term handed to an operation is lower than `bound` and smaller than its square. -/
structure Accepted (bound : Nat) (term : Term) : Prop where
  height_lt : term.height < bound
  size_lt : term.nodeCount < bound * bound

instance instDecidableAccepted (bound : Nat) (term : Term) : Decidable (Accepted bound term) :=
  decidable_of_iff (term.height < bound ∧ term.nodeCount < bound * bound)
    ⟨fun both => ⟨both.1, both.2⟩, fun accepted => ⟨accepted.1, accepted.2⟩⟩

def accept (bound : Nat) (term : Term) : Except Fault Unit :=
  if Accepted bound term then .ok () else .error (.unbounded term)

/-! ## Operations on terms -/

def sizeOnto (counted : Nat) : List Term → Except Fault Nat
  | [] => .ok counted
  | .var _ :: pending => do sizeOnto (← add counted 1) pending
  | .lam body :: pending => do sizeOnto (← add counted 1) (body :: pending)
  | .app function argument :: pending => do
      sizeOnto (← add counted 1) (argument :: function :: pending)
termination_by pending => Term.totalNodes pending
decreasing_by all_goals simp only [Term.totalNodes, Term.nodeCount]; omega

def size (term : Term) : Except Fault Nat := sizeOnto 0 [term]

section Bounded

variable (bound : Nat)

def shift (cutoff : Level) (term : Term) : Checked Term := do
  accept bound term
  match term with
  | .var level => if level < cutoff then return .var level else return .var (← of level.raise)
  | .lam body => do
      let inner ← enter cutoff
      return .lam (← shift inner body)
  | .app function argument => do
      let function ← shift cutoff function
      let argument ← shift cutoff argument
      return .app function argument

def substitute (term replacement : Term) (target : Level) : Checked Substitution := do
  accept bound term
  accept bound replacement
  match term with
  | .var level =>
      if level = target then return ⟨replacement, if replacement.isVar then 0 else 1⟩
      else if level < target then return ⟨.var level, 0⟩
      else return ⟨.var (← leave level), 0⟩
  | .lam body => do
      let shifted ← shift bound 0 replacement
      let inner ← enter target
      let result ← substitute body shifted inner
      return ⟨.lam result.term, result.copies⟩
  | .app function argument => do
      let function ← substitute function replacement target
      let argument ← substitute argument replacement target
      return ⟨.app function.term argument.term, ← add function.copies argument.copies⟩

def headStep (term : Term) : Checked (Option Term) := do
  accept bound term
  match term with
  | .var level => if level.isSentinel then of (.error (.divergent level)) else return none
  | .lam _ => return none
  | .app (.lam body) argument => return some (← substitute bound body argument 0).term
  | .app function argument => return (← headStep function).map (.app · argument)

def contractFrugal : (function argument : Term) → Checked (Option Term)
  | .lam body, argument => do
      let result ← substitute bound body argument 0
      return if result.copies < 2 then some result.term else none
  | _, _ => return none

def clean (term : Term) : Checked (Option Term) := do
  accept bound term
  match term with
  | .var _ => return none
  | .lam body => return (← clean body).map .lam
  | .app function argument => do
      match ← contractFrugal bound function argument with
      | some reduced => return some reduced
      | none =>
          let function' ← clean function
          let argument' ← clean argument
          return Term.rebuildApp function argument function' argument'

/-- The number of passes is counted, so it bounds the loop. -/
def cleanAllFrom (passes : Nat) (term : Term) : Checked Cleaned := do
  match ← clean bound term with
  | none => return ⟨term, passes⟩
  | some cleaned =>
      if passes + 1 < UInt64.size then cleanAllFrom (passes + 1) cleaned
      else throwThe Fault .overflow
termination_by UInt64.size - passes

end Bounded

/-! ## Evaluations -/

variable (limits : Limits)

def simplifyFrom (events : Array Event) (term : Term) : Except Fault Run := do
  let size ← Checked.size term
  if limits.maxSize ≤ size then
    return ⟨events, .error (.oversized size limits.maxSize)⟩
  else
    match ← (cleanAllFrom limits.maxSize 0 term).run with
    | .error failure => return ⟨events, .error failure⟩
    | .ok cleaned =>
        let size ← Checked.size cleaned.term
        accept limits.maxSize cleaned.term
        return ⟨events.push (.simplified cleaned.term cleaned.passes size), .ok cleaned.term⟩

def normalizeFrom (visited : Std.HashSet Term) (events : Array Event) (current : Term) :
    Except Fault Run := do
  if limits.maxStates ≤ visited.size then
    return ⟨events, .error (.exhausted visited.size limits.maxStates)⟩
  else
    match ← (headStep limits.maxSize current).run with
    | .error failure => return ⟨events, .error failure⟩
    | .ok none =>
        let steps ← sub visited.size 1
        simplifyFrom limits (events.push (.settled steps)) current
    | .ok (some next) =>
        let size ← Checked.size next
        accept limits.maxSize next
        let events := events.push (.stepped next visited.size size)
        if limits.maxSize ≤ size then
          return ⟨events, .error (.oversized size limits.maxSize)⟩
        else if next ∈ visited then
          return ⟨events, .error (.cyclic visited.size)⟩
        else
          normalizeFrom (visited.insert next) events next
termination_by limits.maxStates - visited.size
decreasing_by
  rename_i room _ fresh
  rw [Std.HashSet.size_insert, if_neg fresh]
  omega

def simplify (term : Term) : Except Fault Run := simplifyFrom limits #[] term

def normalize (term : Term) : Except Fault Run := do
  let size ← Checked.size term
  if limits.maxSize ≤ size then
    return ⟨#[], .error (.oversized size limits.maxSize)⟩
  else
    accept limits.maxSize term
    normalizeFrom limits (Std.HashSet.emptyWithCapacity.insert term) #[.normalizing term size] term

def evaluate (term : Term) : Except Fault Run :=
  if term.isLam then simplify limits term else normalize limits term

end Checked

end NamelessLambda
