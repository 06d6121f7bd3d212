import NamelessLambda.Evaluation.Event
import NamelessLambda.Evaluation.Limits
import NamelessLambda.Reduction.Clean
import NamelessLambda.Reduction.HeadStep
import Std.Data.HashSet.Lemmas

/-!
Contract: evaluation of whole terms within limits.

`simplify` cleans a term until nothing changes. `normalize` steps it until no
step applies and then simplifies. `evaluate` simplifies a binder and normalizes
anything else. Each rejects a term that is already too large; stepping also
stops on a term that has grown too large, on too many visited terms, and on a
term visited before.

Owns:
- the three evaluations, as runs that carry their events and as plain outcomes;
- the visited set, which bounds the stepping loop.
-/

namespace NamelessLambda

/-- Finished evaluation: what it reported, in order, and how it ended. -/
structure Run where
  events : Array Event
  outcome : Except Failure Term

namespace Run

/-- Cleans a term of allowed size, after the events so far. -/
def simplifyFrom (limits : Limits) (events : Array Event) (term : Term) : Run :=
  if limits.maxSize ≤ term.size then
    ⟨events, .error (.oversized term.size limits.maxSize)⟩
  else
    match term.cleanAll with
    | .error failure => ⟨events, .error failure⟩
    | .ok cleaned =>
        ⟨events.push (.simplified cleaned.term cleaned.passes cleaned.term.size), .ok cleaned.term⟩

/-- Steps from `current`, the latest of the `visited` terms. -/
def normalizeFrom (limits : Limits) (visited : Std.HashSet Term) (events : Array Event)
    (current : Term) : Run :=
  if limits.maxStates ≤ visited.size then
    ⟨events, .error (.exhausted visited.size limits.maxStates)⟩
  else
    match current.headStep with
    | .error failure => ⟨events, .error failure⟩
    | .ok none => simplifyFrom limits (events.push (.settled (visited.size - 1))) current
    | .ok (some next) =>
        let size := next.size
        let events := events.push (.stepped next visited.size size)
        if limits.maxSize ≤ size then
          ⟨events, .error (.oversized size limits.maxSize)⟩
        else if next ∈ visited then
          ⟨events, .error (.cyclic visited.size)⟩
        else
          normalizeFrom limits (visited.insert next) events next
termination_by limits.maxStates - visited.size
decreasing_by
  rename_i room _ _ fresh
  rw [Std.HashSet.size_insert, if_neg fresh]
  omega

def simplify (limits : Limits) (term : Term) : Run := simplifyFrom limits #[] term

def normalize (limits : Limits) (term : Term) : Run :=
  let size := term.size
  if limits.maxSize ≤ size then
    ⟨#[], .error (.oversized size limits.maxSize)⟩
  else
    normalizeFrom limits (Std.HashSet.emptyWithCapacity.insert term) #[.normalizing term size] term

/-- A binder is only simplified: no step would ever enter it. -/
def evaluate (limits : Limits) (term : Term) : Run :=
  if term.isLam then simplify limits term else normalize limits term

end Run

namespace Limits

def simplify (limits : Limits) (term : Term) : Except Failure Term :=
  (Run.simplify limits term).outcome

def normalize (limits : Limits) (term : Term) : Except Failure Term :=
  (Run.normalize limits term).outcome

def evaluate (limits : Limits) (term : Term) : Except Failure Term :=
  (Run.evaluate limits term).outcome

end Limits

end NamelessLambda
