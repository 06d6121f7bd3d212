import NamelessLambda.Term.Render

/-!
Contract: what an evaluation reports while it runs.

Owns:
- the events with the measurements each one carries;
- their severity, message and labelled measurements.
-/

namespace NamelessLambda

inductive Severity where
  | debug
  | trace
deriving DecidableEq, Repr

def Severity.label : Severity → String
  | .debug => "DEBUG"
  | .trace => "TRACE"

/-- Report made during an evaluation. -/
inductive Event where
  /-- Stepping starts from `term`. -/
  | normalizing (term : Term) (size : Nat)
  /-- The step numbered `step`, counted from one, led to `term`. -/
  | stepped (term : Term) (step size : Nat)
  /-- No step applies after `steps` steps. -/
  | settled (steps : Nat)
  /-- Cleaning ended in `term` after `passes` passes that changed something. -/
  | simplified (term : Term) (passes size : Nat)
deriving DecidableEq, Repr

namespace Event

def severity : Event → Severity
  | .stepped .. => .trace
  | _ => .debug

def message : Event → String
  | .normalizing term _ => "normalizing " ++ term.render
  | .stepped term _ _ => term.render
  | .settled _ => "no step available, simplifying"
  | .simplified term _ _ => "simplified to " ++ term.render

/-- Labelled measurements. -/
def measurements : Event → List (String × Nat)
  | .normalizing _ size => [("size", size)]
  | .stepped _ step size => [("step", step), ("size", size)]
  | .settled steps => [("steps", steps)]
  | .simplified _ passes size => [("passes", passes), ("size", size)]

end Event

end NamelessLambda
