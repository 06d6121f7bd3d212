import NamelessLambda.Binding.Substitute

/-!
Contract: one call-by-name step.

`headStep` contracts the redex at the head of the term's spine and never looks
inside an argument or under a binder. A sentinel at the head is fatal.

Owns:
- `headStep`.
-/

namespace NamelessLambda.Term

/-- One step at the head; `none` when the head is a variable or a bare binder. -/
def headStep : Term → Except Failure (Option Term)
  | .var level => if level.isSentinel then .error (.divergent level) else .ok none
  | .lam _ => .ok none
  | .app (.lam body) argument => do return some (← body.substitute argument 0).term
  | .app function argument => do return (← function.headStep).map (.app · argument)

end NamelessLambda.Term
