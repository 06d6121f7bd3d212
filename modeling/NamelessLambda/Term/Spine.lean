import NamelessLambda.Term.Size

/-!
Contract: nested binders and applications to several arguments.

Owns:
- `lambda`, a body under several binders;
- `applyAll`, left-nested application;
- the node counts of both.
-/

namespace NamelessLambda.Term

/-- Puts `binders` binders around `body`. -/
def lambda : (binders : Nat) → (body : Term) → Term
  | 0, body => body
  | binders + 1, body => lambda binders (.lam body)

/-- Applies `head` to each of `arguments` in turn. -/
def applyAll (head : Term) (arguments : List Term) : Term :=
  arguments.foldl .app head

theorem lambda_succ (binders : Nat) (body : Term) :
    lambda (binders + 1) body = .lam (lambda binders body) := by
  induction binders generalizing body with
  | zero => rfl
  | succ binders inductionHypothesis => exact inductionHypothesis (.lam body)

@[simp] theorem applyAll_nil (head : Term) : head.applyAll [] = head := rfl

@[simp] theorem applyAll_cons (head argument : Term) (rest : List Term) :
    head.applyAll (argument :: rest) = (Term.app head argument).applyAll rest := rfl

theorem applyAll_append (head : Term) (first second : List Term) :
    head.applyAll (first ++ second) = (head.applyAll first).applyAll second :=
  List.foldl_append

theorem nodeCount_lambda (binders : Nat) (body : Term) :
    (lambda binders body).nodeCount = binders + body.nodeCount := by
  induction binders with
  | zero => simp [lambda]
  | succ binders inductionHypothesis =>
      rw [lambda_succ, nodeCount, inductionHypothesis]
      omega

theorem nodeCount_applyAll (head : Term) (arguments : List Term) :
    (head.applyAll arguments).nodeCount =
      head.nodeCount + arguments.length + totalNodes arguments := by
  induction arguments generalizing head with
  | nil => rfl
  | cons argument rest inductionHypothesis =>
      rw [applyAll_cons, inductionHypothesis, nodeCount, List.length_cons, totalNodes]
      omega

theorem nodeCount_lt_applyAll (head : Term) {argument : Term} {arguments : List Term}
    (member : argument ∈ arguments) :
    argument.nodeCount < (head.applyAll arguments).nodeCount := by
  have part := nodeCount_le_totalNodes member
  have positive := head.nodeCount_pos
  rw [nodeCount_applyAll]
  omega

end NamelessLambda.Term
