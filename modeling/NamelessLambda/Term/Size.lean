import NamelessLambda.Term.Basic

/-!
Contract: how many nodes a term has.

`nodeCount` says it by structure. `size` computes it with a worklist of pending
subterms, so a term of any depth is measured without nested calls.
`size_eq_nodeCount` identifies the two.

Owns:
- both counts and their agreement;
- `totalNodes`, the count of several terms, which is the measure of the worklist;
- `height`, the count along one path, which nested calls cannot exceed.
-/

namespace NamelessLambda.Term

/-- Number of nodes by structure; a variable counts as one. -/
def nodeCount : Term → Nat
  | .var _ => 1
  | .lam body => 1 + body.nodeCount
  | .app function argument => 1 + function.nodeCount + argument.nodeCount

/-- Number of nodes of several terms together. -/
def totalNodes : List Term → Nat
  | [] => 0
  | term :: rest => term.nodeCount + totalNodes rest

theorem nodeCount_pos (term : Term) : 0 < term.nodeCount := by
  cases term <;> simp only [nodeCount] <;> omega

theorem nodeCount_eq_one_of_isVar {term : Term} (leaf : term.isVar = true) :
    term.nodeCount = 1 := by
  cases term <;> simp_all [nodeCount]

theorem nodeCount_le_totalNodes {term : Term} {terms : List Term} (member : term ∈ terms) :
    term.nodeCount ≤ totalNodes terms := by
  induction member with
  | head => exact Nat.le_add_right _ _
  | tail _ _ inductionHypothesis => exact Nat.le_add_left_of_le inductionHypothesis

/-- Number of nodes on a longest path from the root. -/
def height : Term → Nat
  | .var _ => 1
  | .lam body => 1 + body.height
  | .app function argument => 1 + max function.height argument.height

theorem height_pos (term : Term) : 0 < term.height := by
  cases term <;> simp only [height] <;> omega

theorem height_le_nodeCount (term : Term) : term.height ≤ term.nodeCount := by
  induction term with
  | var level => exact Nat.le_refl _
  | lam body inductionHypothesis => simp only [height, nodeCount]; omega
  | app function argument functionHypothesis argumentHypothesis =>
      simp only [height, nodeCount]
      omega

/-- Nodes of all `pending` subterms, added to the nodes already `counted`. -/
def sizeOnto (counted : Nat) : List Term → Nat
  | [] => counted
  | .var _ :: pending => sizeOnto (counted + 1) pending
  | .lam body :: pending => sizeOnto (counted + 1) (body :: pending)
  | .app function argument :: pending => sizeOnto (counted + 1) (argument :: function :: pending)
termination_by pending => totalNodes pending
decreasing_by all_goals simp only [totalNodes, nodeCount]; omega

/-- Number of nodes, computed on a worklist. -/
def size (term : Term) : Nat := sizeOnto 0 [term]

private theorem sizeOnto_eq (counted : Nat) (pending : List Term) :
    sizeOnto counted pending = counted + totalNodes pending := by
  fun_induction sizeOnto counted pending <;> simp_all only [totalNodes, nodeCount] <;> omega

@[simp] theorem size_eq_nodeCount (term : Term) : term.size = term.nodeCount := by
  simp [size, sizeOnto_eq, totalNodes]

end NamelessLambda.Term
