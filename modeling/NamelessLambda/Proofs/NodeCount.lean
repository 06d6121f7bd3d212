import Mathlib.Algebra.Ring.Nat
import Mathlib.Logic.Function.Iterate
import NamelessLambda.Proofs.MachineRange
import NamelessLambda.Term.Samples

/-!
Contract: counting nodes on a worklist ends, with the count that the structure has.

A round of the loop takes one subterm from the list, counts its root and puts its
children back, so the list may become longer. The nodes of all waiting subterms
together become one less, and with the nodes already counted they make up the
same total in every round.

Owns:
- `Worklist`, its rounds, and that the loop of `size` makes them;
- the invariant of a round and of a run, and the round in which a run ends;
- the count of a term within the machine's range, of nested binders and of a spine.

Does not own:
- counting terms that have more nodes than a counter can hold.
-/

namespace NamelessLambda

open Term

/-- Nodes counted so far, and the subterms that wait to be counted. -/
structure Worklist where
  counted : Nat
  pending : List Term
deriving DecidableEq, Repr

namespace Worklist

/-- The whole term waits. -/
def start (term : Term) : Worklist := ⟨0, [term]⟩

/-- One round. A list on which nothing waits stays as it is. -/
def advance : Worklist → Worklist
  | ⟨counted, []⟩ => ⟨counted, []⟩
  | ⟨counted, .var _ :: pending⟩ => ⟨counted + 1, pending⟩
  | ⟨counted, .lam body :: pending⟩ => ⟨counted + 1, body :: pending⟩
  | ⟨counted, .app function argument :: pending⟩ => ⟨counted + 1, argument :: function :: pending⟩

/-- Nodes that are counted or wait to be. -/
def total (work : Worklist) : Nat := work.counted + totalNodes work.pending

/-- What the loop of `size` returns if it is entered here. -/
def result (work : Worklist) : Nat := sizeOnto work.counted work.pending

private theorem result_of_pending_eq_nil {work : Worklist} (done : work.pending = []) :
    work.result = work.counted := by
  rw [result, done, sizeOnto]

/-! ## One round -/

/-- The loop makes these rounds: it returns the same if it is entered one of them later. -/
private theorem result_advance (work : Worklist) : work.advance.result = work.result := by
  fun_cases advance work <;> simp only [result, sizeOnto]

theorem total_advance (work : Worklist) : work.advance.total = work.total := by
  fun_cases advance work <;> simp only [total, totalNodes, nodeCount] <;> omega

/-- This is the measure of the loop, although the list itself can become longer. -/
theorem totalNodes_advance (work : Worklist) :
    totalNodes work.advance.pending = totalNodes work.pending - 1 := by
  fun_cases advance work <;> simp only [totalNodes, nodeCount] <;> omega

private theorem totalNodes_eq_zero_iff (pending : List Term) :
    totalNodes pending = 0 ↔ pending = [] := by
  cases pending with
  | nil => simp [totalNodes]
  | cons term rest =>
      have positive := term.nodeCount_pos
      simp only [totalNodes, reduceCtorEq, iff_false]
      omega

/-! ## A run -/

variable (work : Worklist) (rounds : Nat)

/-- What one round keeps, a run keeps. -/
private theorem eq_of_iterate {measured : Worklist → Nat}
    (kept : ∀ work : Worklist, measured work.advance = measured work) :
    measured (advance^[rounds] work) = measured work := by
  induction rounds with
  | zero => rfl
  | succ rounds inductionHypothesis =>
      rw [Function.iterate_succ_apply', kept, inductionHypothesis]

private theorem totalNodes_iterate :
    totalNodes (advance^[rounds] work).pending = totalNodes work.pending - rounds := by
  induction rounds with
  | zero => rfl
  | succ rounds inductionHypothesis =>
      rw [Function.iterate_succ_apply', totalNodes_advance, inductionHypothesis, Nat.sub_sub]

theorem pending_iterate_eq_nil_iff :
    (advance^[rounds] work).pending = [] ↔ totalNodes work.pending ≤ rounds := by
  rw [← totalNodes_eq_zero_iff, totalNodes_iterate, Nat.sub_eq_zero_iff_le]

private theorem totalNodes_start (term : Term) : totalNodes (start term).pending = term.nodeCount :=
  Nat.add_zero _

/-- A run ends in the round that counts the last node, and not before. -/
private theorem pending_start_eq_nil_iff (term : Term) :
    (advance^[rounds] (start term)).pending = [] ↔ term.nodeCount ≤ rounds := by
  rw [pending_iterate_eq_nil_iff, totalNodes_start]

/-- Every round counts one node until none is left, so the counter never passes their number. -/
private theorem counted_start (term : Term) :
    (advance^[rounds] (start term)).counted = min rounds term.nodeCount := by
  have unchanged : (advance^[rounds] (start term)).total = (start term).total :=
    eq_of_iterate (start term) rounds total_advance
  have waiting := totalNodes_iterate (start term) rounds
  have whole : (start term).total = term.nodeCount := by
    rw [total, totalNodes_start, start, Nat.zero_add]
  rw [whole, total, waiting, totalNodes_start] at unchanged
  omega

/-- The loop returns what the counter holds once nothing waits any more. -/
private theorem size_of_pending_eq_nil {term : Term} {rounds : Nat}
    (done : (advance^[rounds] (start term)).pending = []) :
    term.size = (advance^[rounds] (start term)).counted := by
  calc term.size
    _ = (advance^[rounds] (start term)).result :=
        (eq_of_iterate (start term) rounds result_advance).symm
    _ = (advance^[rounds] (start term)).counted := result_of_pending_eq_nil done

end Worklist

/-! ## Builders -/

private theorem sum_size_add_one (arguments : List Term) :
    (arguments.map fun argument => 1 + argument.size).sum =
      arguments.length + totalNodes arguments := by
  induction arguments with
  | nil => rfl
  | cons argument rest inductionHypothesis =>
      rw [List.map_cons, List.sum_cons, inductionHypothesis, size_eq_nodeCount, List.length_cons,
        totalNodes]
      omega

theorem size_lambda (binders : Nat) (body : Term) :
    (lambda binders body).size = binders + body.size := by
  rw [size_eq_nodeCount, size_eq_nodeCount, nodeCount_lambda]

theorem size_applyAll (head : Term) (arguments : List Term) :
    (head.applyAll arguments).size =
      head.size + (arguments.map fun argument => 1 + argument.size).sum := by
  rw [sum_size_add_one, size_eq_nodeCount, size_eq_nodeCount, nodeCount_applyAll, Nat.add_assoc]

/-- On a term with fewer nodes than a counter can hold, the loop makes one round for each node and
then ends, its counter never leaves the range, and what it returns is the number of nodes, whatever
the depth and the shape of the term. That of nested binders and of a spine follow from those of
their parts. -/
theorem size_counts_nodes :
    (∀ term : Term, term.nodeCount < UInt64.size →
      (∀ rounds, ((Worklist.advance^[rounds] (.start term)).pending = [] ↔
          term.nodeCount ≤ rounds) ∧
        (Worklist.advance^[rounds] (.start term)).counted = min rounds term.nodeCount) ∧
      (∀ rounds, (Worklist.advance^[rounds] (.start term)).pending = [] →
        term.size = (Worklist.advance^[rounds] (.start term)).counted) ∧
      Checked.size term = .ok term.size ∧ term.size = term.nodeCount) ∧
    (∀ binders body, (lambda binders body).size = binders + body.size) ∧
    ∀ (head : Term) arguments, (head.applyAll arguments).size =
      head.size + (arguments.map fun argument => 1 + argument.size).sum := by
  refine ⟨fun term few => ⟨?_, ?_, ?_, ?_⟩, size_lambda, size_applyAll⟩
  · intro rounds
    exact ⟨Worklist.pending_start_eq_nil_iff rounds term, Worklist.counted_start rounds term⟩
  · intro rounds done
    exact Worklist.size_of_pending_eq_nil done
  · exact Checked.size_eq few
  · exact size_eq_nodeCount term

/-- Deeper than nested calls could go. One round before the last the counter is one short, and the
count is that of the binders and of the divergent argument below them. -/
theorem deep_binders_counted :
    (Worklist.advance^[200010] (.start (lambda 200000 (applyAll 0 [Sample.omega])))).pending ≠ [] ∧
    (Worklist.advance^[200010] (.start (lambda 200000 (applyAll 0 [Sample.omega])))).counted =
      200010 ∧
    Checked.size (lambda 200000 (applyAll 0 [Sample.omega])) = .ok 200011 := by
  obtain ⟨counts, nested, spines⟩ := size_counts_nodes
  have size : (lambda 200000 (applyAll 0 [Sample.omega])).size = 200011 := by
    rw [nested, spines, List.map_singleton, List.sum_singleton, size_eq_nodeCount,
      size_eq_nodeCount]
    rfl
  have nodes : (lambda 200000 (applyAll 0 [Sample.omega])).nodeCount = 200011 := by
    rw [← size_eq_nodeCount, size]
  have few : (lambda 200000 (applyAll 0 [Sample.omega])).nodeCount < UInt64.size := by
    rw [nodes]
    decide
  obtain ⟨rounds, _, checked, _⟩ := counts _ few
  obtain ⟨ends, counter⟩ := rounds 200010
  rw [nodes] at ends counter
  refine ⟨fun done => absurd (ends.mp done) (by decide), counter, ?_⟩
  rw [checked, size]

end NamelessLambda
