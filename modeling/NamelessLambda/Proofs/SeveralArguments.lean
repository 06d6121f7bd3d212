import NamelessLambda.Proofs.CallByName
import NamelessLambda.Proofs.ClosedForm

/-!
Contract: head steps supply several arguments as if all were substituted at once.

The first argument goes to the outermost binder. It is shifted past the binders
that remain, and the steps that remove those move its variables back. What is
left is one replacement of leaves, the same as if no argument had ever stood
below the binders of the others.

Owns:
- `Leaf.supply?`, what all arguments together put for a leaf of the body;
- the head steps from a body below binders applied to that many arguments.

Does not own:
- on which arguments one of these steps is blocked.
-/

namespace NamelessLambda

open Term

namespace Leaf

/-- What `arguments` put for a leaf of a body below one binder for each of them. The innermost
binder is that of the last argument. -/
def supply? (arguments : List Term) (leaf : Leaf) : Option Term :=
  if leaf.level.toInt < leaf.binders then some (.var leaf.level)
  else if leaf.level.toInt < leaf.binders + arguments.length then do
    let argument ← arguments[(leaf.binders + arguments.length - 1 - leaf.level.toInt).toNat]?
    argument.raise? 0 leaf.binders
  else ofInt? (leaf.level.toInt - arguments.length)

variable {leaf : Leaf} {arguments : List Term} {argument : Term}

private theorem supply?_of_lt (inner : leaf.level.toInt < leaf.binders) (arguments : List Term) :
    supply? arguments leaf = some (.var leaf.level) :=
  if_pos inner

/-- The binders of the arguments are counted from the last one. -/
private theorem supply?_of_getElem? {index : Nat} (found : arguments[index]? = some argument)
    (position : leaf.level.toInt = leaf.binders + arguments.length - (index + 1)) :
    supply? arguments leaf = argument.raise? 0 leaf.binders := by
  have within := (List.getElem?_eq_some_iff.mp found).1
  have same : (leaf.binders + arguments.length - 1 - leaf.level.toInt).toNat = index := by omega
  rw [supply?, if_neg (by omega), if_pos (by omega), same, found]
  rfl

private theorem supply?_of_le (outer : leaf.binders + arguments.length ≤ leaf.level.toInt) :
    supply? arguments leaf = ofInt? (leaf.level.toInt - arguments.length) := by
  rw [supply?, if_neg (by omega), if_neg (by omega)]

/-- A further argument in front takes nothing away from the others. -/
private theorem supply?_cons_of_lt (inner : leaf.level.toInt < leaf.binders + arguments.length) :
    supply? (argument :: arguments) leaf = supply? arguments leaf := by
  rcases Int.lt_or_le leaf.level.toInt leaf.binders with bound | free
  · rw [supply?_of_lt bound, supply?_of_lt bound]
  · -- The same argument, one place further on in the longer list.
    obtain ⟨index, within, position⟩ : ∃ index : Nat, index < arguments.length ∧
        leaf.level.toInt = leaf.binders + arguments.length - (index + 1) :=
      ⟨(leaf.binders + arguments.length - 1 - leaf.level.toInt).toNat, by omega, by omega⟩
    have found : arguments[index]? = some arguments[index] := List.getElem?_eq_getElem within
    have later : (argument :: arguments)[index + 1]? = some arguments[index] := found
    have laterPosition : leaf.level.toInt =
        leaf.binders + (argument :: arguments).length - ((index + 1 : Nat) + 1) := by
      rw [List.length_cons]
      omega
    rw [supply?_of_getElem? later laterPosition, supply?_of_getElem? found position]

private theorem supply?_cons_self (outermost : leaf.level.toInt = leaf.binders + arguments.length) :
    supply? (argument :: arguments) leaf = argument.raise? 0 leaf.binders := by
  apply supply?_of_getElem? List.getElem?_cons_zero
  rw [List.length_cons]
  omega

end Leaf

namespace Term

variable {body argument put : Term} {arguments : List Term}

/-! ## One argument and the others after it -/

/-- The first argument is raised past the binders of the others, and these lower it again. -/
private theorem supply?_after_raise? {binders : Nat}
    (raised : argument.raise? 0 (binders + arguments.length) = some put) :
    put.replaceLeaves? (fun inner => Leaf.supply? arguments (inner.encloseIn binders)) =
      argument.raise? 0 binders := by
  apply replaceLeaves?_trans _ raised
  intro leaf put chosen
  rcases Int.lt_or_le leaf.level.toInt (0 + leaf.binders) with inner | outer
  · rw [if_pos inner] at chosen ⊢
    rw [← Option.some.inj chosen]
    apply Leaf.supply?_of_lt
    simp only [Leaf.encloseIn]
    omega
  · rw [if_neg (Int.not_lt.mpr outer)] at chosen ⊢
    obtain ⟨level, rfl, raisedLevel⟩ := exists_of_ofInt?_eq_some chosen
    have above : ((Leaf.encloseIn binders (Leaf.encloseIn leaf.binders ⟨0, level⟩)).binders : Int) +
        arguments.length ≤ level.toInt := by
      simp only [Leaf.encloseIn]
      omega
    refine (Leaf.supply?_of_le above).trans ?_
    congr 1
    simp only [Leaf.encloseIn]
    omega

/-- Substituting for the outermost binder and then supplying the other arguments puts for a leaf
what all arguments put for it together. -/
private theorem supply?_after_substitute? (leaf : Leaf)
    (chosen : Leaf.substitute? 0 argument (leaf.encloseIn arguments.length) = some put) :
    put.replaceLeaves? (fun inner => Leaf.supply? arguments (inner.encloseIn leaf.binders)) =
      Leaf.supply? (argument :: arguments) leaf := by
  have atRoot (level : Level) :
      (Term.var level).replaceLeaves?
          (fun inner => Leaf.supply? arguments (inner.encloseIn leaf.binders)) =
        Leaf.supply? arguments ⟨leaf.binders, level⟩ := by
    rw [replaceLeaves?, Leaf.encloseIn, Nat.zero_add]
  have position : (0 : Int) + ((leaf.binders + arguments.length : Nat) : Int) =
      leaf.binders + arguments.length := by
    omega
  simp only [Leaf.substitute?, Leaf.encloseIn, position] at chosen
  rcases Int.lt_trichotomy leaf.level.toInt (leaf.binders + arguments.length) with
    inner | outermost | outer
  · rw [if_pos inner] at chosen
    rw [← Option.some.inj chosen, atRoot]
    exact (Leaf.supply?_cons_of_lt inner).symm
  · rw [if_neg (by omega), if_pos outermost] at chosen
    rw [supply?_after_raise? chosen, Leaf.supply?_cons_self outermost]
  · rw [if_neg (by omega), if_neg (by omega)] at chosen
    obtain ⟨level, rfl, lowered⟩ := exists_of_ofInt?_eq_some chosen
    have outerTail : (leaf.binders : Int) + arguments.length ≤ level.toInt := by omega
    have outerAll : (leaf.binders : Int) + (argument :: arguments).length ≤ leaf.level.toInt := by
      rw [List.length_cons]
      omega
    rw [atRoot, Leaf.supply?_of_le outerTail, Leaf.supply?_of_le outerAll, List.length_cons]
    congr 1
    show level.toInt - arguments.length = leaf.level.toInt - ((arguments.length + 1 : Nat) : Int)
    omega

/-- The binders that remain after the first argument still stand around one body. -/
private theorem exists_body_of_substitute {binders : Nat} {result : Substitution}
    (ran : (lambda binders body).substitute argument 0 = .ok result) :
    ∃ body', result.term = lambda binders body' ∧
      (body.replaceLeaves? fun leaf => Leaf.substitute? 0 argument (leaf.encloseIn binders)) =
        some body' := by
  have closed := replaceLeaves?_of_substitute ran
  rw [replaceLeaves?_lambda, Option.map_eq_some_iff] at closed
  obtain ⟨body', chosen, same⟩ := closed
  exact ⟨body', same.symm, chosen⟩

/-! ## The steps -/

/-- One step supplies the first argument, unless a level blocks it, and keeps the others. -/
private theorem first_argument_supplied (binders : Nat) (body argument : Term) (rest : List Term) :
    (∃ body', (body.replaceLeaves? fun leaf =>
        Leaf.substitute? 0 argument (leaf.encloseIn binders)) = some body' ∧
      ((lambda (binders + 1) body).applyAll (argument :: rest)).headStep =
        .ok (some ((lambda binders body').applyAll rest))) ∨
    ((lambda (binders + 1) body).applyAll (argument :: rest)).Blocked := by
  rw [lambda_succ]
  cases ran : (lambda binders body).substitute argument 0 with
  | error failure => exact .inr (blocked_of_redex ran rest)
  | ok result =>
      obtain ⟨body', same, chosen⟩ := exists_body_of_substitute ran
      refine .inl ⟨body', chosen, ?_⟩
      rw [headStep_applyAll_lam, ran, ← same]
      rfl

/-- No argument puts every leaf back. -/
private theorem replaceLeaves?_supply?_nil (body : Term) :
    body.replaceLeaves? (Leaf.supply? []) = some body := by
  apply replaceLeaves?_self
  intro leaf
  rcases Int.lt_or_le leaf.level.toInt leaf.binders with inner | outer
  · exact Leaf.supply?_of_lt inner []
  · have above : (leaf.binders : Int) + ([] : List Term).length ≤ leaf.level.toInt := by
      simpa using outer
    rw [Leaf.supply?_of_le above, List.length_nil, Int.natCast_zero, Int.sub_zero, ofInt?_toInt]

end Term

/-- A body below some binders, applied to one argument for each and perhaps to more, makes one step
for each binder, unless a level blocks one of these steps. They lead to the body with all arguments
put for its variables at once, and the further arguments are still there. -/
theorem several_arguments_supplied (body : Term) (arguments rest : List Term) :
    (∃ result, body.replaceLeaves? (Leaf.supply? arguments) = some result ∧
      ((lambda arguments.length body).applyAll (arguments ++ rest)).state? arguments.length =
        some (result.applyAll rest)) ∨
    ∃ steps < arguments.length, ∃ state,
      ((lambda arguments.length body).applyAll (arguments ++ rest)).state? steps = some state ∧
        state.Blocked := by
  -- Over the arguments from the first one on, for every body: each step changes it.
  induction arguments generalizing body with
  | nil => exact .inl ⟨body, replaceLeaves?_supply?_nil body, rfl⟩
  | cons argument arguments inductionHypothesis =>
      rcases first_argument_supplied arguments.length body argument (arguments ++ rest) with
        ⟨body', chosen, moved⟩ | blocked
      · rcases inductionHypothesis body' with
          ⟨result, supplied, reached⟩ | ⟨steps, lt, state, reached, blocked⟩
        · refine .inl ⟨result, ?_, Path.after?_succ_eq_some_iff.mpr ⟨_, moved, reached⟩⟩
          rw [← supplied]
          exact (replaceLeaves?_trans (fun leaf put => supply?_after_substitute? leaf) chosen).symm
        · exact .inr ⟨steps + 1, Nat.succ_lt_succ lt, state,
            Path.after?_succ_eq_some_iff.mpr ⟨_, moved, reached⟩, blocked⟩
      · exact .inr ⟨0, Nat.succ_pos _, _, rfl, blocked⟩

/-- The greater index is that of the first argument, which is raised below a further binder. -/
example : (applyAll 0 [1, lambda 1 2]).replaceLeaves? (Leaf.supply? [.var 7, lambda 1 1]) =
    some (applyAll (lambda 1 1) [7, lambda 1 8]) := by
  decide

end NamelessLambda
