import NamelessLambda.Term.Basic

/-!
Contract: which terms of a list are equal.

Owns:
- `firstIndices`, the position of the first equal term for each term;
- `distinctCount`, the number of different terms.
-/

namespace NamelessLambda.Term

/-- For each term the position of the first one equal to it. -/
def firstIndices (terms : List Term) : List Nat :=
  terms.map fun term => terms.idxOf term

/-- Number of different terms. -/
def distinctCount (terms : List Term) : Nat := terms.eraseDups.length

end NamelessLambda.Term
