import NamelessLambda.Reduction.Clean
import NamelessLambda.Reduction.HeadStep

/-!
Contract: the terms met when one kind of move is repeated.

Owns:
- `Path`, the successive terms and why there are no more of them;
- `Path.follow`, which repeats a move at most a given number of times.
-/

namespace NamelessLambda

/-- Why a path has no further term. -/
inductive Ending where
  /-- The requested number of moves was made. -/
  | complete
  /-- No move applied to the last term. -/
  | settled
  | failed (failure : Failure)
deriving DecidableEq, Repr

structure Path where
  terms : List Term
  ending : Ending
deriving DecidableEq, Repr

namespace Path

/-- Repeats `move` from `start` up to `count` times; `start` itself is not on the path. -/
def follow (move : Term → Except Failure (Option Term)) : (count : Nat) → (start : Term) → Path
  | 0, _ => ⟨[], .complete⟩
  | count + 1, start =>
      match move start with
      | .error failure => ⟨[], .failed failure⟩
      | .ok none => ⟨[], .settled⟩
      | .ok (some next) =>
          let rest := follow move count next
          ⟨next :: rest.terms, rest.ending⟩

end Path

end NamelessLambda
