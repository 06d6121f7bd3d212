import NamelessLambda.Term.Basic

/-!
Contract: the text of a term with as few brackets as it needs.

A sentinel is written `∞` and any other variable as its decimal level, a binder
as `♥` before its body, an application with a point between function and
argument. Three parts stand in brackets: the body of a binder if it is an
application, a function if it is a binder, and an argument unless it is a
variable. Outermost brackets are round, and each pair inside another has the
other shape.

Owns:
- `render` and the bracket shapes.
-/

namespace NamelessLambda

/-- Shape of a pair of brackets. -/
inductive Bracket where
  | round
  | square
deriving DecidableEq, Repr

namespace Bracket

def opening : Bracket → Char
  | .round => '('
  | .square => '['

def closing : Bracket → Char
  | .round => ')'
  | .square => ']'

/-- Shape of the pairs directly inside one of this shape. -/
def inner : Bracket → Bracket
  | .round => .square
  | .square => .round

end Bracket

/-- Characters of a variable; all sentinels look alike. -/
def Level.characters (level : Level) : List Char :=
  if level.isSentinel then ['∞'] else Nat.toDigits 10 level.toInt.toNat

namespace Term

/-- Characters of a term, before `rest`. The next pair of brackets has the given shape. -/
def charactersOnto : (shape : Bracket) → Term → (rest : List Char) → List Char
  | _, .var level, rest => level.characters ++ rest
  | shape, .lam body, rest =>
      '♥' :: if body.isApp then
          shape.opening :: charactersOnto shape.inner body (shape.closing :: rest)
        else charactersOnto shape body rest
  | shape, .app function argument, rest =>
      let rest :=
        '.' :: if argument.isVar then charactersOnto shape argument rest
          else shape.opening :: charactersOnto shape.inner argument (shape.closing :: rest)
      if function.isLam then
        shape.opening :: charactersOnto shape.inner function (shape.closing :: rest)
      else charactersOnto shape function rest

/-- Text of a term, with round outermost brackets. -/
def render (term : Term) : String := String.ofList (charactersOnto .round term [])

end Term

end NamelessLambda
