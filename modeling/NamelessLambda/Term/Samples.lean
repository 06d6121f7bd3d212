import NamelessLambda.Term.Spine

/-!
Contract: named example terms.

Owns:
- the seven sample terms and their lookup by name.
-/

namespace NamelessLambda.Term.Sample

def identity : Term := lambda 1 0

/-- Keeps its first argument and drops the second. -/
def constant : Term := lambda 2 1

def selfApply : Term := lambda 1 (applyAll 0 [0])

/-- Steps to itself forever. -/
def omega : Term := applyAll selfApply [selfApply]

def xCombinator : Term :=
  lambda 1 (applyAll 0 [lambda 3 (applyAll 1 [0, applyAll 2 [0]]), lambda 2 1])

def zero : Term := lambda 3 0

/-- Successor candidate for the numerals that start at `zero`. -/
def increment : Term :=
  lambda 1 (applyAll
    (lambda 4 (applyAll 0 [4]))
    [ lambda 2 0,
      lambda 2 1,
      lambda 4 (applyAll 1 [3, 2]),
      lambda 1 (applyAll 0
        [ lambda 2 (applyAll 1
            [ applyAll 3 [0, lambda 2 (applyAll 6 [8, applyAll 6 [1, 0]]), lambda 1 0],
              applyAll 4 [5, 0] ]),
          applyAll 2 [3, 4] ]) ])

/-- Every sample under its name. -/
def all : List (String × Term) :=
  [ ("identity", identity),
    ("constant", constant),
    ("self_apply", selfApply),
    ("omega", omega),
    ("x_combinator", xCombinator),
    ("zero", zero),
    ("inc", increment) ]

def find? (name : String) : Option Term := all.lookup name

end NamelessLambda.Term.Sample
