import NamelessLambda.Level

/-!
Contract: nameless lambda terms.

Owns:
- the term type with structural equality and hashing;
- the three shape tests;
- numerals as variables, so that a literal term reads like its rendering.

Does not own:
- sizes, shifting, substitution or any reduction.
-/

namespace NamelessLambda

/-- Lambda term whose variables carry levels in place of names. -/
inductive Term where
  | var (level : Level)
  | lam (body : Term)
  | app (function argument : Term)
deriving DecidableEq, Hashable, Repr, Inhabited

namespace Term

/-- A numeral stands for the variable of that level. -/
instance instOfNatVariable (level : Nat) : OfNat Term level := ⟨.var (OfNat.ofNat level)⟩

def isVar : Term → Bool
  | .var _ => true
  | _ => false

def isLam : Term → Bool
  | .lam _ => true
  | _ => false

def isApp : Term → Bool
  | .app _ _ => true
  | _ => false

@[simp] theorem isVar_var (level : Level) : (Term.var level).isVar = true := rfl

@[simp] theorem isVar_lam (body : Term) : (Term.lam body).isVar = false := rfl

@[simp] theorem isVar_app (function argument : Term) :
    (Term.app function argument).isVar = false := rfl

end Term

end NamelessLambda
