import NamelessLambda.Level

/-!
Contract: lambda terms over unbounded indices, with substitution for all variables at once.

A variable is a natural number that counts the binders up to its own, and a
sentinel is a constant. No index is the greatest one, so nothing here can fail.

Owns:
- `PureTerm`, renaming and parallel substitution;
- the laws by which both compose;
- `instantiate`, which removes the innermost binder of a body;
- `makeRoom` and `supplyAt`, the renaming and the assignment that act below some binders.

Does not own:
- reduction, or the reading of a bounded term as a pure one.
-/

namespace NamelessLambda

inductive PureTerm where
  | var (index : Nat)
  | constant (code : Level)
  | lam (body : PureTerm)
  | app (function argument : PureTerm)
deriving DecidableEq, Repr

namespace PureTerm

/-! ## Renaming -/

/-- The same renaming inside one more binder. -/
def keepInnermost (placement : Nat → Nat) : Nat → Nat
  | 0 => 0
  | index + 1 => placement index + 1

def rename (placement : Nat → Nat) : PureTerm → PureTerm
  | .var index => .var (placement index)
  | .constant code => .constant code
  | .lam body => .lam (body.rename (keepInnermost placement))
  | .app function argument => .app (function.rename placement) (argument.rename placement)

private theorem keepInnermost_comp (second first : Nat → Nat) :
    keepInnermost (second ∘ first) = keepInnermost second ∘ keepInnermost first := by
  funext index
  cases index <;> rfl

theorem rename_rename (term : PureTerm) (first second : Nat → Nat) :
    (term.rename first).rename second = term.rename (second ∘ first) := by
  induction term generalizing first second with
  | var index => rfl
  | constant code => rfl
  | lam body inductionHypothesis =>
      simp only [rename]
      rw [inductionHypothesis, keepInnermost_comp]
  | app function argument functionHypothesis argumentHypothesis =>
      simp only [rename]
      rw [functionHypothesis, argumentHypothesis]

/-! ## Parallel substitution -/

/-- The same assignment inside one more binder. -/
def bindInnermost (assignment : Nat → PureTerm) : Nat → PureTerm
  | 0 => .var 0
  | index + 1 => (assignment index).rename Nat.succ

/-- Replaces every variable by the term assigned to it. -/
def assign (assignment : Nat → PureTerm) : PureTerm → PureTerm
  | .var index => assignment index
  | .constant code => .constant code
  | .lam body => .lam (body.assign (bindInnermost assignment))
  | .app function argument => .app (function.assign assignment) (argument.assign assignment)

private theorem bindInnermost_var : bindInnermost .var = .var := by
  funext index
  cases index <;> rfl

private theorem assign_var (term : PureTerm) : term.assign .var = term := by
  induction term with
  | var index => rfl
  | constant code => rfl
  | lam body inductionHypothesis =>
      simp only [assign]
      rw [bindInnermost_var, inductionHypothesis]
  | app function argument functionHypothesis argumentHypothesis =>
      simp only [assign]
      rw [functionHypothesis, argumentHypothesis]

private theorem bindInnermost_comp_keepInnermost (assignment : Nat → PureTerm)
    (placement : Nat → Nat) :
    bindInnermost assignment ∘ keepInnermost placement =
      bindInnermost (assignment ∘ placement) := by
  funext index
  cases index <;> rfl

theorem assign_rename (term : PureTerm) (placement : Nat → Nat) (assignment : Nat → PureTerm) :
    (term.rename placement).assign assignment = term.assign (assignment ∘ placement) := by
  induction term generalizing placement assignment with
  | var index => rfl
  | constant code => rfl
  | lam body inductionHypothesis =>
      simp only [rename, assign]
      rw [inductionHypothesis, bindInnermost_comp_keepInnermost]
  | app function argument functionHypothesis argumentHypothesis =>
      simp only [rename, assign]
      rw [functionHypothesis, argumentHypothesis]

private theorem rename_keepInnermost_comp_bindInnermost (placement : Nat → Nat)
    (assignment : Nat → PureTerm) :
    rename (keepInnermost placement) ∘ bindInnermost assignment =
      bindInnermost (rename placement ∘ assignment) := by
  funext index
  cases index with
  | zero => rfl
  | succ index =>
      show ((assignment index).rename Nat.succ).rename (keepInnermost placement) =
        ((assignment index).rename placement).rename Nat.succ
      rw [rename_rename, rename_rename]
      rfl

theorem rename_assign (term : PureTerm) (assignment : Nat → PureTerm) (placement : Nat → Nat) :
    (term.assign assignment).rename placement = term.assign (rename placement ∘ assignment) := by
  induction term generalizing assignment placement with
  | var index => rfl
  | constant code => rfl
  | lam body inductionHypothesis =>
      simp only [rename, assign]
      rw [inductionHypothesis, rename_keepInnermost_comp_bindInnermost]
  | app function argument functionHypothesis argumentHypothesis =>
      simp only [rename, assign]
      rw [functionHypothesis, argumentHypothesis]

private theorem assign_bindInnermost_comp_bindInnermost (second first : Nat → PureTerm) :
    assign (bindInnermost second) ∘ bindInnermost first =
      bindInnermost (assign second ∘ first) := by
  funext index
  cases index with
  | zero => rfl
  | succ index =>
      show ((first index).rename Nat.succ).assign (bindInnermost second) =
        ((first index).assign second).rename Nat.succ
      rw [assign_rename, rename_assign]
      rfl

theorem assign_assign (term : PureTerm) (first second : Nat → PureTerm) :
    (term.assign first).assign second = term.assign (assign second ∘ first) := by
  induction term generalizing first second with
  | var index => rfl
  | constant code => rfl
  | lam body inductionHypothesis =>
      simp only [assign]
      rw [inductionHypothesis, assign_bindInnermost_comp_bindInnermost]
  | app function argument functionHypothesis argumentHypothesis =>
      simp only [assign]
      rw [functionHypothesis, argumentHypothesis]

/-! ## Removing the innermost binder -/

/-- `argument` for the innermost variable; every other variable loses one binder. -/
def supply (argument : PureTerm) : Nat → PureTerm
  | 0 => argument
  | index + 1 => .var index

def instantiate (body argument : PureTerm) : PureTerm := body.assign (supply argument)

theorem rename_instantiate (body argument : PureTerm) (placement : Nat → Nat) :
    (body.instantiate argument).rename placement =
      (body.rename (keepInnermost placement)).instantiate (argument.rename placement) := by
  unfold instantiate
  rw [rename_assign, assign_rename]
  congr 1
  funext index
  cases index <;> rfl

theorem assign_instantiate (body argument : PureTerm) (assignment : Nat → PureTerm) :
    (body.instantiate argument).assign assignment =
      (body.assign (bindInnermost assignment)).instantiate (argument.assign assignment) := by
  unfold instantiate
  rw [assign_assign, assign_assign]
  congr 1
  funext index
  cases index with
  | zero => rfl
  | succ index =>
      show assignment index =
        ((assignment index).rename Nat.succ).assign (supply (argument.assign assignment))
      rw [assign_rename]
      exact (assign_var (assignment index)).symm

/-! ## One variable below some binders -/

/-- Leaves the `inner` innermost variables and moves every other one past a new binder. -/
def makeRoom (inner index : Nat) : Nat := if index < inner then index else index + 1

theorem makeRoom_zero : makeRoom 0 = Nat.succ := rfl

theorem makeRoom_of_lt {inner index : Nat} (below : index < inner) :
    makeRoom inner index = index :=
  if_pos below

theorem makeRoom_of_le {inner index : Nat} (above : inner ≤ index) :
    makeRoom inner index = index + 1 :=
  if_neg (Nat.not_lt.mpr above)

theorem keepInnermost_makeRoom (inner : Nat) :
    keepInnermost (makeRoom inner) = makeRoom (inner + 1) := by
  funext index
  cases index with
  | zero => simp [keepInnermost, makeRoom]
  | succ index =>
      simp only [keepInnermost, makeRoom, Nat.add_lt_add_iff_right]
      split <;> rfl

/-- `argument` for the variable outside the `inner` innermost ones, whose binder goes away. -/
def supplyAt (inner : Nat) (argument : PureTerm) (index : Nat) : PureTerm :=
  if index < inner then .var index
  else if index = inner then argument
  else .var (index - 1)

theorem supplyAt_zero (argument : PureTerm) : supplyAt 0 argument = supply argument := by
  funext index
  cases index <;> simp [supplyAt, supply]

theorem bindInnermost_supplyAt (inner : Nat) (argument : PureTerm) :
    bindInnermost (supplyAt inner argument) = supplyAt (inner + 1) (argument.rename Nat.succ) := by
  funext index
  cases index with
  | zero => simp [bindInnermost, supplyAt]
  | succ index =>
      simp only [bindInnermost, supplyAt, Nat.add_lt_add_iff_right, Nat.add_right_cancel_iff]
      split
      · rfl
      · split
        · rfl
        · have positive : 0 < index := by omega
          simp only [rename, Nat.succ_eq_add_one, Nat.add_sub_cancel]
          rw [Nat.sub_add_cancel positive]

theorem supplyAt_of_lt {inner index : Nat} (below : index < inner) (argument : PureTerm) :
    supplyAt inner argument index = .var index :=
  if_pos below

theorem supplyAt_self (inner : Nat) (argument : PureTerm) :
    supplyAt inner argument inner = argument := by
  rw [supplyAt, if_neg (Nat.lt_irrefl inner), if_pos rfl]

theorem supplyAt_of_gt {inner index : Nat} (above : inner < index) (argument : PureTerm) :
    supplyAt inner argument index = .var (index - 1) := by
  rw [supplyAt, if_neg (by omega), if_neg (by omega)]

/-- A binder for which room is made and which then goes away leaves no trace. -/
private theorem assign_supplyAt_rename_makeRoom (term : PureTerm) (inner : Nat)
    (argument : PureTerm) :
    (term.rename (makeRoom inner)).assign (supplyAt inner argument) = term := by
  have cancels : supplyAt inner argument ∘ makeRoom inner = .var := by
    funext index
    show supplyAt inner argument (makeRoom inner index) = .var index
    rcases Nat.lt_or_ge index inner with below | above
    · rw [makeRoom_of_lt below, supplyAt_of_lt below]
    · rw [makeRoom_of_le above, supplyAt_of_gt (Nat.lt_succ_of_le above)]
      rfl
  rw [assign_rename, cancels, assign_var]

/-- Room for two binders can be made in either order: room for the inner one moves the outer one. -/
theorem rename_makeRoom_comm (term : PureTerm) {inner outer : Nat} (le : inner ≤ outer) :
    (term.rename (makeRoom outer)).rename (makeRoom inner) =
      (term.rename (makeRoom inner)).rename (makeRoom (outer + 1)) := by
  rw [rename_rename, rename_rename]
  congr 1
  funext index
  show makeRoom inner (makeRoom outer index) = makeRoom (outer + 1) (makeRoom inner index)
  rcases Nat.lt_or_ge index inner with inside | afterInner
  · rw [makeRoom_of_lt (Nat.lt_of_lt_of_le inside le), makeRoom_of_lt inside,
      makeRoom_of_lt (by omega)]
  · rw [makeRoom_of_le afterInner]
    rcases Nat.lt_or_ge index outer with between | outside
    · rw [makeRoom_of_lt between, makeRoom_of_le afterInner, makeRoom_of_lt (by omega)]
    · rw [makeRoom_of_le outside, makeRoom_of_le (by omega), makeRoom_of_le (by omega)]

/-- Room for a binder inside of the supplied variable moves that variable. -/
theorem rename_assign_supplyAt_of_le (term argument : PureTerm) {inner outer : Nat}
    (le : inner ≤ outer) :
    (term.assign (supplyAt outer argument)).rename (makeRoom inner) =
      (term.rename (makeRoom inner)).assign
        (supplyAt (outer + 1) (argument.rename (makeRoom inner))) := by
  rw [rename_assign, assign_rename]
  congr 1
  funext index
  show (supplyAt outer argument index).rename (makeRoom inner) =
    supplyAt (outer + 1) (argument.rename (makeRoom inner)) (makeRoom inner index)
  rcases Nat.lt_trichotomy index outer with inside | rfl | outside
  · rw [supplyAt_of_lt inside, rename]
    -- A shifted index is at most one greater, so it stays below the variable that has moved.
    have below : makeRoom inner index < outer + 1 := by
      unfold makeRoom
      split <;> omega
    rw [supplyAt_of_lt below]
  · rw [supplyAt_self, makeRoom_of_le le, supplyAt_self]
  · rw [supplyAt_of_gt outside, rename, makeRoom_of_le (by omega), makeRoom_of_le (by omega),
      supplyAt_of_gt (by omega), Nat.add_sub_cancel, Nat.sub_add_cancel (by omega)]

/-- Room for a binder outside of the supplied variable leaves that variable where it is. -/
theorem rename_assign_supplyAt_of_ge (term argument : PureTerm) {inner outer : Nat}
    (le : inner ≤ outer) :
    (term.assign (supplyAt inner argument)).rename (makeRoom outer) =
      (term.rename (makeRoom (outer + 1))).assign
        (supplyAt inner (argument.rename (makeRoom outer))) := by
  rw [rename_assign, assign_rename]
  congr 1
  funext index
  show (supplyAt inner argument index).rename (makeRoom outer) =
    supplyAt inner (argument.rename (makeRoom outer)) (makeRoom (outer + 1) index)
  rcases Nat.lt_trichotomy index inner with inside | rfl | outside
  · rw [supplyAt_of_lt inside, rename, makeRoom_of_lt (by omega), makeRoom_of_lt (by omega),
      supplyAt_of_lt inside]
  · rw [supplyAt_self, makeRoom_of_lt (by omega), supplyAt_self]
  · rw [supplyAt_of_gt outside, rename]
    rcases Nat.lt_or_ge index (outer + 1) with between | beyond
    · rw [makeRoom_of_lt between, makeRoom_of_lt (by omega), supplyAt_of_gt outside]
    · rw [makeRoom_of_le beyond, makeRoom_of_le (by omega), supplyAt_of_gt (by omega),
        Nat.add_sub_cancel, Nat.sub_add_cancel (by omega)]

/-- Two variables can be supplied in either order: the argument for the inner one is then changed
beforehand, and the argument for the outer one does not mention the inner one. -/
theorem assign_supplyAt_comm (term first second : PureTerm) {inner outer : Nat}
    (le : inner ≤ outer) :
    (term.assign (supplyAt inner first)).assign (supplyAt outer second) =
      (term.assign (supplyAt (outer + 1) (second.rename (makeRoom inner)))).assign
        (supplyAt inner (first.assign (supplyAt outer second))) := by
  rw [assign_assign, assign_assign]
  congr 1
  funext index
  show (supplyAt inner first index).assign (supplyAt outer second) =
    (supplyAt (outer + 1) (second.rename (makeRoom inner)) index).assign
      (supplyAt inner (first.assign (supplyAt outer second)))
  -- The variable is one of the two, or lies inside, between or outside of them.
  rcases Nat.lt_trichotomy index inner with inside | rfl | afterInner
  · rw [supplyAt_of_lt inside, supplyAt_of_lt (by omega), assign, assign,
      supplyAt_of_lt (by omega), supplyAt_of_lt inside]
  · rw [supplyAt_self, supplyAt_of_lt (by omega), assign, supplyAt_self]
  · rw [supplyAt_of_gt afterInner, assign]
    rcases Nat.lt_trichotomy index (outer + 1) with between | rfl | outside
    · rw [supplyAt_of_lt between, assign, supplyAt_of_lt (by omega), supplyAt_of_gt afterInner]
    · rw [supplyAt_self, Nat.add_sub_cancel, supplyAt_self, assign_supplyAt_rename_makeRoom]
    · rw [supplyAt_of_gt outside, assign, supplyAt_of_gt (by omega), supplyAt_of_gt (by omega)]

end PureTerm

end NamelessLambda
