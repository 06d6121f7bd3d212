import NamelessLambda.Proofs.Leaves

/-!
Contract: substitution described leaf by leaf, without going through the term.

`substitute` shifts its replacement anew at each binder that it passes. What
comes out puts the replacement for each leaf at once, with its free variables
raised by the number of binders around that leaf. Levels are computed as
integers here, so a level that does not fit has no description.

Owns:
- `Term.replaceLeaves?`, which puts a term for each leaf, and how two such replacements compose;
- `Term.raise?`, a term below any number of binders;
- the closed form of a substitution, with its copies and its size.

Does not own:
- when a substitution fails.
-/

namespace NamelessLambda

namespace Term

/-- Puts a term for each leaf, chosen by its level and the binders around it. -/
def replaceLeaves? (choose : Leaf → Option Term) : Term → Option Term
  | .var level => choose ⟨0, level⟩
  | .lam body => (body.replaceLeaves? fun leaf => choose leaf.enclose).map .lam
  | .app function argument => do
      return .app (← function.replaceLeaves? choose) (← argument.replaceLeaves? choose)

/-- Variable of that integer level, if it is one. -/
def ofInt? (level : Int) : Option Term := (Level.ofInt? level).map .var

/-- The term with every variable raised by `amount` that refers `cutoff` or more binders out. -/
def raise? (cutoff : Int) (amount : Nat) (term : Term) : Option Term :=
  term.replaceLeaves? fun leaf =>
    if leaf.level.toInt < cutoff + leaf.binders then some (.var leaf.level)
    else ofInt? (leaf.level.toInt + amount)

end Term

open Term

/-- What a substitution for the variable `target` puts for a leaf. -/
def Leaf.substitute? (target : Int) (replacement : Term) (leaf : Leaf) : Option Term :=
  if leaf.level.toInt < target + leaf.binders then some (.var leaf.level)
  else if leaf.level.toInt = target + leaf.binders then replacement.raise? 0 leaf.binders
  else ofInt? (leaf.level.toInt - 1)

namespace Term

variable {term shifted replacement : Term}

theorem ofInt?_toInt (level : Level) : ofInt? level.toInt = some (.var level) := by
  rw [ofInt?, Level.ofInt?_toInt]
  rfl

theorem exists_of_ofInt?_eq_some {value : Int} (found : ofInt? value = some term) :
    ∃ level : Level, term = .var level ∧ level.toInt = value := by
  obtain ⟨level, fits, same⟩ := Option.map_eq_some_iff.mp found
  exact ⟨level, same.symm, Level.ofInt?_eq_some_iff.mp fits⟩

/-! ## Replacing leaves -/

theorem replaceLeaves?_self {choose : Leaf → Option Term}
    (kept : ∀ leaf, choose leaf = some (.var leaf.level)) (term : Term) :
    term.replaceLeaves? choose = some term := by
  induction term generalizing choose with
  | var level => exact kept ⟨0, level⟩
  | lam body inductionHypothesis =>
      rw [replaceLeaves?, inductionHypothesis fun leaf => kept leaf.enclose, Option.map_some]
  | app function argument functionHypothesis argumentHypothesis =>
      rw [replaceLeaves?, functionHypothesis kept, argumentHypothesis kept]
      rfl

/-- Leaves can be replaced twice in one go: the second choice is then made for the leaves of what
the first one puts, which stand below the binders of the leaf that it is put for. -/
theorem replaceLeaves?_trans {first second both : Leaf → Option Term} {middle : Term}
    (composes : ∀ leaf put, first leaf = some put →
      put.replaceLeaves? (fun inner => second (inner.encloseIn leaf.binders)) = both leaf)
    (ran : term.replaceLeaves? first = some middle) :
    middle.replaceLeaves? second = term.replaceLeaves? both := by
  induction term generalizing first second both middle with
  | var level => exact composes ⟨0, level⟩ middle ran
  | lam body inductionHypothesis =>
      rw [replaceLeaves?, Option.map_eq_some_iff] at ran
      obtain ⟨body', ranBody, rfl⟩ := ran
      have inside : body'.replaceLeaves? (fun leaf => second leaf.enclose) =
          body.replaceLeaves? (fun leaf => both leaf.enclose) :=
        inductionHypothesis (fun leaf put => composes leaf.enclose put) ranBody
      rw [replaceLeaves?, replaceLeaves?, inside]
  | app function argument functionHypothesis argumentHypothesis =>
      simp only [replaceLeaves?, Option.bind_eq_bind, Option.pure_def, Option.bind_eq_some_iff,
        Option.some_inj] at ran
      obtain ⟨function', ranFunction, argument', ranArgument, rfl⟩ := ran
      rw [replaceLeaves?, replaceLeaves?, functionHypothesis composes ranFunction,
        argumentHypothesis composes ranArgument]

/-- Nested binders enclose every leaf of the body. -/
theorem replaceLeaves?_lambda (choose : Leaf → Option Term) (binders : Nat) (body : Term) :
    (lambda binders body).replaceLeaves? choose =
      (body.replaceLeaves? fun leaf => choose (leaf.encloseIn binders)).map (lambda binders) := by
  induction binders generalizing choose with
  | zero =>
      show body.replaceLeaves? choose = (body.replaceLeaves? choose).map id
      rw [Option.map_id_apply]
  | succ binders inductionHypothesis =>
      rw [lambda_succ, replaceLeaves?, inductionHypothesis, Option.map_map]
      congr 1
      funext inner
      exact (lambda_succ binders inner).symm

/-! ## Raising below binders -/

private theorem raise?_var_of_lt {cutoff : Int} {level : Level} (inner : level.toInt < cutoff)
    (amount : Nat) : (Term.var level).raise? cutoff amount = some (.var level) :=
  if_pos (by simpa using inner)

private theorem raise?_var_of_le {cutoff : Int} {level : Level} (outer : cutoff ≤ level.toInt)
    (amount : Nat) : (Term.var level).raise? cutoff amount = ofInt? (level.toInt + amount) :=
  if_neg (by simpa using outer)

private theorem raise?_lam (cutoff : Int) (amount : Nat) (body : Term) :
    (Term.lam body).raise? cutoff amount = (body.raise? (cutoff + 1) amount).map .lam := by
  unfold raise?
  rw [replaceLeaves?]
  congr 2
  funext leaf
  have position : cutoff + ((leaf.binders + 1 : Nat) : Int) = cutoff + 1 + leaf.binders := by omega
  simp only [Leaf.enclose, position]

private theorem raise?_app (cutoff : Int) (amount : Nat) (function argument : Term) :
    (Term.app function argument).raise? cutoff amount =
      (do return .app (← function.raise? cutoff amount) (← argument.raise? cutoff amount)) :=
  rfl

/-- Below no binder a term stands as it is. -/
private theorem raise?_zero (cutoff : Int) (term : Term) : term.raise? cutoff 0 = some term := by
  apply replaceLeaves?_self
  intro leaf
  rw [Int.natCast_zero, Int.add_zero, ofInt?_toInt, ite_self]

/-- One shift takes over one of the binders that the term is raised by. -/
private theorem raise?_of_shift {cutoff : Level} (ran : term.shift cutoff = .ok shifted)
    (amount : Nat) :
    shifted.raise? cutoff.toInt amount = term.raise? cutoff.toInt (amount + 1) := by
  induction term generalizing cutoff shifted with
  | var level =>
      rcases shift_var_eq_ok_iff.mp ran with ⟨below, rfl⟩ | ⟨notBelow, raised, found, rfl⟩
      · have inner := Int64.lt_iff_toInt_lt.mp below
        rw [raise?_var_of_lt inner, raise?_var_of_lt inner]
      · have outer := mt Int64.lt_iff_toInt_lt.mpr notBelow
        have next := Level.toInt_of_next?_eq_some found
        rw [raise?_var_of_le (by omega), raise?_var_of_le (by omega), next]
        congr 1
        omega
  | lam body inductionHypothesis =>
      obtain ⟨inner, body', entered, ranBody, rfl⟩ := shift_lam_eq_ok_iff.mp ran
      rw [raise?_lam, raise?_lam, ← Level.toInt_of_next?_eq_some entered,
        inductionHypothesis ranBody]
  | app function argument functionHypothesis argumentHypothesis =>
      obtain ⟨function', argument', ranFunction, ranArgument, rfl⟩ := shift_app_eq_ok_iff.mp ran
      rw [raise?_app, raise?_app, functionHypothesis ranFunction, argumentHypothesis ranArgument]

/-! ## The closed form -/

/-- Inside one more binder the shifted replacement is put for the variable one further out. -/
private theorem substitute?_enclose (ran : replacement.shift 0 = .ok shifted) (target : Int)
    (leaf : Leaf) :
    Leaf.substitute? target replacement leaf.enclose =
      Leaf.substitute? (target + 1) shifted leaf := by
  have position : target + ((leaf.binders + 1 : Nat) : Int) = target + 1 + leaf.binders := by omega
  have raised : shifted.raise? 0 leaf.binders = replacement.raise? 0 (leaf.binders + 1) :=
    raise?_of_shift ran leaf.binders
  simp only [Leaf.substitute?, Leaf.enclose, position, raised]

private theorem substitute?_var {level target : Level} {result : Substitution}
    (ran : substitute (.var level) replacement target = .ok result) :
    Leaf.substitute? target.toInt replacement ⟨0, level⟩ = some result.term := by
  have unbound : target.toInt + ((0 : Nat) : Int) = target.toInt := Int.add_zero _
  simp only [Leaf.substitute?, unbound]
  rcases substitute_var_cases ran with
    ⟨rfl, rfl⟩ | ⟨inside, rfl⟩ | ⟨nearer, outside, nearerNext, rfl⟩
  · rw [if_neg (Int.lt_irrefl _), if_pos rfl, raise?_zero]
  · rw [if_pos inside]
  · rw [if_neg (by omega), if_neg (by omega), ← nearerNext, ofInt?_toInt]

/-- The shifts made on the way to a leaf add up to the binders around it. -/
theorem replaceLeaves?_of_substitute {target : Level} {result : Substitution}
    (ran : term.substitute replacement target = .ok result) :
    term.replaceLeaves? (Leaf.substitute? target.toInt replacement) = some result.term := by
  induction term generalizing replacement target result with
  | var level => exact substitute?_var ran
  | lam body inductionHypothesis =>
      obtain ⟨shifted, inner, inside, ranShift, entered, ranBody, rfl⟩ :=
        substitute_lam_eq_ok_iff.mp ran
      rw [replaceLeaves?, funext (substitute?_enclose ranShift target.toInt),
        ← Level.toInt_of_next?_eq_some entered, inductionHypothesis ranBody, Option.map_some]
  | app function argument functionHypothesis argumentHypothesis =>
      obtain ⟨_, _, ranFunction, ranArgument, rfl⟩ := substitute_app_eq_ok_iff.mp ran
      rw [replaceLeaves?, functionHypothesis ranFunction, argumentHypothesis ranArgument]
      rfl

/-- Every replaced leaf adds all nodes of the replacement but one; leaves replaced by a variable
are not counted as copies, and they add nothing. -/
private theorem nodeCount_of_substitute_occurrences {target : Level} {result : Substitution}
    (ran : term.substitute replacement target = .ok result) :
    result.term.nodeCount =
      term.nodeCount + term.occurrences target.toInt * (replacement.nodeCount - 1) := by
  rw [nodeCount_of_substitute ran, copies_of_substitute ran]
  cases leaf : replacement.isVar with
  | true => simp [nodeCount_eq_one_of_isVar leaf]
  | false => rfl

end Term

/-- A substitution keeps each leaf that lies below the target, lowers each that lies above it, and
puts the replacement for the target itself, raised by the binders around that leaf. The leaves that
are the target count as copies unless the replacement is a variable, and the size is the one that
follows. -/
theorem substitution_closed_form {term replacement : Term} {target : Level} {result : Substitution}
    (ran : term.substitute replacement target = .ok result) :
    term.replaceLeaves? (Leaf.substitute? target.toInt replacement) = some result.term ∧
      result.copies = (if replacement.isVar then 0 else term.occurrences target.toInt) ∧
      result.term.size = term.size + term.occurrences target.toInt * (replacement.size - 1) := by
  refine ⟨replaceLeaves?_of_substitute ran, copies_of_substitute ran, ?_⟩
  rw [size_eq_nodeCount, size_eq_nodeCount, size_eq_nodeCount]
  exact nodeCount_of_substitute_occurrences ran

/-- Under one binder the target `1` is written `2`. Its replacement has a free variable, which is
raised past that binder, while the variable bound in it stays. -/
theorem open_argument_closed_form :
    (lambda 1 (applyAll 0 [1, 2, 3, .var (-1)])).replaceLeaves?
        (Leaf.substitute? 1 (lambda 1 (applyAll 0 [1]))) =
      some (lambda 1 (applyAll 0 [1, lambda 1 (applyAll 0 [2]), 2, .var (-1)])) ∧
    1 = (lambda 1 (applyAll 0 [1, 2, 3, .var (-1)])).occurrences 1 := by
  have ran : (lambda 1 (applyAll 0 [1, 2, 3, .var (-1)])).substitute
      (lambda 1 (applyAll 0 [1])) 1 =
        .ok ⟨lambda 1 (applyAll 0 [1, lambda 1 (applyAll 0 [2]), 2, .var (-1)]), 1⟩ := rfl
  have closed := substitution_closed_form ran
  exact ⟨closed.1, closed.2.1⟩

end NamelessLambda
