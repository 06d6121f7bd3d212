import NamelessLambda.Proofs.FailureCauses

/-!
Contract: the variables of a term, each with the number of binders around it.

Only both numbers together say whether a variable is bound, free or a sentinel.
Shifting and substituting act on each leaf separately, so what they do to bound,
free and sentinel variables is read off one description of what they do to leaves.

Owns:
- `Leaf`, `Term.leaves` and `Term.occurrences`;
- where the leaves of a shifted term and of a substitution come from;
- the number of copies that a substitution makes;
- the leaves that make a shift or a substitution fail.

Does not own:
- when the count of binders itself overflows.
-/

namespace NamelessLambda

/-- Variable of a term, and how many binders are around it. -/
structure Leaf where
  binders : Nat
  level : Level
deriving DecidableEq, Repr

namespace Leaf

/-- The same variable when one more binder is put around the term. -/
def enclose (leaf : Leaf) : Leaf := ⟨leaf.binders + 1, leaf.level⟩

/-- The same variable when `binders` more binders are put around the term. -/
def encloseIn (binders : Nat) (leaf : Leaf) : Leaf := ⟨leaf.binders + binders, leaf.level⟩

/-- The leaf is the variable that has number `outer` outside of the term. -/
def PointsTo (outer : Int) (leaf : Leaf) : Prop := leaf.level.toInt = outer + leaf.binders

instance instDecidablePointsTo (outer : Int) (leaf : Leaf) : Decidable (leaf.PointsTo outer) :=
  inferInstanceAs (Decidable (_ = _))

theorem pointsTo_enclose (outer : Int) (leaf : Leaf) :
    leaf.enclose.PointsTo outer ↔ leaf.PointsTo (outer + 1) := by
  simp only [PointsTo, enclose]
  omega

/-- Leaf of a term after a shift that leaves alone what lies below `cutoff`. -/
def ShiftsTo (cutoff : Int) (leaf shifted : Leaf) : Prop :=
  shifted.binders = leaf.binders ∧
    ((leaf.level.toInt < cutoff + leaf.binders ∧ shifted.level = leaf.level) ∨
      (cutoff + leaf.binders ≤ leaf.level.toInt ∧ shifted.level.toInt = leaf.level.toInt + 1))

/-- Leaf of a term once the binder of the variable `target` has been removed. -/
def LowersTo (target : Int) (leaf lowered : Leaf) : Prop :=
  lowered.binders = leaf.binders ∧
    ((leaf.level.toInt < target + leaf.binders ∧ lowered.level = leaf.level) ∨
      (target + leaf.binders < leaf.level.toInt ∧ lowered.level.toInt = leaf.level.toInt - 1))

/-- Leaf of a replacement that stands below `depth` binders. -/
def SinksTo (depth : Nat) (leaf sunk : Leaf) : Prop :=
  sunk.binders = leaf.binders + depth ∧
    ((leaf.level.toInt < leaf.binders ∧ sunk.level = leaf.level) ∨
      (leaf.binders ≤ leaf.level.toInt ∧ sunk.level.toInt = leaf.level.toInt + depth))

private theorem sinksTo_zero (leaf : Leaf) : leaf.SinksTo 0 leaf := by
  refine ⟨rfl, ?_⟩
  rcases Int.lt_or_le leaf.level.toInt leaf.binders with inner | outer
  · exact .inl ⟨inner, rfl⟩
  · exact .inr ⟨outer, by simp⟩

theorem ShiftsTo.enclose {cutoff : Int} {leaf shifted : Leaf}
    (shifts : leaf.ShiftsTo (cutoff + 1) shifted) :
    leaf.enclose.ShiftsTo cutoff shifted.enclose := by
  obtain ⟨sameBinders, moved⟩ := shifts
  refine ⟨congrArg (· + 1) sameBinders, ?_⟩
  simp only [Leaf.enclose]
  rcases moved with ⟨below, same⟩ | ⟨above, raised⟩
  · exact .inl ⟨by omega, same⟩
  · exact .inr ⟨by omega, raised⟩

private theorem LowersTo.enclose {target : Int} {leaf lowered : Leaf}
    (lowers : leaf.LowersTo (target + 1) lowered) :
    leaf.enclose.LowersTo target lowered.enclose := by
  obtain ⟨sameBinders, moved⟩ := lowers
  refine ⟨congrArg (· + 1) sameBinders, ?_⟩
  simp only [Leaf.enclose]
  rcases moved with ⟨below, same⟩ | ⟨above, gone⟩
  · exact .inl ⟨by omega, same⟩
  · exact .inr ⟨by omega, gone⟩

/-- A shift of a whole term raises its free variables and keeps the others. -/
private theorem ShiftsTo.free {leaf shifted : Leaf} (shifts : leaf.ShiftsTo 0 shifted)
    (free : shifted.binders ≤ shifted.level.toInt) :
    leaf.binders ≤ leaf.level.toInt ∧ shifted.level.toInt = leaf.level.toInt + 1 := by
  obtain ⟨sameBinders, ⟨inner, same⟩ | ⟨outer, raised⟩⟩ := shifts
  · rw [same] at free
    omega
  · exact ⟨by omega, raised⟩

private theorem ShiftsTo.bound {leaf shifted : Leaf} (shifts : leaf.ShiftsTo 0 shifted)
    (bound : shifted.level.toInt < shifted.binders) :
    leaf.level.toInt < leaf.binders ∧ shifted.level = leaf.level := by
  obtain ⟨sameBinders, ⟨inner, same⟩ | ⟨outer, raised⟩⟩ := shifts
  · exact ⟨by omega, same⟩
  · omega

/-- The shift of a replacement makes room for the binder that it is put under. -/
private theorem ShiftsTo.sinksTo {depth : Nat} {leaf shifted sunk : Leaf}
    (shifts : leaf.ShiftsTo 0 shifted) (sinks : shifted.SinksTo depth sunk) :
    leaf.SinksTo (depth + 1) sunk.enclose := by
  obtain ⟨deeper, sinks⟩ := sinks
  refine ⟨?_, ?_⟩
  · rw [Leaf.enclose, deeper, shifts.1, Nat.add_assoc]
  · simp only [Leaf.enclose]
    rcases sinks with ⟨inner, kept⟩ | ⟨outer, raised⟩
    · obtain ⟨innerLeaf, same⟩ := shifts.bound inner
      exact .inl ⟨innerLeaf, kept.trans same⟩
    · obtain ⟨outerLeaf, moved⟩ := shifts.free outer
      exact .inr ⟨outerLeaf, by omega⟩

end Leaf

namespace Term

/-- Leaves from left to right. -/
def leaves : Term → List Leaf
  | .var level => [⟨0, level⟩]
  | .lam body => body.leaves.map Leaf.enclose
  | .app function argument => function.leaves ++ argument.leaves

/-- Number of leaves that are the variable `target` of the surroundings. -/
def occurrences (target : Int) (term : Term) : Nat :=
  term.leaves.countP fun leaf => leaf.PointsTo target

theorem mem_leaves_lam_iff {body : Term} {leaf : Leaf} :
    leaf ∈ (Term.lam body).leaves ↔ ∃ inner ∈ body.leaves, inner.enclose = leaf := by
  rw [leaves, List.mem_map]

theorem mem_leaves_app_iff {function argument : Term} {leaf : Leaf} :
    leaf ∈ (Term.app function argument).leaves ↔
      leaf ∈ function.leaves ∨ leaf ∈ argument.leaves := by
  rw [leaves, List.mem_append]

private theorem occurrences_var (target : Int) (level : Level) :
    (Term.var level).occurrences target = if level.toInt = target then 1 else 0 := by
  simp [occurrences, leaves, Leaf.PointsTo]

private theorem occurrences_lam (target : Int) (body : Term) :
    (Term.lam body).occurrences target = body.occurrences (target + 1) := by
  unfold occurrences
  rw [leaves, List.countP_map]
  congr 1
  funext leaf
  exact decide_eq_decide.mpr (leaf.pointsTo_enclose target)

private theorem occurrences_app (target : Int) (function argument : Term) :
    (Term.app function argument).occurrences target =
      function.occurrences target + argument.occurrences target :=
  List.countP_append

theorem binders_le_binderDepth {term : Term} {leaf : Leaf} (member : leaf ∈ term.leaves) :
    leaf.binders ≤ term.binderDepth := by
  induction term generalizing leaf with
  | var level =>
      rw [List.mem_singleton.mp member]
      exact Nat.le_refl 0
  | lam body inductionHypothesis =>
      obtain ⟨inner, within, rfl⟩ := mem_leaves_lam_iff.mp member
      have bound := inductionHypothesis within
      simp only [Leaf.enclose, binderDepth]
      omega
  | app function argument functionHypothesis argumentHypothesis =>
      rcases mem_leaves_app_iff.mp member with inFunction | inArgument
      · exact Nat.le_trans (functionHypothesis inFunction) (Nat.le_max_left _ _)
      · exact Nat.le_trans (argumentHypothesis inArgument) (Nat.le_max_right _ _)

theorem mem_leaves_applyAll {head : Term} {leaf : Leaf} (member : leaf ∈ head.leaves)
    (arguments : List Term) : leaf ∈ (head.applyAll arguments).leaves := by
  induction arguments generalizing head with
  | nil => exact member
  | cons argument rest inductionHypothesis =>
      exact inductionHypothesis (mem_leaves_app_iff.mpr (.inl member))

/-! ## Leaves of a shifted term -/

private theorem exists_leaf_of_shift {cutoff : Level} {term shifted : Term} {leaf : Leaf}
    (ran : shift cutoff term = .ok shifted) (member : leaf ∈ shifted.leaves) :
    ∃ origin ∈ term.leaves, origin.ShiftsTo cutoff.toInt leaf := by
  induction term generalizing cutoff shifted leaf with
  | var level =>
      refine ⟨⟨0, level⟩, List.mem_singleton.mpr rfl, ?_⟩
      rcases shift_var_eq_ok_iff.mp ran with ⟨below, rfl⟩ | ⟨notBelow, raised, found, rfl⟩
      · rw [List.mem_singleton.mp member]
        exact ⟨rfl, .inl ⟨by simpa using Int64.lt_iff_toInt_lt.mp below, rfl⟩⟩
      · rw [List.mem_singleton.mp member]
        have above := mt Int64.lt_iff_toInt_lt.mpr notBelow
        exact ⟨rfl, .inr ⟨by simpa using above, Level.toInt_of_next?_eq_some found⟩⟩
  | lam body inductionHypothesis =>
      obtain ⟨inner, body', entered, ranBody, rfl⟩ := shift_lam_eq_ok_iff.mp ran
      obtain ⟨leaf, within, rfl⟩ := mem_leaves_lam_iff.mp member
      obtain ⟨origin, originWithin, shifts⟩ := inductionHypothesis ranBody within
      rw [Level.toInt_of_next?_eq_some entered] at shifts
      exact ⟨origin.enclose, mem_leaves_lam_iff.mpr ⟨origin, originWithin, rfl⟩, shifts.enclose⟩
  | app function argument functionHypothesis argumentHypothesis =>
      obtain ⟨_, _, ranFunction, ranArgument, rfl⟩ := shift_app_eq_ok_iff.mp ran
      rcases mem_leaves_app_iff.mp member with inFunction | inArgument
      · obtain ⟨origin, within, shifts⟩ := functionHypothesis ranFunction inFunction
        exact ⟨origin, mem_leaves_app_iff.mpr (.inl within), shifts⟩
      · obtain ⟨origin, within, shifts⟩ := argumentHypothesis ranArgument inArgument
        exact ⟨origin, mem_leaves_app_iff.mpr (.inr within), shifts⟩

/-- A variable occurs in a shifted term as often as before, under the number that it has there. -/
theorem occurrences_of_shift {cutoff : Level} {term shifted : Term} {target moved : Int}
    (ran : shift cutoff term = .ok shifted)
    (moves : (target < cutoff.toInt ∧ moved = target) ∨
      (cutoff.toInt ≤ target ∧ moved = target + 1)) :
    shifted.occurrences moved = term.occurrences target := by
  induction term generalizing cutoff shifted target moved with
  | var level =>
      rcases shift_var_eq_ok_iff.mp ran with ⟨below, rfl⟩ | ⟨notBelow, raised, found, rfl⟩
      · rw [Int64.lt_iff_toInt_lt] at below
        have same : level.toInt = moved ↔ level.toInt = target := by omega
        simp only [occurrences_var, same]
      · rw [Int64.lt_iff_toInt_lt] at notBelow
        have next := Level.toInt_of_next?_eq_some found
        have same : raised.toInt = moved ↔ level.toInt = target := by omega
        simp only [occurrences_var, same]
  | lam body inductionHypothesis =>
      obtain ⟨inner, body', entered, ranBody, rfl⟩ := shift_lam_eq_ok_iff.mp ran
      have deeper := Level.toInt_of_next?_eq_some entered
      rw [occurrences_lam, occurrences_lam]
      exact inductionHypothesis ranBody (by omega)
  | app function argument functionHypothesis argumentHypothesis =>
      obtain ⟨function', argument', ranFunction, ranArgument, rfl⟩ := shift_app_eq_ok_iff.mp ran
      rw [occurrences_app, occurrences_app, functionHypothesis ranFunction moves,
        argumentHypothesis ranArgument moves]

/-! ## Leaves of a substitution -/

private theorem leaf_of_substitute_var {level target : Level} {replacement : Term}
    {result : Substitution} {leaf : Leaf}
    (ran : substitute (.var level) replacement target = .ok result)
    (member : leaf ∈ result.term.leaves) :
    Leaf.LowersTo target.toInt ⟨0, level⟩ leaf ∨ leaf ∈ replacement.leaves := by
  rcases substitute_var_cases ran with ⟨_, rfl⟩ | ⟨inside, rfl⟩ | ⟨nearer, outside, nearerNext, rfl⟩
  · exact .inr member
  · rw [List.mem_singleton.mp member]
    exact .inl ⟨rfl, .inl ⟨by simpa using inside, rfl⟩⟩
  · rw [List.mem_singleton.mp member]
    exact .inl ⟨rfl, .inr ⟨by simpa using outside, nearerNext⟩⟩

/-- A leaf of the result comes from the term, or from the replacement below some binders. -/
theorem exists_leaf_of_substitute {term replacement : Term} {target : Level}
    {result : Substitution} {leaf : Leaf}
    (ran : term.substitute replacement target = .ok result)
    (member : leaf ∈ result.term.leaves) :
    (∃ origin ∈ term.leaves, origin.LowersTo target.toInt leaf) ∨
      ∃ origin ∈ replacement.leaves, ∃ depth, origin.SinksTo depth leaf := by
  induction term generalizing replacement target result leaf with
  | var level =>
      rcases leaf_of_substitute_var ran member with lowers | within
      · exact .inl ⟨⟨0, level⟩, List.mem_singleton.mpr rfl, lowers⟩
      · exact .inr ⟨leaf, within, 0, leaf.sinksTo_zero⟩
  | lam body inductionHypothesis =>
      obtain ⟨shifted, inner, inside, ranShift, entered, ranBody, rfl⟩ :=
        substitute_lam_eq_ok_iff.mp ran
      obtain ⟨leaf, within, rfl⟩ := mem_leaves_lam_iff.mp member
      rcases inductionHypothesis ranBody within with
        ⟨origin, originWithin, lowers⟩ | ⟨middle, middleWithin, depth, sinks⟩
      · left
        rw [Level.toInt_of_next?_eq_some entered] at lowers
        exact ⟨origin.enclose, mem_leaves_lam_iff.mpr ⟨origin, originWithin, rfl⟩, lowers.enclose⟩
      · right
        obtain ⟨origin, originWithin, shifts⟩ := exists_leaf_of_shift ranShift middleWithin
        exact ⟨origin, originWithin, depth + 1, shifts.sinksTo sinks⟩
  | app function argument functionHypothesis argumentHypothesis =>
      obtain ⟨_, _, ranFunction, ranArgument, rfl⟩ := substitute_app_eq_ok_iff.mp ran
      rcases mem_leaves_app_iff.mp member with inFunction | inArgument
      · rcases functionHypothesis ranFunction inFunction with ⟨origin, within, lowers⟩ | sinks
        · exact .inl ⟨origin, mem_leaves_app_iff.mpr (.inl within), lowers⟩
        · exact .inr sinks
      · rcases argumentHypothesis ranArgument inArgument with ⟨origin, within, lowers⟩ | sinks
        · exact .inl ⟨origin, mem_leaves_app_iff.mpr (.inr within), lowers⟩
        · exact .inr sinks

/-- A replacement that is no variable is copied once for each leaf that is the target. -/
theorem copies_of_substitute {term replacement : Term} {target : Level} {result : Substitution}
    (ran : term.substitute replacement target = .ok result) :
    result.copies = if replacement.isVar then 0 else term.occurrences target.toInt := by
  induction term generalizing replacement target result with
  | var level =>
      rcases substitute_var_cases ran with ⟨here, rfl⟩ | ⟨inside, rfl⟩ | ⟨nearer, outside, _, rfl⟩
      · rw [here, occurrences_var, if_pos rfl]
      · rw [occurrences_var, if_neg (Int.ne_of_lt inside), ite_self]
      · rw [occurrences_var, if_neg (Int.ne_of_gt outside), ite_self]
  | lam body inductionHypothesis =>
      obtain ⟨shifted, inner, inside, ranShift, entered, ranBody, rfl⟩ :=
        substitute_lam_eq_ok_iff.mp ran
      have counted := inductionHypothesis ranBody
      rw [occurrences_lam, ← Level.toInt_of_next?_eq_some entered, ← isVar_of_shift ranShift]
      exact counted
  | app function argument functionHypothesis argumentHypothesis =>
      obtain ⟨_, _, ranFunction, ranArgument, rfl⟩ := substitute_app_eq_ok_iff.mp ran
      rw [occurrences_app, functionHypothesis ranFunction, argumentHypothesis ranArgument]
      split <;> rfl

/-! ## Leaves that cannot be moved -/

theorem exists_leaf_of_shift_error {cutoff level : Level} {term : Term}
    (failed : shift cutoff term = .error (.unshiftable level)) :
    ∃ leaf ∈ term.leaves, leaf.level = .last ∧ cutoff.toInt + leaf.binders ≤ leaf.level.toInt := by
  induction term generalizing cutoff with
  | var own =>
      obtain ⟨above, greatest, _⟩ := shift_var_eq_error_iff.mp failed
      exact ⟨⟨0, own⟩, List.mem_singleton.mpr rfl, greatest, by simpa using above⟩
  | lam body inductionHypothesis =>
      rcases shift_lam_eq_error_iff.mp failed with ⟨_, overflow⟩ | ⟨inner, entered, inBody⟩
      · cases overflow
      · obtain ⟨leaf, within, greatest, above⟩ := inductionHypothesis inBody
        have deeper := Level.toInt_of_next?_eq_some entered
        refine ⟨leaf.enclose, mem_leaves_lam_iff.mpr ⟨leaf, within, rfl⟩, greatest, ?_⟩
        simp only [Leaf.enclose]
        omega
  | app function argument functionHypothesis argumentHypothesis =>
      rcases shift_app_eq_error_iff.mp failed with inFunction | ⟨_, _, inArgument⟩
      · obtain ⟨leaf, within, stuck⟩ := functionHypothesis inFunction
        exact ⟨leaf, mem_leaves_app_iff.mpr (.inl within), stuck⟩
      · obtain ⟨leaf, within, stuck⟩ := argumentHypothesis inArgument
        exact ⟨leaf, mem_leaves_app_iff.mpr (.inr within), stuck⟩

/-- A substitution only fails on a level if the replacement has a free variable that the binders
of the term would move past the greatest one. -/
theorem exists_leaf_of_substitute_error {term replacement : Term} {target level : Level}
    (failed : term.substitute replacement target = .error (.unshiftable level)) :
    ∃ leaf ∈ replacement.leaves, leaf.binders ≤ leaf.level.toInt ∧
      Level.last.toInt < leaf.level.toInt + term.binderDepth := by
  induction term generalizing replacement target with
  | var own => exact absurd failed (substitute_var_ne_error own replacement target _)
  | lam body inductionHypothesis =>
      rcases substitute_lam_eq_error_iff.mp failed with
        shifting | ⟨shifted, ranShift, ⟨_, overflow⟩ | ⟨inner, entered, inBody⟩⟩
      · obtain ⟨leaf, within, greatest, above⟩ := exists_leaf_of_shift_error shifting
        refine ⟨leaf, within, ?_, ?_⟩
        · simpa using above
        · rw [greatest]
          simp only [binderDepth]
          omega
      · cases overflow
      · obtain ⟨middle, middleWithin, outer, beyond⟩ := inductionHypothesis inBody
        obtain ⟨origin, within, shifts⟩ := exists_leaf_of_shift ranShift middleWithin
        obtain ⟨outerOrigin, raised⟩ := shifts.free outer
        refine ⟨origin, within, outerOrigin, ?_⟩
        simp only [binderDepth]
        omega
  | app function argument functionHypothesis argumentHypothesis =>
      simp only [binderDepth]
      rcases substitute_app_eq_error_iff.mp failed with inFunction | ⟨_, _, inArgument⟩
      · obtain ⟨leaf, within, outer, beyond⟩ := functionHypothesis inFunction
        exact ⟨leaf, within, outer, by omega⟩
      · obtain ⟨leaf, within, outer, beyond⟩ := argumentHypothesis inArgument
        exact ⟨leaf, within, outer, by omega⟩

end Term

end NamelessLambda
