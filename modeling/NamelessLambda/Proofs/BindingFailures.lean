import NamelessLambda.Proofs.Leaves
import NamelessLambda.Proofs.MachineRange

/-!
Contract: exactly when a shift and a substitution fail.

A shift fails on a leaf of the greatest level, wherever it stands. A substitution
shifts its replacement once for each binder of the longest path, even where the
variable does not occur there, so it fails exactly if these binders would raise a
free variable of the replacement past the greatest level.

Owns:
- where the leaves of a term go in a shift;
- the failure conditions, for levels with room for the binders of the term;
- the checked operations under these conditions.

Does not own:
- levels without that room, where the count of binders itself ends.
-/

namespace NamelessLambda

namespace Term

variable {term shifted replacement : Term} {cutoff target : Level} {leaf : Leaf}
  {failure : Failure}

/-! ## Shifts -/

/-- Every leaf is still there after a shift, in its shifted form. -/
private theorem exists_shifted_leaf (ran : term.shift cutoff = .ok shifted)
    (member : leaf ∈ term.leaves) : ∃ moved ∈ shifted.leaves, leaf.ShiftsTo cutoff.toInt moved := by
  induction term generalizing cutoff shifted leaf with
  | var level =>
      rw [List.mem_singleton.mp member]
      rcases shift_var_eq_ok_iff.mp ran with ⟨below, rfl⟩ | ⟨notBelow, raised, found, rfl⟩
      · refine ⟨⟨0, level⟩, List.mem_singleton.mpr rfl, rfl, .inl ⟨?_, rfl⟩⟩
        simpa using Int64.lt_iff_toInt_lt.mp below
      · have above := mt Int64.lt_iff_toInt_lt.mpr notBelow
        refine ⟨⟨0, raised⟩, List.mem_singleton.mpr rfl, rfl, .inr ⟨?_, ?_⟩⟩
        · simpa using above
        · exact Level.toInt_of_next?_eq_some found
  | lam body inductionHypothesis =>
      obtain ⟨inner, body', entered, ranBody, rfl⟩ := shift_lam_eq_ok_iff.mp ran
      obtain ⟨origin, within, rfl⟩ := mem_leaves_lam_iff.mp member
      obtain ⟨moved, movedWithin, shifts⟩ := inductionHypothesis ranBody within
      rw [Level.toInt_of_next?_eq_some entered] at shifts
      exact ⟨moved.enclose, mem_leaves_lam_iff.mpr ⟨moved, movedWithin, rfl⟩, shifts.enclose⟩
  | app function argument functionHypothesis argumentHypothesis =>
      obtain ⟨_, _, ranFunction, ranArgument, rfl⟩ := shift_app_eq_ok_iff.mp ran
      rcases mem_leaves_app_iff.mp member with inFunction | inArgument
      · obtain ⟨moved, within, shifts⟩ := functionHypothesis ranFunction inFunction
        exact ⟨moved, mem_leaves_app_iff.mpr (.inl within), shifts⟩
      · obtain ⟨moved, within, shifts⟩ := argumentHypothesis ranArgument inArgument
        exact ⟨moved, mem_leaves_app_iff.mpr (.inr within), shifts⟩

/-- No binder of the term captures the greatest level, so a shift would have to raise it. -/
private theorem level_ne_last_of_shift (room : cutoff.toInt + term.binderDepth ≤ Level.last.toInt)
    (ran : term.shift cutoff = .ok shifted) (member : leaf ∈ term.leaves) :
    leaf.level ≠ .last := by
  intro greatest
  have within := binders_le_binderDepth member
  obtain ⟨moved, _, _, ⟨below, _⟩ | ⟨_, raised⟩⟩ := exists_shifted_leaf ran member
  · rw [greatest] at below
    omega
  · have bound := moved.level.toInt_le_last
    rw [greatest] at raised
    omega

theorem shift_eq_error_iff (room : cutoff.toInt + term.binderDepth ≤ Level.last.toInt) :
    term.shift cutoff = .error failure ↔
      failure = .unshiftable .last ∧ ∃ leaf ∈ term.leaves, leaf.level = .last := by
  constructor
  · intro failed
    have cause := (ofBinding_of_shift failed).eq_unshiftable room
    rw [cause] at failed
    obtain ⟨leaf, member, greatest, _⟩ := exists_leaf_of_shift_error failed
    exact ⟨cause, leaf, member, greatest⟩
  · rintro ⟨rfl, leaf, member, greatest⟩
    cases outcome : term.shift cutoff with
    | ok shifted => exact absurd greatest (level_ne_last_of_shift room outcome member)
    | error cause => rw [(ofBinding_of_shift outcome).eq_unshiftable room]

/-! ## Substitutions -/

/-- A substitution that succeeds leaves room above every free variable of the replacement for all
binders of the term, not only for those around the variable that is replaced. -/
theorem le_last_of_substitute {result : Substitution}
    (ran : term.substitute replacement target = .ok result) (member : leaf ∈ replacement.leaves)
    (free : leaf.binders ≤ leaf.level.toInt) :
    leaf.level.toInt + term.binderDepth ≤ Level.last.toInt := by
  induction term generalizing replacement target result leaf with
  | var level => simpa [binderDepth] using leaf.level.toInt_le_last
  | lam body inductionHypothesis =>
      obtain ⟨shifted, inner, inside, ranShift, _, ranBody, _⟩ := substitute_lam_eq_ok_iff.mp ran
      obtain ⟨moved, within, sameBinders, ⟨bound, _⟩ | ⟨_, raised⟩⟩ :=
        exists_shifted_leaf ranShift member
      · have zero : (0 : Level).toInt = 0 := rfl
        omega
      · -- The shift has used up one binder of the path and raised the leaf by as much.
        have deeper := inductionHypothesis ranBody within (by omega)
        simp only [binderDepth]
        omega
  | app function argument functionHypothesis argumentHypothesis =>
      obtain ⟨_, _, ranFunction, ranArgument, _⟩ := substitute_app_eq_ok_iff.mp ran
      have inFunction := functionHypothesis ranFunction member free
      have inArgument := argumentHypothesis ranArgument member free
      simp only [binderDepth]
      omega

theorem substitute_eq_error_iff (room : target.toInt + term.binderDepth ≤ Level.last.toInt)
    (shallow : replacement.binderDepth ≤ Level.last.toInt) :
    term.substitute replacement target = .error failure ↔
      failure = .unshiftable .last ∧ ∃ leaf ∈ replacement.leaves,
        leaf.binders ≤ leaf.level.toInt ∧
          Level.last.toInt < leaf.level.toInt + term.binderDepth := by
  have roomForBoth := Int.max_le.mpr ⟨room, shallow⟩
  constructor
  · intro failed
    have cause := (ofBinding_of_substitute failed).eq_unshiftable roomForBoth
    rw [cause] at failed
    exact ⟨cause, exists_leaf_of_substitute_error failed⟩
  · rintro ⟨rfl, leaf, member, free, beyond⟩
    -- A failure could only be this one, so it is enough that there is no result.
    cases outcome : term.substitute replacement target with
    | ok result =>
        have fits := le_last_of_substitute outcome member free
        omega
    | error cause => rw [(ofBinding_of_substitute outcome).eq_unshiftable roomForBoth]

/-- A leaf above the target is not the least level, so it can be moved one binder closer. -/
private theorem leave_of_above (above : target.toInt + leaf.binders < leaf.level.toInt) :
    Checked.leave leaf.level = .ok (leaf.level - 1) :=
  Checked.leave_of_lt (Int64.lt_iff_toInt_lt.mpr (by omega : target.toInt < leaf.level.toInt))

end Term

open Term

/-- With room for the binders of both terms, no count of binders overflows and no level wraps. A
shift then fails exactly on a leaf of the greatest level, and a substitution exactly if the
replacement has a free variable that the binders of the term would raise past it, wherever the
replaced variable occurs. -/
theorem binding_failures (term replacement : Term) (level : Level)
    (room : level.toInt + term.binderDepth ≤ Level.last.toInt) :
    (∀ failure, term.shift level = .error failure ↔
      failure = .unshiftable .last ∧ ∃ leaf ∈ term.leaves, leaf.level = .last) ∧
    (∀ bound, Checked.Accepted bound term →
      Checked.shift bound level term = Checked.of (term.shift level)) ∧
    (replacement.binderDepth ≤ Level.last.toInt →
      (∀ failure, term.substitute replacement level = .error failure ↔
        failure = .unshiftable .last ∧ ∃ leaf ∈ replacement.leaves,
          leaf.binders ≤ leaf.level.toInt ∧
            Level.last.toInt < leaf.level.toInt + term.binderDepth) ∧
      (∀ leaf ∈ term.leaves, level.toInt + leaf.binders < leaf.level.toInt →
        Checked.leave leaf.level = .ok (leaf.level - 1)) ∧
      (∀ bound, term.nodeCount < UInt64.size → Checked.Accepted bound term →
        Checked.Accepted bound replacement →
        Checked.substitute bound term replacement level =
          Checked.of (term.substitute replacement level))) := by
  refine ⟨fun _ => shift_eq_error_iff room, fun _ accepted => Checked.shift_eq accepted room, ?_⟩
  intro shallow
  refine ⟨fun _ => substitute_eq_error_iff room shallow, fun _ _ above => leave_of_above above, ?_⟩
  intro bound counted accepted acceptedReplacement
  exact Checked.substitute_eq counted accepted acceptedReplacement room shallow

/-- The greatest level but one cannot pass two binders, although the variable that it replaces does
not occur there, and the target lies among the sentinels. -/
theorem absent_variable_unshiftable :
    (lambda 2 (.var .last)).shift (-3) = .error (.unshiftable .last) ∧
      (lambda 2 (.var .last)).substitute (.var (Level.last - 1)) (-3) =
        .error (.unshiftable .last) ∧
      Checked.substitute 4 (lambda 2 (.var .last)) (.var (Level.last - 1)) (-3) =
        Checked.of ((lambda 2 (.var .last)).substitute (.var (Level.last - 1)) (-3)) := by
  have room : (-3 : Level).toInt + (lambda 2 (.var .last)).binderDepth ≤ Level.last.toInt := by
    decide
  have shallow : ((Term.var (Level.last - 1)).binderDepth : Int) ≤ Level.last.toInt := by decide
  obtain ⟨shifting, _, substituting⟩ :=
    binding_failures (lambda 2 (.var .last)) (.var (Level.last - 1)) (-3) room
  obtain ⟨failing, _, checked⟩ := substituting shallow
  have greatest : ∃ leaf ∈ (lambda 2 (.var .last)).leaves, leaf.level = .last := by decide
  have beyond : ∃ leaf ∈ (Term.var (Level.last - 1)).leaves, leaf.binders ≤ leaf.level.toInt ∧
      Level.last.toInt < leaf.level.toInt + (lambda 2 (.var .last)).binderDepth := by
    decide
  exact ⟨(shifting _).mpr ⟨rfl, greatest⟩, (failing _).mpr ⟨rfl, beyond⟩,
    checked 4 (by decide) (by decide) (by decide)⟩

end NamelessLambda
