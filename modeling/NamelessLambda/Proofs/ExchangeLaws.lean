import NamelessLambda.Proofs.BindingFailures
import NamelessLambda.Proofs.ShiftExchange

/-!
Contract: the order in which two operations on variables are made.

Operations on bounded terms fail where a level does not fit, so their laws speak
of operations that have all succeeded. Their results are compared by their
readings as pure terms, where nothing fails and the laws hold outright. Copies
are not part of a reading, so they are counted by the leaves that are replaced.

Owns:
- the law that two substitutions can be made in either order;
- the laws that exchange a shift with a shift, and a shift with a substitution;
- the law that a substitution undoes a shift at its own level, and what blocks it.

Does not own:
- the levels at which one of two exchanged operations fails and the other does not.
-/

namespace NamelessLambda

open Term

/-! ## Two substitutions -/

/-- Substituting for the inner of two variables and then for the outer one has the same result as
substituting for the outer one first, with the other replacement shifted past the inner variable,
and then for the inner one, with the outer one substituted in its replacement. -/
theorem substitutions_commute {term replacement other : Term} {inner outer further : Level}
    (natural : 0 ≤ inner) (le : inner ≤ outer) (next : outer.next? = some further)
    {first moved second left right : Substitution} {shifted : Term}
    (ranInner : term.substitute replacement inner = .ok first)
    (ranLeft : first.term.substitute other outer = .ok left)
    (ranShift : other.shift inner = .ok shifted)
    (ranOuter : term.substitute shifted further = .ok second)
    (ranReplacement : replacement.substitute other outer = .ok moved)
    (ranRight : second.term.substitute moved.term inner = .ok right) :
    left.term = right.term := by
  have innerNatural : 0 ≤ inner.toInt := Int64.le_iff_toInt_le.mp natural
  have order := Int64.le_iff_toInt_le.mp le
  have outerNatural : 0 ≤ outer.toInt := Int.le_trans innerNatural order
  have furtherNatural := Level.toInt_nonneg_of_next? outerNatural next
  have indices : inner.index ≤ outer.index := Int.toNat_le_toNat order
  apply toPure_injective
  calc left.term.toPure
    _ = (term.toPure.assign (PureTerm.supplyAt inner.index replacement.toPure)).assign
          (PureTerm.supplyAt outer.index other.toPure) := by
        rw [toPure_of_substitute outerNatural ranLeft, toPure_of_substitute innerNatural ranInner]
    _ = (term.toPure.assign (PureTerm.supplyAt (outer.index + 1)
          (other.toPure.rename (PureTerm.makeRoom inner.index)))).assign
            (PureTerm.supplyAt inner.index (replacement.toPure.assign
              (PureTerm.supplyAt outer.index other.toPure))) :=
        PureTerm.assign_supplyAt_comm _ _ _ indices
    _ = right.term.toPure := by
        rw [toPure_of_substitute innerNatural ranRight,
          toPure_of_substitute furtherNatural ranOuter, toPure_of_shift innerNatural ranShift,
          toPure_of_substitute outerNatural ranReplacement, Level.index_of_next? outerNatural next]

/-- Below one binder both variables, one between them and one in the first replacement are met. -/
theorem nested_substitutions_commute :
    ∃ first left second moved right : Substitution,
      (lambda 1 (applyAll 0 [1, 2, 3])).substitute (applyAll 1 [0]) 0 = .ok first ∧
      first.term.substitute (lambda 1 1) 1 = .ok left ∧
      (lambda 1 (applyAll 0 [1, 2, 3])).substitute (lambda 1 2) 2 = .ok second ∧
      (applyAll 1 [0]).substitute (lambda 1 1) 1 = .ok moved ∧
      second.term.substitute moved.term 0 = .ok right ∧
      left.term = right.term := by
  have ranInner : (lambda 1 (applyAll 0 [1, 2, 3])).substitute (applyAll 1 [0]) 0 =
      .ok ⟨lambda 1 (applyAll 0 [applyAll 2 [1], 1, 2]), 1⟩ := rfl
  have ranLeft : (lambda 1 (applyAll 0 [applyAll 2 [1], 1, 2])).substitute (lambda 1 1) 1 =
      .ok ⟨lambda 1 (applyAll 0 [applyAll (lambda 1 2) [1], 1, lambda 1 2]), 2⟩ := rfl
  have ranShift : (lambda 1 1).shift 0 = .ok (lambda 1 2) := rfl
  have ranOuter : (lambda 1 (applyAll 0 [1, 2, 3])).substitute (lambda 1 2) 2 =
      .ok ⟨lambda 1 (applyAll 0 [1, 2, lambda 1 3]), 1⟩ := rfl
  have ranReplacement : (applyAll 1 [0]).substitute (lambda 1 1) 1 =
      .ok ⟨applyAll (lambda 1 1) [0], 1⟩ := rfl
  have ranRight : (lambda 1 (applyAll 0 [1, 2, lambda 1 3])).substitute
      (applyAll (lambda 1 1) [0]) 0 =
        .ok ⟨lambda 1 (applyAll 0 [applyAll (lambda 1 2) [1], 1, lambda 1 2]), 1⟩ := rfl
  exact ⟨_, _, _, _, _, ranInner, ranLeft, ranOuter, ranReplacement, ranRight,
    substitutions_commute (by decide) (by decide) (rfl : (1 : Level).next? = some 2) ranInner
      ranLeft ranShift ranOuter ranReplacement ranRight⟩

/-! ## A shift and another operation -/

namespace Level

/-- Two levels of binders, the outer one no nearer than the inner one, and the level that the outer
one has inside one more binder. -/
structure Nested (inner outer further : Level) : Prop where
  natural : 0 ≤ inner
  le : inner ≤ outer
  next : outer.next? = some further

namespace Nested

variable {inner outer further : Level}

private theorem innerNatural (nested : Nested inner outer further) : 0 ≤ inner.toInt :=
  Int64.le_iff_toInt_le.mp nested.natural

private theorem toInt_le (nested : Nested inner outer further) : inner.toInt ≤ outer.toInt :=
  Int64.le_iff_toInt_le.mp nested.le

private theorem outerNatural (nested : Nested inner outer further) : 0 ≤ outer.toInt :=
  Int.le_trans nested.innerNatural nested.toInt_le

private theorem furtherNatural (nested : Nested inner outer further) : 0 ≤ further.toInt :=
  toInt_nonneg_of_next? nested.outerNatural nested.next

private theorem toInt_further (nested : Nested inner outer further) :
    further.toInt = outer.toInt + 1 :=
  toInt_of_next?_eq_some nested.next

private theorem index_le (nested : Nested inner outer further) : inner.index ≤ outer.index :=
  Int.toNat_le_toNat nested.toInt_le

private theorem index_further (nested : Nested inner outer further) :
    further.index = outer.index + 1 :=
  index_of_next? nested.outerNatural nested.next

end Nested

end Level

section Exchange

variable {term replacement shifted moved left : Term} {result right : Substitution}
  {inner outer further : Level}

/-- Both substitutions replace the same leaves, and a shifted variable is still a variable. -/
private theorem copies_of_exchange {target cutoff target' cutoff' : Level}
    (ran : term.substitute replacement target = .ok result)
    (ranShift : term.shift cutoff = .ok shifted) (ranMoved : replacement.shift cutoff' = .ok moved)
    (ranRight : shifted.substitute moved target' = .ok right)
    (position : (target.toInt < cutoff.toInt ∧ target'.toInt = target.toInt) ∨
      (cutoff.toInt ≤ target.toInt ∧ target'.toInt = target.toInt + 1)) :
    right.copies = result.copies := by
  rw [copies_of_substitute ranRight, copies_of_substitute ran, isVar_of_shift ranMoved,
    occurrences_of_shift ranShift position]

theorem shifts_commute {first second right : Term} (nested : Level.Nested inner outer further)
    (ranOuter : term.shift outer = .ok first) (ranLeft : first.shift inner = .ok left)
    (ranInner : term.shift inner = .ok second) (ranRight : second.shift further = .ok right) :
    left = right := by
  apply toPure_injective
  calc left.toPure
    _ = (term.toPure.rename (PureTerm.makeRoom outer.index)).rename
          (PureTerm.makeRoom inner.index) := by
        rw [toPure_of_shift nested.innerNatural ranLeft,
          toPure_of_shift nested.outerNatural ranOuter]
    _ = (term.toPure.rename (PureTerm.makeRoom inner.index)).rename
          (PureTerm.makeRoom (outer.index + 1)) :=
        PureTerm.rename_makeRoom_comm _ nested.index_le
    _ = right.toPure := by
        rw [toPure_of_shift nested.furtherNatural ranRight,
          toPure_of_shift nested.innerNatural ranInner, nested.index_further]

/-- The shift is made inside of the substituted variable, which it moves one further out. -/
theorem shift_of_substitute_outer (nested : Level.Nested inner outer further)
    (ran : term.substitute replacement outer = .ok result)
    (ranLeft : result.term.shift inner = .ok left) (ranShift : term.shift inner = .ok shifted)
    (ranMoved : replacement.shift inner = .ok moved)
    (ranRight : shifted.substitute moved further = .ok right) :
    right = ⟨left, result.copies⟩ := by
  have sameTerm : left = right.term := by
    apply toPure_injective
    calc left.toPure
      _ = (term.toPure.assign (PureTerm.supplyAt outer.index replacement.toPure)).rename
            (PureTerm.makeRoom inner.index) := by
          rw [toPure_of_shift nested.innerNatural ranLeft,
            toPure_of_substitute nested.outerNatural ran]
      _ = (term.toPure.rename (PureTerm.makeRoom inner.index)).assign
            (PureTerm.supplyAt (outer.index + 1)
              (replacement.toPure.rename (PureTerm.makeRoom inner.index))) :=
          PureTerm.rename_assign_supplyAt_of_le _ _ nested.index_le
      _ = right.term.toPure := by
          rw [toPure_of_substitute nested.furtherNatural ranRight,
            toPure_of_shift nested.innerNatural ranShift,
            toPure_of_shift nested.innerNatural ranMoved, nested.index_further]
  have sameCopies : right.copies = result.copies :=
    copies_of_exchange ran ranShift ranMoved ranRight (.inr ⟨nested.toInt_le, nested.toInt_further⟩)
  rw [sameTerm, ← sameCopies]

/-- The shift is made outside of the substituted variable, whose binder counts for it as long as it
is there. -/
theorem shift_of_substitute_inner (nested : Level.Nested inner outer further)
    (ran : term.substitute replacement inner = .ok result)
    (ranLeft : result.term.shift outer = .ok left) (ranShift : term.shift further = .ok shifted)
    (ranMoved : replacement.shift outer = .ok moved)
    (ranRight : shifted.substitute moved inner = .ok right) :
    right = ⟨left, result.copies⟩ := by
  have sameTerm : left = right.term := by
    apply toPure_injective
    calc left.toPure
      _ = (term.toPure.assign (PureTerm.supplyAt inner.index replacement.toPure)).rename
            (PureTerm.makeRoom outer.index) := by
          rw [toPure_of_shift nested.outerNatural ranLeft,
            toPure_of_substitute nested.innerNatural ran]
      _ = (term.toPure.rename (PureTerm.makeRoom (outer.index + 1))).assign
            (PureTerm.supplyAt inner.index
              (replacement.toPure.rename (PureTerm.makeRoom outer.index))) :=
          PureTerm.rename_assign_supplyAt_of_ge _ _ nested.index_le
      _ = right.term.toPure := by
          rw [toPure_of_substitute nested.innerNatural ranRight,
            toPure_of_shift nested.furtherNatural ranShift,
            toPure_of_shift nested.outerNatural ranMoved, nested.index_further]
  have below : inner.toInt < further.toInt := by
    rw [nested.toInt_further]
    exact Int.lt_add_one_of_le nested.toInt_le
  have sameCopies : right.copies = result.copies :=
    copies_of_exchange ran ranShift ranMoved ranRight (.inl ⟨below, rfl⟩)
  rw [sameTerm, ← sameCopies]

end Exchange

/-- A shift can be made before another shift or before a substitution instead of after it, with the
same result and as many copies. The level that is further out is then one greater, because there is
a binder inside of it that has been added already, or that has not been removed yet. -/
theorem shifts_exchanged {inner outer further : Level} (natural : 0 ≤ inner) (le : inner ≤ outer)
    (next : outer.next? = some further) (term replacement : Term) :
    (∀ first left second right, term.shift outer = .ok first → first.shift inner = .ok left →
      term.shift inner = .ok second → second.shift further = .ok right → left = right) ∧
    (∀ result left shifted moved right, term.substitute replacement outer = .ok result →
      result.term.shift inner = .ok left → term.shift inner = .ok shifted →
      replacement.shift inner = .ok moved → shifted.substitute moved further = .ok right →
      right = ⟨left, result.copies⟩) ∧
    (∀ result left shifted moved right, term.substitute replacement inner = .ok result →
      result.term.shift outer = .ok left → term.shift further = .ok shifted →
      replacement.shift outer = .ok moved → shifted.substitute moved inner = .ok right →
      right = ⟨left, result.copies⟩) := by
  have nested : Level.Nested inner outer further := ⟨natural, le, next⟩
  refine ⟨?_, ?_, ?_⟩
  · intro first left second right ranOuter ranLeft ranInner ranRight
    exact shifts_commute nested ranOuter ranLeft ranInner ranRight
  · intro result left shifted moved right ran ranLeft ranShift ranMoved ranRight
    exact shift_of_substitute_outer nested ran ranLeft ranShift ranMoved ranRight
  · intro result left shifted moved right ran ranLeft ranShift ranMoved ranRight
    exact shift_of_substitute_inner nested ran ranLeft ranShift ranMoved ranRight

/-- Both levels are the same. Below its binder the term has the variable of that level with one on
either side of it, and the replacement has this variable as well. -/
theorem equal_levels_exchanged :
    (∃ first left second right,
      (lambda 1 (applyAll 0 [1, 2, 3])).shift 1 = .ok first ∧ first.shift 1 = .ok left ∧
      (lambda 1 (applyAll 0 [1, 2, 3])).shift 1 = .ok second ∧ second.shift 2 = .ok right ∧
      left = right) ∧
    (∃ result left shifted right,
      (lambda 1 (applyAll 0 [1, 2, 3])).substitute (lambda 1 2) 1 = .ok result ∧
      result.term.shift 1 = .ok left ∧
      (lambda 1 (applyAll 0 [1, 2, 3])).shift 1 = .ok shifted ∧
      shifted.substitute (lambda 1 3) 2 = .ok right ∧ right = ⟨left, result.copies⟩) ∧
    ∃ result left shifted right,
      (lambda 1 (applyAll 0 [1, 2, 3])).substitute (lambda 1 2) 1 = .ok result ∧
      result.term.shift 1 = .ok left ∧
      (lambda 1 (applyAll 0 [1, 2, 3])).shift 2 = .ok shifted ∧
      shifted.substitute (lambda 1 3) 1 = .ok right ∧ right = ⟨left, result.copies⟩ := by
  obtain ⟨shifts, outside, inside⟩ := shifts_exchanged (by decide : (0 : Level) ≤ 1)
    (Int64.le_refl 1) (rfl : (1 : Level).next? = some 2) (lambda 1 (applyAll 0 [1, 2, 3]))
    (lambda 1 2)
  have once : (lambda 1 (applyAll 0 [1, 2, 3])).shift 1 = .ok (lambda 1 (applyAll 0 [1, 3, 4])) :=
    rfl
  have twice : (lambda 1 (applyAll 0 [1, 3, 4])).shift 1 = .ok (lambda 1 (applyAll 0 [1, 4, 5])) :=
    rfl
  have beyond : (lambda 1 (applyAll 0 [1, 3, 4])).shift 2 = .ok (lambda 1 (applyAll 0 [1, 4, 5])) :=
    rfl
  have moved : (lambda 1 2).shift 1 = .ok (lambda 1 3) := rfl
  have replaced : (lambda 1 (applyAll 0 [1, 2, 3])).substitute (lambda 1 2) 1 =
      .ok ⟨lambda 1 (applyAll 0 [1, lambda 1 3, 2]), 1⟩ := rfl
  have thenShifted : (lambda 1 (applyAll 0 [1, lambda 1 3, 2])).shift 1 =
      .ok (lambda 1 (applyAll 0 [1, lambda 1 4, 3])) := rfl
  have leftOut :
      (lambda 1 (applyAll 0 [1, 2, 3])).shift 2 = .ok (lambda 1 (applyAll 0 [1, 2, 4])) :=
    rfl
  have replacedFurther : (lambda 1 (applyAll 0 [1, 3, 4])).substitute (lambda 1 3) 2 =
      .ok ⟨lambda 1 (applyAll 0 [1, lambda 1 4, 3]), 1⟩ := rfl
  have replacedLeftOut : (lambda 1 (applyAll 0 [1, 2, 4])).substitute (lambda 1 3) 1 =
      .ok ⟨lambda 1 (applyAll 0 [1, lambda 1 4, 3]), 1⟩ := rfl
  exact ⟨⟨_, _, _, _, once, twice, once, beyond, shifts _ _ _ _ once twice once beyond⟩,
    ⟨_, _, _, _, replaced, thenShifted, once, replacedFurther,
      outside _ _ _ _ _ replaced thenShifted once moved replacedFurther⟩,
    ⟨_, _, _, _, replaced, thenShifted, leftOut, replacedLeftOut,
      inside _ _ _ _ _ replaced thenShifted leftOut moved replacedLeftOut⟩⟩

/-! ## A substitution that undoes a shift -/

/-- A substitution at the level of a shift restores the shifted term and copies nothing, whatever
the replacement is and whether or not the level is that of a binder. Only a free variable of the
replacement that cannot be raised past all binders of the term prevents it. -/
theorem shift_undone {term shifted replacement : Term} {level : Level}
    (room : level.toInt + term.binderDepth ≤ Level.last.toInt)
    (shallow : replacement.binderDepth ≤ Level.last.toInt)
    (ran : term.shift level = .ok shifted) :
    (shifted.substitute replacement level = .ok ⟨term, 0⟩ ∧
      ∀ leaf ∈ replacement.leaves, leaf.binders ≤ leaf.level.toInt →
        leaf.level.toInt + term.binderDepth ≤ Level.last.toInt) ∨
    (shifted.substitute replacement level = .error (.unshiftable .last) ∧
      ∃ leaf ∈ replacement.leaves, leaf.binders ≤ leaf.level.toInt ∧
        Level.last.toInt < leaf.level.toInt + term.binderDepth) := by
  have depth := binderDepth_of_shift ran
  cases outcome : shifted.substitute replacement level with
  | ok result =>
      left
      refine ⟨congrArg Except.ok (substitute_of_shift ran outcome), ?_⟩
      intro leaf member free
      rw [← depth]
      exact le_last_of_substitute outcome member free
  | error failure =>
      right
      have roomShifted : level.toInt + shifted.binderDepth ≤ Level.last.toInt := by
        rw [depth]
        exact room
      obtain ⟨cause, beyond⟩ := (substitute_eq_error_iff roomShifted shallow).mp outcome
      rw [depth] at beyond
      exact ⟨congrArg Except.error cause, beyond⟩

/-- Among the sentinels a shift raises bound variables too. The replacement is the greatest level
but one, which can be raised past one binder, but not past two. -/
theorem sentinel_shift_undone :
    (lambda 1 (applyAll 1 [.var (-3), 0, 3])).substitute (.var (Level.last - 1)) (-2) =
      .ok ⟨lambda 1 (applyAll 0 [.var (-3), .var (-1), 2]), 0⟩ ∧
    (lambda 2 2).substitute (.var (Level.last - 1)) (-2) = .error (.unshiftable .last) := by
  have ran : (lambda 1 (applyAll 0 [.var (-3), .var (-1), 2])).shift (-2) =
      .ok (lambda 1 (applyAll 1 [.var (-3), 0, 3])) := rfl
  have ranDeeper : (lambda 2 1).shift (-2) = .ok (lambda 2 2) := rfl
  have shallow : ((Term.var (Level.last - 1)).binderDepth : Int) ≤ Level.last.toInt := by decide
  have raised : ¬ ∃ leaf ∈ (Term.var (Level.last - 1)).leaves, leaf.binders ≤ leaf.level.toInt ∧
      Level.last.toInt <
        leaf.level.toInt + (lambda 1 (applyAll 0 [.var (-3), .var (-1), 2])).binderDepth := by
    decide
  have unraised : ¬ ∀ leaf ∈ (Term.var (Level.last - 1)).leaves, leaf.binders ≤ leaf.level.toInt →
      leaf.level.toInt + (lambda 2 1).binderDepth ≤ Level.last.toInt := by
    decide
  constructor
  · rcases shift_undone (by decide) shallow ran with ⟨restored, _⟩ | ⟨_, beyond⟩
    · exact restored
    · exact absurd beyond raised
  · rcases shift_undone (by decide) shallow ranDeeper with ⟨_, within⟩ | ⟨failed, _⟩
    · exact absurd within unraised
    · exact failed

end NamelessLambda
