import NamelessLambda.Binding.Substitute
import NamelessLambda.Proofs.PureTerm.Spine
import NamelessLambda.Term.Spine

/-!
Contract: bounded terms read as pure terms.

A sentinel is read as a constant and any other variable as its index. The
reading loses nothing, and it turns `shift` into a renaming and `substitute`
into a parallel substitution, so neither of them captures a variable.

Owns:
- `Level.index` and `Term.toPure`, with the way back;
- the reading of a spine, whose head is rigid where it is a variable;
- what a successful shift and a successful substitution do to the reading.

Does not own:
- when they fail.
-/

namespace NamelessLambda

namespace Level

def index (level : Level) : Nat := level.toInt.toNat

theorem isSentinel_iff (level : Level) : level.isSentinel = true ↔ level.toInt < 0 := by
  rw [isSentinel, decide_eq_true_iff, Int64.lt_iff_toInt_lt]
  rfl

theorem not_isSentinel_iff (level : Level) : level.isSentinel = false ↔ 0 ≤ level.toInt := by
  rw [← Bool.not_eq_true, isSentinel_iff]
  exact Int.not_lt

private theorem index_zero : index 0 = 0 := rfl

private theorem toInt_eq_index {level : Level} (natural : 0 ≤ level.toInt) :
    level.toInt = level.index :=
  (Int.toNat_of_nonneg natural).symm

theorem toInt_nonneg_of_next? {level further : Level} (natural : 0 ≤ level.toInt)
    (found : level.next? = some further) : 0 ≤ further.toInt := by
  have successor := toInt_of_next?_eq_some found
  omega

theorem index_of_next? {level further : Level} (natural : 0 ≤ level.toInt)
    (found : level.next? = some further) : further.index = level.index + 1 := by
  have successor := toInt_of_next?_eq_some found
  unfold index
  omega

private theorem lt_iff_index_lt {level other : Level} (natural : 0 ≤ level.toInt)
    (otherNatural : 0 ≤ other.toInt) : level < other ↔ level.index < other.index := by
  rw [Int64.lt_iff_toInt_lt, toInt_eq_index natural, toInt_eq_index otherNatural]
  exact Int.ofNat_lt

/-- A sentinel lies below every level that a binder can have. -/
theorem lt_of_isSentinel {level other : Level} (sentinel : level.isSentinel = true)
    (natural : 0 ≤ other.toInt) : level < other := by
  have negative := (isSentinel_iff level).mp sentinel
  rw [Int64.lt_iff_toInt_lt]
  omega

end Level

namespace Term

def toPure : Term → PureTerm
  | .var level => if level.isSentinel then .constant level else .var level.index
  | .lam body => .lam body.toPure
  | .app function argument => .app function.toPure argument.toPure

theorem toPure_var_of_isSentinel {level : Level} (sentinel : level.isSentinel = true) :
    (Term.var level).toPure = .constant level := by
  rw [toPure, if_pos sentinel]

theorem toPure_var_of_nonneg {level : Level} (natural : 0 ≤ level.toInt) :
    (Term.var level).toPure = .var level.index := by
  have plain := (Level.not_isSentinel_iff level).mpr natural
  rw [toPure, if_neg (by rw [plain]; exact Bool.false_ne_true)]

/-- Term with the given reading, if there is one. -/
def ofPure : PureTerm → Term
  | .var index => .var (Int64.ofInt index)
  | .constant code => .var code
  | .lam body => .lam (ofPure body)
  | .app function argument => .app (ofPure function) (ofPure argument)

theorem ofPure_toPure (term : Term) : ofPure term.toPure = term := by
  induction term with
  | var level =>
      by_cases sentinel : level.isSentinel = true
      · rw [toPure_var_of_isSentinel sentinel, ofPure]
      · have natural := (Level.not_isSentinel_iff level).mp (Bool.eq_false_iff.mpr sentinel)
        rw [toPure_var_of_nonneg natural, ofPure, ← Level.toInt_eq_index natural,
          Int64.ofInt_toInt]
  | lam body inductionHypothesis => rw [toPure, ofPure, inductionHypothesis]
  | app function argument functionHypothesis argumentHypothesis =>
      rw [toPure, ofPure, functionHypothesis, argumentHypothesis]

/-- Different terms have different readings. -/
theorem toPure_injective : Function.Injective toPure :=
  Function.LeftInverse.injective ofPure_toPure

/-! ## Reading a spine -/

theorem toPure_applyAll (head : Term) (arguments : List Term) :
    (head.applyAll arguments).toPure = head.toPure.applyAll (arguments.map toPure) := by
  induction arguments generalizing head with
  | nil => rfl
  | cons argument rest inductionHypothesis => exact inductionHypothesis (.app head argument)

theorem ofPure_applyAll (head : PureTerm) (arguments : List PureTerm) :
    ofPure (head.applyAll arguments) = (ofPure head).applyAll (arguments.map ofPure) := by
  induction arguments generalizing head with
  | nil => rfl
  | cons argument rest inductionHypothesis => exact inductionHypothesis (.app head argument)

theorem rigid_toPure_var (level : Level) : (Term.var level).toPure.Rigid := by
  rw [toPure]
  split
  · exact .constant level
  · exact .var level.index

/-! ## Reading a shifted term -/

/-- A shift is the renaming that makes room for a binder around the inner variables. -/
theorem toPure_of_shift {cutoff : Level} {term shifted : Term} (natural : 0 ≤ cutoff.toInt)
    (ran : shift cutoff term = .ok shifted) :
    shifted.toPure = term.toPure.rename (PureTerm.makeRoom cutoff.index) := by
  induction term generalizing cutoff shifted with
  | var level =>
      rcases shift_var_eq_ok_iff.mp ran with ⟨below, rfl⟩ | ⟨notBelow, raised, found, rfl⟩
      · by_cases sentinel : level.isSentinel = true
        · rw [toPure_var_of_isSentinel sentinel]
          rfl
        · have levelNatural := (Level.not_isSentinel_iff level).mp (Bool.eq_false_iff.mpr sentinel)
          have inner := (Level.lt_iff_index_lt levelNatural natural).mp below
          rw [toPure_var_of_nonneg levelNatural, PureTerm.rename, PureTerm.makeRoom_of_lt inner]
      · have levelNatural : 0 ≤ level.toInt := by
          have above := mt Int64.lt_iff_toInt_lt.mpr notBelow
          omega
        have outer := mt (Level.lt_iff_index_lt levelNatural natural).mpr notBelow
        rw [toPure_var_of_nonneg levelNatural, PureTerm.rename,
          PureTerm.makeRoom_of_le (Nat.not_lt.mp outer),
          toPure_var_of_nonneg (Level.toInt_nonneg_of_next? levelNatural found),
          Level.index_of_next? levelNatural found]
  | lam body inductionHypothesis =>
      obtain ⟨inner, body', entered, ranBody, rfl⟩ := shift_lam_eq_ok_iff.mp ran
      have innerNatural := Level.toInt_nonneg_of_next? natural entered
      simp only [toPure, PureTerm.rename]
      rw [inductionHypothesis innerNatural ranBody, Level.index_of_next? natural entered,
        PureTerm.keepInnermost_makeRoom]
  | app function argument functionHypothesis argumentHypothesis =>
      obtain ⟨_, _, ranFunction, ranArgument, rfl⟩ := shift_app_eq_ok_iff.mp ran
      simp only [toPure, PureTerm.rename]
      rw [functionHypothesis natural ranFunction, argumentHypothesis natural ranArgument]

private theorem toPure_of_shift_zero {term shifted : Term} (ran : shift 0 term = .ok shifted) :
    shifted.toPure = term.toPure.rename Nat.succ := by
  rw [toPure_of_shift (by decide) ran, Level.index_zero, PureTerm.makeRoom_zero]

/-! ## Reading a substitution -/

private theorem toPure_of_substitute_var {level target : Level} {replacement : Term}
    {result : Substitution} (natural : 0 ≤ target.toInt)
    (ran : substitute (.var level) replacement target = .ok result) :
    result.term.toPure =
      (Term.var level).toPure.assign (PureTerm.supplyAt target.index replacement.toPure) := by
  rcases substitute_var_cases ran with ⟨here, same⟩ | ⟨inside, same⟩ | ⟨nearer, outside, next, same⟩
  · rw [same, here, toPure_var_of_nonneg natural, PureTerm.assign, PureTerm.supplyAt_self]
  · rw [same]
    rcases Int.lt_or_le level.toInt 0 with negative | levelNatural
    · rw [toPure_var_of_isSentinel ((Level.isSentinel_iff level).mpr negative), PureTerm.assign]
    · have below : level.index < target.index :=
        (Level.lt_iff_index_lt levelNatural natural).mp (Int64.lt_iff_toInt_lt.mpr inside)
      rw [toPure_var_of_nonneg levelNatural, PureTerm.assign, PureTerm.supplyAt_of_lt below]
  · -- The removed binder lies between this variable and its own.
    have above : target.index < level.index :=
      (Level.lt_iff_index_lt natural (by omega)).mp (Int64.lt_iff_toInt_lt.mpr outside)
    have nearerIndex : nearer.index = level.index - 1 := by
      unfold Level.index
      omega
    rw [same, toPure_var_of_nonneg (by omega), toPure_var_of_nonneg (by omega), PureTerm.assign,
      PureTerm.supplyAt_of_gt above, nearerIndex]

/-- A substitution is the parallel one that supplies the replacement below the inner binders. -/
theorem toPure_of_substitute {term replacement : Term} {target : Level} {result : Substitution}
    (natural : 0 ≤ target.toInt) (ran : term.substitute replacement target = .ok result) :
    result.term.toPure =
      term.toPure.assign (PureTerm.supplyAt target.index replacement.toPure) := by
  induction term generalizing replacement target result with
  | var level => exact toPure_of_substitute_var natural ran
  | lam body inductionHypothesis =>
      obtain ⟨shifted, inner, inside, ranShift, entered, ranBody, rfl⟩ :=
        substitute_lam_eq_ok_iff.mp ran
      have innerNatural := Level.toInt_nonneg_of_next? natural entered
      simp only [toPure, PureTerm.assign]
      rw [inductionHypothesis innerNatural ranBody, Level.index_of_next? natural entered,
        toPure_of_shift_zero ranShift, PureTerm.bindInnermost_supplyAt]
  | app function argument functionHypothesis argumentHypothesis =>
      obtain ⟨_, _, ranFunction, ranArgument, rfl⟩ := substitute_app_eq_ok_iff.mp ran
      simp only [toPure, PureTerm.assign]
      rw [functionHypothesis natural ranFunction, argumentHypothesis natural ranArgument]

/-- Substitution for the innermost variable instantiates the body. -/
theorem toPure_of_substitute_zero {body argument : Term} {result : Substitution}
    (ran : body.substitute argument 0 = .ok result) :
    result.term.toPure = body.toPure.instantiate argument.toPure := by
  rw [toPure_of_substitute (by decide) ran, Level.index_zero, PureTerm.supplyAt_zero]
  rfl

end Term

end NamelessLambda
