import NamelessLambda.Proofs.FailureCauses
import NamelessLambda.Proofs.LockStep
import NamelessLambda.Proofs.Reading

/-!
Contract: every operation on terms commutes with shifting them.

A shift at `cutoff` raises the variables that are free by so much. What happens
to a term happens to the shifted term as well, with shifted results. Only the
shifted term can contain a level that must not move any further.

Owns:
- injectivity of the shift, and its cancellation by a substitution;
- shifts, substitutions, head steps and passes in lock step with their shifts.

Does not own:
- whole evaluations.
-/

namespace NamelessLambda

/-- Failures are the same, and a level of the second computation may be unable to move. -/
def Failure.Comparison.unshifted : Failure.Comparison where
  agree := Eq
  excused failure := ∃ level, failure = .unshiftable level

namespace Term

/-- The second term is the first one, shifted. -/
abbrev Shifted (cutoff : Level) (term shifted : Term) : Prop := term.shift cutoff = .ok shifted

section Shapes

variable {cutoff inner level raised : Level} {term other shifted body body' : Term}
  {function function' argument argument' : Term}

private theorem shift_var_of_lt (below : level.toInt < cutoff.toInt) :
    Shifted cutoff (.var level) (.var level) :=
  shift_var_eq_ok_iff.mpr (.inl ⟨Int64.lt_iff_toInt_lt.mpr below, rfl⟩)

private theorem shift_var_of_next? (above : cutoff.toInt ≤ level.toInt)
    (found : level.next? = some raised) : Shifted cutoff (.var level) (.var raised) :=
  shift_var_eq_ok_iff.mpr
    (.inr ⟨fun below => by rw [Int64.lt_iff_toInt_lt] at below; omega, raised, found, rfl⟩)

private theorem shifted_lam (entered : cutoff.next? = some inner)
    (inBody : Shifted inner body body') : Shifted cutoff (.lam body) (.lam body') :=
  shift_lam_eq_ok_iff.mpr ⟨inner, body', entered, inBody, rfl⟩

private theorem shifted_app (inFunction : Shifted cutoff function function')
    (inArgument : Shifted cutoff argument argument') :
    Shifted cutoff (.app function argument) (.app function' argument') :=
  shift_app_eq_ok_iff.mpr ⟨function', argument', inFunction, inArgument, rfl⟩

private theorem shifted_var_cases (ran : Shifted cutoff (.var level) shifted) :
    (level.toInt < cutoff.toInt ∧ shifted = .var level) ∨
      ∃ raised, cutoff.toInt ≤ level.toInt ∧ level.next? = some raised ∧
        raised.toInt = level.toInt + 1 ∧ shifted = .var raised := by
  rcases shift_var_eq_ok_iff.mp ran with ⟨below, rfl⟩ | ⟨notBelow, raised, found, rfl⟩
  · exact .inl ⟨Int64.lt_iff_toInt_lt.mp below, rfl⟩
  · rw [Int64.lt_iff_toInt_lt, Int.not_lt] at notBelow
    exact .inr ⟨raised, notBelow, found, Level.toInt_of_next?_eq_some found, rfl⟩

theorem isLam_of_shift (ran : Shifted cutoff term shifted) : term.isLam = shifted.isLam := by
  cases term with
  | var level =>
      rcases shifted_var_cases ran with ⟨_, rfl⟩ | ⟨_, _, _, _, rfl⟩ <;> rfl
  | lam body =>
      obtain ⟨_, _, _, _, rfl⟩ := shift_lam_eq_ok_iff.mp ran
      rfl
  | app function argument =>
      obtain ⟨_, _, _, _, rfl⟩ := shift_app_eq_ok_iff.mp ran
      rfl

private theorem exists_var_of_shifted (ran : Shifted cutoff term (.var raised)) :
    ∃ level, term = .var level := by
  cases term with
  | var level => exact ⟨level, rfl⟩
  | lam body => cases isVar_of_shift ran
  | app function argument => cases isVar_of_shift ran

private theorem exists_lam_of_shifted (ran : Shifted cutoff term (.lam body')) :
    ∃ inner body, term = .lam body ∧ cutoff.next? = some inner ∧ Shifted inner body body' := by
  cases term with
  | var level => cases isVar_of_shift ran
  | lam body =>
      obtain ⟨inner, _, entered, inBody, same⟩ := shift_lam_eq_ok_iff.mp ran
      cases same
      exact ⟨inner, body, rfl, entered, inBody⟩
  | app function argument => cases isLam_of_shift ran

private theorem exists_app_of_shifted (ran : Shifted cutoff term (.app function' argument')) :
    ∃ function argument, term = .app function argument ∧ Shifted cutoff function function' ∧
      Shifted cutoff argument argument' := by
  cases term with
  | var level => cases isVar_of_shift ran
  | lam body => cases isLam_of_shift ran
  | app function argument =>
      obtain ⟨_, _, inFunction, inArgument, same⟩ := shift_app_eq_ok_iff.mp ran
      cases same
      exact ⟨function, argument, rfl, inFunction, inArgument⟩

/-- No variable is raised onto one that stays. -/
private theorem toInt_eq_of_shifted {level level' : Level}
    (ran : Shifted cutoff (.var level) shifted)
    (ranOther : Shifted cutoff (.var level') shifted) : level.toInt = level'.toInt := by
  rcases shifted_var_cases ran with ⟨below, rfl⟩ | ⟨raised, above, _, next, rfl⟩
  · rcases shifted_var_cases ranOther with ⟨_, same⟩ | ⟨raised, above, _, next, same⟩
    · rw [Term.var.inj same]
    · rw [← Term.var.inj same] at next
      omega
  · rcases shifted_var_cases ranOther with ⟨below, same⟩ | ⟨raised', _, _, next', same⟩
    · rw [Term.var.inj same] at next
      omega
    · rw [Term.var.inj same] at next
      omega

theorem shift_injective (ran : Shifted cutoff term shifted)
    (ranOther : Shifted cutoff other shifted) : term = other := by
  induction shifted generalizing cutoff term other with
  | var raised =>
      obtain ⟨level, rfl⟩ := exists_var_of_shifted ran
      obtain ⟨level', rfl⟩ := exists_var_of_shifted ranOther
      rw [Int64.toInt_inj.mp (toInt_eq_of_shifted ran ranOther)]
  | lam body' inductionHypothesis =>
      obtain ⟨inner, body, rfl, entered, inBody⟩ := exists_lam_of_shifted ran
      obtain ⟨inner', other, rfl, entered', inOther⟩ := exists_lam_of_shifted ranOther
      rw [entered] at entered'
      cases entered'
      rw [inductionHypothesis inBody inOther]
  | app function' argument' functionHypothesis argumentHypothesis =>
      obtain ⟨function, argument, rfl, inFunction, inArgument⟩ := exists_app_of_shifted ran
      obtain ⟨other, last, rfl, inOther, inLast⟩ := exists_app_of_shifted ranOther
      rw [functionHypothesis inFunction inOther, argumentHypothesis inArgument inLast]

/-- Only a variable that the shift leaves out could be replaced, and the others move back. -/
theorem substitute_of_shift {replacement : Term} {result : Substitution}
    (ran : Shifted cutoff term shifted)
    (back : shifted.substitute replacement cutoff = .ok result) :
    result = ⟨term, 0⟩ := by
  induction term generalizing cutoff shifted replacement result with
  | var level =>
      rcases shifted_var_cases ran with ⟨below, rfl⟩ | ⟨raised, above, _, raisedNext, rfl⟩
      · rw [substitute_var_of_lt below] at back
        exact (Except.ok.inj back).symm
      · obtain ⟨nearer, found, nearerNext⟩ :=
          exists_substitute_var_of_gt (by omega : cutoff.toInt < raised.toInt)
        have same : nearer = level := Int64.toInt_inj.mp (by omega)
        rw [found, same] at back
        exact (Except.ok.inj back).symm
  | lam body inductionHypothesis =>
      obtain ⟨inner, body', entered, inBody, rfl⟩ := shift_lam_eq_ok_iff.mp ran
      obtain ⟨_, innerAgain, inside, _, enteredAgain, backInside, rfl⟩ :=
        substitute_lam_eq_ok_iff.mp back
      rw [entered] at enteredAgain
      cases enteredAgain
      rw [inductionHypothesis inBody backInside]
  | app function argument functionHypothesis argumentHypothesis =>
      obtain ⟨function', argument', inFunction, inArgument, rfl⟩ := shift_app_eq_ok_iff.mp ran
      obtain ⟨first, second, backFunction, backArgument, rfl⟩ := substitute_app_eq_ok_iff.mp back
      cases functionHypothesis inFunction backFunction
      cases argumentHypothesis inArgument backArgument
      rfl

end Shapes

/-! ## Shifting and substituting -/

section Binding

variable {term shifted replacement moved : Term}

/-- A shift nearer to the root than `high` moves that cutoff one further out. -/
private theorem mirrored_shift {low high higher : Level} (le : low.toInt ≤ high.toInt)
    (next : high.next? = some higher) (room : high.toInt + term.binderDepth < Level.last.toInt)
    (ran : Shifted high term shifted) :
    Failure.Mirrored .unshifted (Shifted higher) (term.shift low) (shifted.shift low) := by
  have further := Level.toInt_of_next?_eq_some next
  induction term generalizing low high higher shifted with
  | var level =>
      rcases shifted_var_cases ran with ⟨below, rfl⟩ | ⟨raised, above, found, raisedNext, rfl⟩
      · by_cases beyond : low.toInt ≤ level.toInt
        · obtain ⟨raised, found, raisedNext⟩ := Level.exists_next?_of_lt
            (Int.lt_of_lt_of_le below high.toInt_le_last)
          rw [shift_var_of_next? beyond found]
          exact .ok (shift_var_of_lt (by omega))
        · rw [shift_var_of_lt (by omega)]
          exact .ok (shift_var_of_lt (by omega))
      · rw [shift_var_of_next? (by omega) found]
        cases last : raised.next? with
        | none =>
            have stuck : (Term.var raised).shift low = .error (.unshiftable raised) := by
              have notBelow : ¬ raised < low := by rw [Int64.lt_iff_toInt_lt]; omega
              rw [shift, if_neg notBelow, Level.raise, last]
              rfl
            rw [stuck]
            exact .excused ⟨raised, rfl⟩
        | some raised' =>
            rw [shift_var_of_next? (by omega) last]
            exact .ok (shift_var_of_next? (by omega) last)
  | lam body inductionHypothesis =>
      simp only [binderDepth] at room
      obtain ⟨inner, body', entered, ranBody, rfl⟩ := shift_lam_eq_ok_iff.mp ran
      rw [next] at entered
      cases entered
      obtain ⟨lowInner, enteredLow, deeperLow⟩ :=
        Level.exists_next?_of_lt (by omega : low.toInt < Level.last.toInt)
      obtain ⟨highest, nextHigher, deeper⟩ :=
        Level.exists_next?_of_lt (by omega : higher.toInt < Level.last.toInt)
      rw [shift, shift, Level.enter_eq_ok_iff.mpr enteredLow]
      exact (inductionHypothesis (by omega) nextHigher (by omega) ranBody deeper).map
        fun _ _ inBody => shifted_lam nextHigher inBody
  | app function argument functionHypothesis argumentHypothesis =>
      simp only [binderDepth] at room
      obtain ⟨function', argument', ranFunction, ranArgument, rfl⟩ := shift_app_eq_ok_iff.mp ran
      apply (functionHypothesis le next (by omega) ranFunction further).bind
      intro first first' _ inFunction
      exact (argumentHypothesis le next (by omega) ranArgument further).map
        fun _ _ inArgument => shifted_app inFunction inArgument

/-- Results of substitutions with the same number of copies, the second one shifted. -/
structure ShiftedResult (cutoff : Level) (result result' : Substitution) : Prop where
  term : Shifted cutoff result.term result'.term
  copies : result.copies = result'.copies

/-- The variable that is replaced lies below the cutoff, so its binder counts for the cutoff. -/
private theorem mirrored_substitute {target cutoff further : Level} (nonneg : 0 ≤ cutoff.toInt)
    (le : target.toInt ≤ cutoff.toInt) (next : cutoff.next? = some further)
    (room : cutoff.toInt + term.binderDepth + replacement.binderDepth < Level.last.toInt)
    (ran : Shifted further term shifted) (ranReplacement : Shifted cutoff replacement moved) :
    Failure.Mirrored .unshifted (ShiftedResult cutoff)
      (term.substitute replacement target) (shifted.substitute moved target) := by
  have deeper := Level.toInt_of_next?_eq_some next
  induction term generalizing replacement moved target cutoff further shifted with
  | var level =>
      have leaf := isVar_of_shift ranReplacement
      rcases shifted_var_cases ran with ⟨below, rfl⟩ | ⟨raised, above, _, raisedNext, rfl⟩
      · rcases Int.lt_trichotomy level.toInt target.toInt with inside | same | outside
        · rw [substitute_var_of_lt inside, substitute_var_of_lt inside]
          exact .ok ⟨shift_var_of_lt (by omega), rfl⟩
        · rw [Int64.toInt_inj.mp same, substitute_var_self, substitute_var_self, leaf]
          exact .ok ⟨ranReplacement, rfl⟩
        · obtain ⟨nearer, found, nearerNext⟩ := exists_substitute_var_of_gt outside
          rw [found, found]
          exact .ok ⟨shift_var_of_lt (by omega), rfl⟩
      · obtain ⟨nearer, found, nearerNext⟩ :=
          exists_substitute_var_of_gt (by omega : target.toInt < level.toInt)
        obtain ⟨nearer', found', nearerNext'⟩ :=
          exists_substitute_var_of_gt (by omega : target.toInt < raised.toInt)
        rw [found, found']
        exact .ok ⟨shift_var_of_next? (by omega) (Level.next?_eq_some_of_toInt (by omega)), rfl⟩
  | lam body inductionHypothesis =>
      simp only [binderDepth] at room
      obtain ⟨inner, body', entered, ranBody, rfl⟩ := shift_lam_eq_ok_iff.mp ran
      have deeperInner := Level.toInt_of_next?_eq_some entered
      obtain ⟨targetInner, enteredTarget, deeperTarget⟩ :=
        Level.exists_next?_of_lt (by omega : target.toInt < Level.last.toInt)
      rw [substitute, substitute, Level.enter_eq_ok_iff.mpr enteredTarget]
      have zero : (0 : Level).toInt = 0 := rfl
      apply (mirrored_shift (by omega) next (by omega) ranReplacement).bind
      intro raised raised' ranShift both
      rw [← binderDepth_of_shift ranShift] at room
      exact (inductionHypothesis (by omega) (by omega) entered (by omega) ranBody both
        deeperInner).map fun _ _ inside => ⟨shifted_lam next inside.term, inside.copies⟩
  | app function argument functionHypothesis argumentHypothesis =>
      simp only [binderDepth] at room
      obtain ⟨function', argument', ranFunction, ranArgument, rfl⟩ := shift_app_eq_ok_iff.mp ran
      apply (functionHypothesis nonneg le next (by omega) ranFunction ranReplacement deeper).bind
      intro first first' _ inFunction
      apply (argumentHypothesis nonneg le next (by omega) ranArgument ranReplacement deeper).map
      intro second second' inArgument
      refine ⟨shifted_app inFunction.term inArgument.term, ?_⟩
      rw [inFunction.copies, inArgument.copies]

end Binding

/-! ## Reducing -/

section Reducing

variable {cutoff : Level} {term shifted : Term}

/-- A cutoff that leaves room for all binders of a redex leaves room for its substitution. -/
private theorem mirrored_redex {body argument body' argument' : Term} {inner : Level}
    (nonneg : 0 ≤ cutoff.toInt) (entered : cutoff.next? = some inner)
    (room : cutoff.toInt + (Term.app (.lam body) argument).nodeCount ≤ Level.last.toInt)
    (inBody : Shifted inner body body') (inArgument : Shifted cutoff argument argument') :
    Failure.Mirrored .unshifted (ShiftedResult cutoff)
      (body.substitute argument 0) (body'.substitute argument' 0) := by
  have bodyDepth := binderDepth_lt_nodeCount body
  have argumentDepth := binderDepth_lt_nodeCount argument
  simp only [nodeCount] at room
  exact mirrored_substitute nonneg nonneg entered (by omega) inBody inArgument

theorem mirrored_headStep (nonneg : 0 ≤ cutoff.toInt)
    (room : cutoff.toInt + term.nodeCount ≤ Level.last.toInt)
    (ran : Shifted cutoff term shifted) :
    Failure.Mirrored .unshifted (Option.Rel (Shifted cutoff)) term.headStep shifted.headStep := by
  induction term generalizing shifted with
  | var level =>
      rcases shifted_var_cases ran with ⟨_, rfl⟩ | ⟨raised, above, _, next, rfl⟩
      · unfold headStep
        split
        · exact .error rfl
        · exact .ok .none
      · have bound := (Level.not_isSentinel_iff level).mpr (by omega)
        have boundRaised := (Level.not_isSentinel_iff raised).mpr (by omega)
        simp only [headStep, bound, boundRaised]
        exact .ok .none
  | lam body _ =>
      obtain ⟨_, _, _, _, rfl⟩ := shift_lam_eq_ok_iff.mp ran
      exact .ok .none
  | app function argument inductionHypothesis _ =>
      obtain ⟨function', argument', ranFunction, ranArgument, rfl⟩ := shift_app_eq_ok_iff.mp ran
      have shape := isLam_of_shift ranFunction
      cases binder : function.isLam with
      | true =>
          cases function with
          | var level => cases binder
          | app first last => cases binder
          | lam body =>
              obtain ⟨inner, body', entered, ranBody, rfl⟩ := shift_lam_eq_ok_iff.mp ranFunction
              exact (mirrored_redex nonneg entered room ranBody ranArgument).map
                fun _ _ contracted => .some contracted.term
      | false =>
          rw [binder] at shape
          rw [headStep_app_of_not_isLam binder, headStep_app_of_not_isLam shape.symm]
          simp only [nodeCount] at room
          apply (inductionHypothesis (by omega) ranFunction).map
          rintro _ _ (⟨inFunction⟩ | _)
          · exact .some (shifted_app inFunction ranArgument)
          · exact .none

private theorem mirrored_contractFrugal {function argument function' argument' : Term}
    (nonneg : 0 ≤ cutoff.toInt)
    (room : cutoff.toInt + (Term.app function argument).nodeCount ≤ Level.last.toInt)
    (ranFunction : Shifted cutoff function function')
    (ranArgument : Shifted cutoff argument argument') :
    Failure.Mirrored .unshifted (Option.Rel (Shifted cutoff))
      (contractFrugal function argument) (contractFrugal function' argument') := by
  cases function with
  | var level =>
      rcases shifted_var_cases ranFunction with ⟨_, rfl⟩ | ⟨_, _, _, _, rfl⟩
      · exact .ok .none
      · exact .ok .none
  | app first last =>
      obtain ⟨_, _, _, _, rfl⟩ := shift_app_eq_ok_iff.mp ranFunction
      exact .ok .none
  | lam body =>
      obtain ⟨inner, body', entered, ranBody, rfl⟩ := shift_lam_eq_ok_iff.mp ranFunction
      apply (mirrored_redex nonneg entered room ranBody ranArgument).map
      intro result result' contracted
      rw [contracted.copies]
      split
      · exact .some contracted.term
      · exact .none

private theorem rel_rebuildApp {function argument function' argument' : Term}
    {changedFunction changedArgument changedFunction' changedArgument' : Option Term}
    (ranFunction : Shifted cutoff function function')
    (ranArgument : Shifted cutoff argument argument')
    (inFunction : Option.Rel (Shifted cutoff) changedFunction changedFunction')
    (inArgument : Option.Rel (Shifted cutoff) changedArgument changedArgument') :
    Option.Rel (Shifted cutoff) (rebuildApp function argument changedFunction changedArgument)
      (rebuildApp function' argument' changedFunction' changedArgument') := by
  cases inFunction with
  | none =>
      cases inArgument with
      | none => exact .none
      | some inArgument => exact .some (shifted_app ranFunction inArgument)
  | some inFunction =>
      cases inArgument with
      | none => exact .some (shifted_app inFunction ranArgument)
      | some inArgument => exact .some (shifted_app inFunction inArgument)

theorem mirrored_clean (nonneg : 0 ≤ cutoff.toInt)
    (room : cutoff.toInt + term.nodeCount ≤ Level.last.toInt)
    (ran : Shifted cutoff term shifted) :
    Failure.Mirrored .unshifted (Option.Rel (Shifted cutoff)) term.clean shifted.clean := by
  induction term generalizing cutoff shifted with
  | var level =>
      rcases shifted_var_cases ran with ⟨_, rfl⟩ | ⟨_, _, _, _, rfl⟩
      · exact .ok .none
      · exact .ok .none
  | lam body inductionHypothesis =>
      obtain ⟨inner, body', entered, ranBody, rfl⟩ := shift_lam_eq_ok_iff.mp ran
      have deeper := Level.toInt_of_next?_eq_some entered
      simp only [nodeCount] at room
      apply (inductionHypothesis (by omega) (by omega) ranBody).map
      rintro _ _ (⟨inBody⟩ | _)
      · exact .some (shifted_lam entered inBody)
      · exact .none
  | app function argument functionHypothesis argumentHypothesis =>
      obtain ⟨function', argument', ranFunction, ranArgument, rfl⟩ := shift_app_eq_ok_iff.mp ran
      apply (mirrored_contractFrugal nonneg room ranFunction ranArgument).bind
      simp only [nodeCount] at room
      rintro _ _ _ (⟨reduced⟩ | _)
      · exact .ok (.some reduced)
      · apply (functionHypothesis nonneg (by omega) ranFunction).bind
        intro changed changed' _ inFunction
        exact (argumentHypothesis nonneg (by omega) ranArgument).map
          fun _ _ inArgument => rel_rebuildApp ranFunction ranArgument inFunction inArgument

end Reducing

end Term

end NamelessLambda
