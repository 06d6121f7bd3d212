import Mathlib.Logic.Equiv.Basic
import NamelessLambda.Proofs.EventLog
import NamelessLambda.Proofs.Rendering
import NamelessLambda.Proofs.ShiftExchange

/-!
Contract: no operation looks into the code of a sentinel.

A sentinel lies below every level that a binder can have, so shifting and
substituting keep it whatever its code is. If different codes stay different,
then repetitions stay repetitions, and an evaluation of the recoded term makes
the same moves and shows the same events.

Owns:
- `Level.Recoding`, the admissible changes of codes;
- the equations by which a recoding passes through each operation;
- recoded evaluations.

Does not own:
- `Term.relabel` itself, or how a sentinel is rendered.
-/

namespace NamelessLambda

open Term

/-- Other sentinels for the sentinels, different ones for different ones. -/
structure Level.Recoding (code : Level → Level) : Prop where
  sentinel : ∀ level, level.isSentinel = true → (code level).isSentinel = true
  injective : ∀ level other, level.isSentinel = true → other.isSentinel = true →
    code level = code other → level = other

/-- A fatal sentinel is reported with its code; no other failure mentions one. -/
def Failure.relabel (code : Level → Level) : Failure → Failure
  | .divergent level => .divergent (code level)
  | failure => failure

/-- Failures are the same up to the code of a fatal sentinel, and none excuses another outcome. -/
def Failure.Comparison.recoded (code : Level → Level) : Failure.Comparison where
  agree failure other := other = failure.relabel code
  excused _ := False

private theorem Failure.relabel_of_ne_divergent {code : Level → Level} {failure : Failure}
    (different : ∀ level, failure ≠ .divergent level) : failure.relabel code = failure := by
  cases failure with
  | divergent level => exact absurd rfl (different level)
  | _ => rfl

/-! ## Recoded terms -/

namespace Term

variable {code : Level → Level}

private theorem relabel_var_of_isSentinel {level : Level} (sentinel : level.isSentinel = true) :
    (Term.var level).relabel code = .var (code level) := by
  rw [relabel, if_pos sentinel]

private theorem relabel_var_of_nonneg {level : Level} (natural : 0 ≤ level.toInt) :
    (Term.var level).relabel code = .var level := by
  have plain := (Level.not_isSentinel_iff level).mpr natural
  rw [relabel, if_neg (by rw [plain]; exact Bool.false_ne_true)]

@[simp] theorem nodeCount_relabel (term : Term) :
    (term.relabel code).nodeCount = term.nodeCount := by
  induction term with
  | var level => rfl
  | lam body inductionHypothesis => rw [relabel, nodeCount, nodeCount, inductionHypothesis]
  | app function argument functionHypothesis argumentHypothesis =>
      rw [relabel, nodeCount, nodeCount, functionHypothesis, argumentHypothesis]

private theorem relabel_applyAll (head : Term) (arguments : List Term) :
    (head.applyAll arguments).relabel code =
      (head.relabel code).applyAll (arguments.map (relabel code)) := by
  induction arguments generalizing head with
  | nil => rfl
  | cons argument rest inductionHypothesis => exact inductionHypothesis (.app head argument)

/-- Recoding never makes two levels equal: sentinels and other levels stay apart. -/
private theorem eq_of_relabel_var (recoding : Level.Recoding code) {level other : Level}
    (same : (Term.var level).relabel code = (Term.var other).relabel code) : level = other := by
  have levels := Term.var.inj same
  by_cases sentinel : level.isSentinel = true
  · rw [if_pos sentinel] at levels
    have coded := recoding.sentinel level sentinel
    by_cases otherSentinel : other.isSentinel = true
    · rw [if_pos otherSentinel] at levels
      exact recoding.injective level other sentinel otherSentinel levels
    · rw [levels, if_neg otherSentinel] at coded
      exact absurd coded otherSentinel
  · rw [if_neg sentinel] at levels
    by_cases otherSentinel : other.isSentinel = true
    · rw [levels, if_pos otherSentinel] at sentinel
      exact absurd (recoding.sentinel other otherSentinel) sentinel
    · rw [levels, if_neg otherSentinel]

private theorem relabel_injective (recoding : Level.Recoding code) :
    Function.Injective (relabel code) := by
  intro term other same
  induction term generalizing other with
  | var level =>
      cases other with
      | var level' => rw [eq_of_relabel_var recoding same]
      | lam body => cases same
      | app function argument => cases same
  | lam body inductionHypothesis =>
      cases other with
      | lam body' => rw [inductionHypothesis (Term.lam.inj same)]
      | var level => cases same
      | app function argument => cases same
  | app function argument functionHypothesis argumentHypothesis =>
      cases other with
      | app function' argument' =>
          have parts := Term.app.inj same
          rw [functionHypothesis parts.1, argumentHypothesis parts.2]
      | var level => cases same
      | lam body => cases same

/-! ## Recoding passes through every operation -/

/-- A shift keeps sentinels, and it raises no level into one. -/
theorem shift_relabel (recoding : Level.Recoding code) {cutoff : Level}
    (natural : 0 ≤ cutoff.toInt) (term : Term) :
    (term.relabel code).shift cutoff = relabel code <$> term.shift cutoff := by
  induction term generalizing cutoff with
  | var level =>
      by_cases sentinel : level.isSentinel = true
      · have below := Level.lt_of_isSentinel sentinel natural
        have belowCode := Level.lt_of_isSentinel (recoding.sentinel level sentinel) natural
        rw [relabel_var_of_isSentinel sentinel, shift, shift, if_pos below, if_pos belowCode]
        exact congrArg Except.ok (relabel_var_of_isSentinel sentinel).symm
      · have levelNatural := (Level.not_isSentinel_iff level).mp (Bool.eq_false_iff.mpr sentinel)
        rw [relabel_var_of_nonneg levelNatural, shift]
        split
        · exact congrArg Except.ok (relabel_var_of_nonneg levelNatural).symm
        · cases raises : level.raise with
          | error failure => rfl
          | ok raised =>
              have found := Level.raise_eq_ok_iff.mp raises
              have raisedNatural := Level.toInt_nonneg_of_next? levelNatural found
              exact congrArg Except.ok (relabel_var_of_nonneg raisedNatural).symm
  | lam body inductionHypothesis =>
      rw [relabel, shift, shift]
      cases entered : cutoff.enter with
      | error failure => rfl
      | ok inner =>
          have found := Level.enter_eq_ok_iff.mp entered
          have inBody := inductionHypothesis (Level.toInt_nonneg_of_next? natural found)
          show lam <$> shift inner (body.relabel code) = relabel code <$> lam <$> shift inner body
          rw [inBody, Functor.map_map, Functor.map_map]
          rfl
  | app function argument functionHypothesis argumentHypothesis =>
      rw [relabel, shift, shift, functionHypothesis natural, argumentHypothesis natural]
      cases function.shift cutoff with
      | error failure => rfl
      | ok function' =>
          cases argument.shift cutoff with
          | error failure => rfl
          | ok argument' => rfl

/-- The substitution with recoded term and as many copies. -/
def relabelResult (code : Level → Level) (result : Substitution) : Substitution :=
  ⟨result.term.relabel code, result.copies⟩

private theorem relabelResult_uncopied {term term' : Term} (same : term.relabel code = term') :
    relabelResult code <$> (.ok ⟨term, 0⟩ : Except Failure Substitution) = .ok ⟨term', 0⟩ :=
  congrArg (fun moved => Except.ok (⟨moved, 0⟩ : Substitution)) same

private theorem substitute_relabel_var (recoding : Level.Recoding code) {target : Level}
    (natural : 0 ≤ target.toInt) (level : Level) (replacement : Term) :
    ((Term.var level).relabel code).substitute (replacement.relabel code) target =
      relabelResult code <$> (Term.var level).substitute replacement target := by
  rcases Int.lt_or_le level.toInt 0 with negative | levelNatural
  · have sentinel := (Level.isSentinel_iff level).mpr negative
    have negativeCode := (Level.isSentinel_iff _).mp (recoding.sentinel level sentinel)
    have moved : (Term.var level).relabel code = .var (code level) :=
      relabel_var_of_isSentinel sentinel
    rw [substitute_var_of_lt (by omega), relabelResult_uncopied moved, moved,
      substitute_var_of_lt (by omega)]
  · rw [relabel_var_of_nonneg levelNatural]
    rcases Int.lt_trichotomy level.toInt target.toInt with inside | same | outside
    · rw [substitute_var_of_lt inside, substitute_var_of_lt inside,
        relabelResult_uncopied (relabel_var_of_nonneg levelNatural)]
    · rw [Int64.toInt_inj.mp same, substitute_var_self, substitute_var_self, isVar_relabel]
      rfl
    · obtain ⟨nearer, found, nearerNext⟩ := exists_substitute_var_of_gt outside
      rw [found, found, relabelResult_uncopied (relabel_var_of_nonneg (by omega))]

/-- The replacement is found at the same places, since no sentinel is the target. -/
theorem substitute_relabel (recoding : Level.Recoding code) {target : Level}
    (natural : 0 ≤ target.toInt) (term replacement : Term) :
    (term.relabel code).substitute (replacement.relabel code) target =
      relabelResult code <$> term.substitute replacement target := by
  induction term generalizing replacement target with
  | var level => exact substitute_relabel_var recoding natural level replacement
  | lam body inductionHypothesis =>
      rw [relabel, substitute, substitute, shift_relabel recoding (by decide)]
      cases replacement.shift 0 with
      | error failure => rfl
      | ok shifted =>
          cases entered : target.enter with
          | error failure => rfl
          | ok inner =>
              have found := Level.enter_eq_ok_iff.mp entered
              have inBody := inductionHypothesis (Level.toInt_nonneg_of_next? natural found) shifted
              show _ <$> (body.relabel code).substitute (shifted.relabel code) inner =
                relabelResult code <$> _ <$> body.substitute shifted inner
              rw [inBody, Functor.map_map, Functor.map_map]
              rfl
  | app function argument functionHypothesis argumentHypothesis =>
      rw [relabel, substitute, substitute, functionHypothesis natural, argumentHypothesis natural]
      cases function.substitute replacement target with
      | error failure => rfl
      | ok first =>
          cases argument.substitute replacement target with
          | error failure => rfl
          | ok second => rfl

private theorem contractFrugal_relabel (recoding : Level.Recoding code) (function argument : Term) :
    contractFrugal (function.relabel code) (argument.relabel code) =
      Option.map (relabel code) <$> contractFrugal function argument := by
  cases function with
  | var level => rfl
  | app first last => rfl
  | lam body =>
      rw [relabel, contractFrugal, contractFrugal, substitute_relabel recoding (by decide)]
      cases body.substitute argument 0 with
      | error failure => rfl
      | ok result =>
          show Except.ok (if result.copies < 2 then some (result.term.relabel code) else none) =
            .ok (Option.map (relabel code) (if result.copies < 2 then some result.term else none))
          split <;> rfl

private theorem rebuildApp_relabel (function argument : Term) (function' argument' : Option Term) :
    rebuildApp (function.relabel code) (argument.relabel code) (function'.map (relabel code))
        (argument'.map (relabel code)) =
      (rebuildApp function argument function' argument').map (relabel code) := by
  cases function' <;> cases argument' <;> rfl

/-- A pass contracts the same redexes whatever the codes are. -/
theorem clean_relabel (recoding : Level.Recoding code) (term : Term) :
    (term.relabel code).clean = Option.map (relabel code) <$> term.clean := by
  induction term with
  | var level => rfl
  | lam body inductionHypothesis =>
      rw [relabel, clean, clean, inductionHypothesis]
      cases body.clean with
      | error failure => rfl
      | ok inside => cases inside <;> rfl
  | app function argument functionHypothesis argumentHypothesis =>
      rw [relabel, clean, clean, contractFrugal_relabel recoding, functionHypothesis,
        argumentHypothesis]
      cases contractFrugal function argument with
      | error failure => rfl
      | ok contraction =>
          cases contraction with
          | some reduced => rfl
          | none =>
              cases function.clean with
              | error failure => rfl
              | ok function' =>
                  cases argument.clean with
                  | error failure => rfl
                  | ok argument' =>
                      exact congrArg Except.ok
                        (rebuildApp_relabel function argument function' argument')

end Term

/-! ## Recoded evaluations -/

/-- The second term is the first one with other codes. -/
def Term.Recoded (code : Level → Level) (term other : Term) : Prop := other = term.relabel code

section LockStep

variable {code : Level → Level}

/-- Only the sentinel at the head can make the two steps fail differently. -/
private theorem mirrored_headStep_relabel (recoding : Level.Recoding code) (term : Term) :
    Failure.Mirrored (.recoded code) (Option.Rel (Recoded code)) term.headStep
      (term.relabel code).headStep := by
  rcases spine_cases term with
    ⟨level, arguments, rfl⟩ | ⟨body, rfl⟩ | ⟨body, argument, rest, rfl⟩
  · rw [relabel_applyAll, headStep_applyAll_var]
    by_cases sentinel : level.isSentinel = true
    · rw [relabel_var_of_isSentinel sentinel, headStep_applyAll_var, if_pos sentinel,
        if_pos (recoding.sentinel level sentinel)]
      exact .error rfl
    · have natural := (Level.not_isSentinel_iff level).mp (Bool.eq_false_iff.mpr sentinel)
      rw [relabel_var_of_nonneg natural, headStep_applyAll_var, if_neg sentinel]
      exact .ok .none
  · exact .ok .none
  · rw [relabel_applyAll, relabel, List.map_cons, headStep_applyAll_lam, headStep_applyAll_lam,
      substitute_relabel recoding (by decide)]
    cases ran : body.substitute argument 0 with
    | error failure =>
        have cause := ofBinding_of_substitute ran
        exact .error (Failure.relabel_of_ne_divergent cause.ne_divergent).symm
    | ok result => exact .ok (.some (relabel_applyAll result.term rest).symm)

private theorem mirrored_clean_relabel (recoding : Level.Recoding code) (term : Term) :
    Failure.Mirrored (.recoded code) (Option.Rel (Recoded code)) term.clean
      (term.relabel code).clean := by
  rw [clean_relabel recoding]
  cases ran : term.clean with
  | error failure =>
      have cause := ofBinding_of_clean ran
      exact .error (Failure.relabel_of_ne_divergent cause.ne_divergent).symm
  | ok cleaned =>
      cases cleaned with
      | none => exact .ok .none
      | some reduced => exact .ok (.some rfl)

private theorem lockStep_recoded (recoding : Level.Recoding code) (bound : Nat) :
    LockStep (.recoded code) bound (Recoded code) where
  guards failure guard := by
    cases failure with
    | divergent level => cases guard
    | _ => rfl
  nodeCount_eq same := by rw [same, nodeCount_relabel]
  isLam_eq same := by rw [same, isLam_relabel]
  eq_iff same same' := by rw [same, same', (relabel_injective recoding).eq_iff]
  headStep := by
    rintro term _ rfl _
    exact mirrored_headStep_relabel recoding term
  clean := by
    rintro term _ rfl _
    exact mirrored_clean_relabel recoding term

private theorem Event.Related.shown_eq (recoding : Level.Recoding code) {event event' : Event}
    (relates : Event.Related (Recoded code) event event') : event.shown = event'.shown := by
  cases relates with
  | settled steps => rfl
  | _ same =>
      rw [same]
      simp only [Event.shown, Event.severity, Event.message, Event.measurements,
        render_relabel recoding.sentinel]

private theorem Run.Mirrored.result_recoded {run other : Run} {result : Term}
    (mirrored : Run.Mirrored (.recoded code) (Recoded code) run other)
    (ran : run.outcome = .ok result) : other.outcome = .ok (result.relabel code) := by
  have outcome := mirrored.outcome
  rw [ran] at outcome
  cases ended : other.outcome with
  | ok result' =>
      rw [ended] at outcome
      cases outcome with
      | ok same => rw [same]
  | error failure' =>
      rw [ended] at outcome
      cases outcome with
      | excused impossible => exact impossible.elim

private theorem Run.Mirrored.failure_recoded {run other : Run} {failure : Failure}
    (mirrored : Run.Mirrored (.recoded code) (Recoded code) run other)
    (failed : run.outcome = .error failure) :
    other.outcome = .error (failure.relabel code) := by
  have outcome := mirrored.outcome
  rw [failed] at outcome
  cases ended : other.outcome with
  | ok result' =>
      rw [ended] at outcome
      cases outcome
  | error failure' =>
      rw [ended] at outcome
      cases outcome with
      | error same => rw [same]
      | excused impossible => exact impossible.elim

end LockStep

/-- With other codes for its sentinels a term shows the same events, and it has the same outcome
with the other codes: in the result, in the cause of a fatal sentinel and in no other failure. -/
theorem evaluation_of_recoded {code : Level → Level} (recoding : Level.Recoding code)
    (limits : Limits) (term : Term) :
    ∀ evaluation ∈ [Run.simplify, Run.normalize, Run.evaluate],
      (evaluation limits (term.relabel code)).events.toList.map Event.shown =
        (evaluation limits term).events.toList.map Event.shown ∧
      (∀ result, (evaluation limits term).outcome = .ok result →
        (evaluation limits (term.relabel code)).outcome = .ok (result.relabel code)) ∧
      (∀ level, (evaluation limits term).outcome = .error (.divergent level) →
        (evaluation limits (term.relabel code)).outcome = .error (.divergent (code level))) ∧
      (∀ failure, (∀ level, failure ≠ .divergent level) →
        (evaluation limits term).outcome = .error failure →
        (evaluation limits (term.relabel code)).outcome = .error failure) := by
  have lock := lockStep_recoded recoding limits.maxSize
  have same : Recoded code term (term.relabel code) := rfl
  have mirrored : ∀ evaluation ∈ [Run.simplify, Run.normalize, Run.evaluate],
      Run.Mirrored (.recoded code) (Recoded code) (evaluation limits term)
        (evaluation limits (term.relabel code)) :=
    forall_evaluations (lock.simplify same) (lock.normalize same) (lock.evaluate same)
  intro evaluation member
  have both := mirrored evaluation member
  have events := both.events fun _ _ => id
  refine ⟨(events.map_eq (Event.Related.shown_eq recoding)).symm, ?_, ?_, ?_⟩
  · intro result ran
    exact both.result_recoded ran
  · intro level failed
    exact both.failure_recoded failed
  · intro failure different failed
    rw [both.failure_recoded failed, Failure.relabel_of_ne_divergent different]

/-- The codes `-1` and `-2` of a function and its argument change places. -/
theorem swapped_codes_recoded :
    (Run.normalize .standard
        (Term.app (lambda 1 (applyAll 1 [0, .var (-2)])) (.var (-1)))).outcome =
        .ok (applyAll 0 [.var (-1), .var (-2)]) ∧
      (Run.normalize .standard
        (Term.app (lambda 1 (applyAll 1 [0, .var (-1)])) (.var (-2)))).outcome =
        .ok (applyAll 0 [.var (-2), .var (-1)]) := by
  have recoding : Level.Recoding (Equiv.swap (-1) (-2)) := by
    constructor
    · intro level sentinel
      rw [Equiv.swap_apply_def]
      split
      · decide
      · split
        · decide
        · exact sentinel
    · intro level other _ _ same
      exact (Equiv.swap (-1) (-2)).injective same
  have ran : (Run.normalize .standard
      (Term.app (lambda 1 (applyAll 1 [0, .var (-2)])) (.var (-1)))).outcome =
        .ok (applyAll 0 [.var (-1), .var (-2)]) :=
    normalize_of_single_step (by decide) (by decide) rfl (by decide) rfl rfl
  have swapped := (evaluation_of_recoded recoding .standard
    (Term.app (lambda 1 (applyAll 1 [0, .var (-2)])) (.var (-1))) Run.normalize (by simp)).2.1 _ ran
  exact ⟨ran, swapped⟩

end NamelessLambda
