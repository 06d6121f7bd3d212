import NamelessLambda.Reduction.HeadStep
import NamelessLambda.Term.Spine

/-!
Contract: what a head step does to each shape of term.

Every term is a head that is no application, applied to some arguments. The
three shapes of the head decide the outcome of a step, and the arguments after
the first one take no part in it.

Owns:
- the three shapes of a spine;
- `WeakHeadNormal`, the shapes without a step;
- when a step is made, when none is available and when it fails.
-/

namespace NamelessLambda.Term

/-! ## Spines -/

theorem spine_cases (term : Term) :
    (∃ level arguments, term = (Term.var level).applyAll arguments) ∨
      (∃ body, term = .lam body) ∨
      (∃ body argument rest, term = (Term.lam body).applyAll (argument :: rest)) := by
  induction term with
  | var level => exact .inl ⟨level, [], rfl⟩
  | lam body _ => exact .inr (.inl ⟨body, rfl⟩)
  | app function last functionHypothesis _ =>
      rcases functionHypothesis with
        ⟨level, arguments, rfl⟩ | ⟨body, rfl⟩ | ⟨body, argument, rest, rfl⟩
      · refine .inl ⟨level, arguments ++ [last], ?_⟩
        rw [applyAll_append]
        rfl
      · exact .inr (.inr ⟨body, last, [], rfl⟩)
      · refine .inr (.inr ⟨body, argument, rest ++ [last], ?_⟩)
        rw [← List.cons_append, applyAll_append]
        rfl

/-- Binder, or variable other than a sentinel applied to any number of arguments. -/
def WeakHeadNormal (term : Term) : Prop :=
  (∃ body, term = .lam body) ∨
    ∃ level arguments, level.isSentinel = false ∧ term = (Term.var level).applyAll arguments

/-! ## Outcome of a step -/

theorem headStep_app_of_not_isLam {function : Term} (notLam : function.isLam = false)
    (argument : Term) :
    (Term.app function argument).headStep =
      (fun next => next.map (.app · argument)) <$> function.headStep := by
  cases function with
  | var level => rfl
  | lam body => cases notLam
  | app inner last => rfl

/-- A head that is no binder makes the same step under any arguments. -/
theorem headStep_applyAll {head : Term} (notLam : head.isLam = false) (arguments : List Term) :
    (head.applyAll arguments).headStep =
      (fun next => next.map (·.applyAll arguments)) <$> head.headStep := by
  induction arguments generalizing head with
  | nil =>
      show head.headStep = (fun next => next.map fun term => term) <$> head.headStep
      simp
  | cons argument rest inductionHypothesis =>
      rw [applyAll_cons, inductionHypothesis rfl, headStep_app_of_not_isLam notLam]
      cases head.headStep with
      | error failure => rfl
      | ok next => cases next <;> rfl

theorem headStep_applyAll_var (level : Level) (arguments : List Term) :
    ((Term.var level).applyAll arguments).headStep =
      if level.isSentinel then .error (.divergent level) else .ok none := by
  rw [headStep_applyAll rfl, headStep]
  split <;> rfl

theorem headStep_applyAll_lam (body argument : Term) (rest : List Term) :
    ((Term.lam body).applyAll (argument :: rest)).headStep =
      (fun result => some (result.term.applyAll rest)) <$> body.substitute argument 0 := by
  rw [applyAll_cons, headStep_applyAll rfl, headStep]
  cases body.substitute argument 0 <;> rfl

theorem headStep_eq_none_iff {term : Term} :
    term.headStep = .ok none ↔ term.WeakHeadNormal := by
  constructor
  · intro settled
    rcases spine_cases term with
      ⟨level, arguments, rfl⟩ | ⟨body, rfl⟩ | ⟨body, argument, rest, rfl⟩
    · rw [headStep_applyAll_var] at settled
      cases sentinel : level.isSentinel with
      | true => rw [sentinel] at settled; cases settled
      | false => exact .inr ⟨level, arguments, sentinel, rfl⟩
    · exact .inl ⟨body, rfl⟩
    · rw [headStep_applyAll_lam, Failure.map_eq_ok_iff] at settled
      obtain ⟨result, _, impossible⟩ := settled
      cases impossible
  · rintro (⟨body, rfl⟩ | ⟨level, arguments, plain, rfl⟩)
    · rfl
    · rw [headStep_applyAll_var, plain]
      rfl

/-- A step contracts the first argument into the body at the head and keeps the others. -/
theorem headStep_eq_some_iff {term next : Term} :
    term.headStep = .ok (some next) ↔
      ∃ body argument rest result, term = (Term.lam body).applyAll (argument :: rest) ∧
        body.substitute argument 0 = .ok result ∧ next = result.term.applyAll rest := by
  constructor
  · intro stepped
    rcases spine_cases term with
      ⟨level, arguments, rfl⟩ | ⟨body, rfl⟩ | ⟨body, argument, rest, rfl⟩
    · rw [headStep_applyAll_var] at stepped
      split at stepped <;> cases stepped
    · cases stepped
    · rw [headStep_applyAll_lam, Failure.map_eq_ok_iff] at stepped
      obtain ⟨result, ran, same⟩ := stepped
      exact ⟨body, argument, rest, result, rfl, ran, Option.some.inj same⟩
  · rintro ⟨body, argument, rest, result, rfl, ran, rfl⟩
    rw [headStep_applyAll_lam, ran]
    rfl

/-- A step fails on a sentinel at the head, or where its substitution fails. -/
theorem headStep_eq_error_iff {term : Term} {failure : Failure} :
    term.headStep = .error failure ↔
      (∃ code arguments, code.isSentinel = true ∧ term = (Term.var code).applyAll arguments ∧
        failure = .divergent code) ∨
      ∃ body argument rest, term = (Term.lam body).applyAll (argument :: rest) ∧
        body.substitute argument 0 = .error failure := by
  constructor
  · intro failed
    rcases spine_cases term with
      ⟨level, arguments, rfl⟩ | ⟨body, rfl⟩ | ⟨body, argument, rest, rfl⟩
    · rw [headStep_applyAll_var] at failed
      cases sentinel : level.isSentinel with
      | true =>
          rw [sentinel] at failed
          exact .inl ⟨level, arguments, sentinel, rfl, (Except.error.inj failed).symm⟩
      | false => rw [sentinel] at failed; cases failed
    · cases failed
    · rw [headStep_applyAll_lam] at failed
      cases ran : body.substitute argument 0 with
      | error cause =>
          rw [ran] at failed
          exact .inr ⟨body, argument, rest, rfl, by rw [ran, ← Except.error.inj failed]⟩
      | ok result => rw [ran] at failed; cases failed
  · rintro (⟨code, arguments, sentinel, rfl, rfl⟩ | ⟨body, argument, rest, rfl, ran⟩)
    · rw [headStep_applyAll_var, if_pos sentinel]
    · rw [headStep_applyAll_lam, ran]
      rfl

end NamelessLambda.Term
