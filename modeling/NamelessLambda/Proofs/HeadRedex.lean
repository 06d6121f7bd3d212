import Mathlib.Logic.ExistsUnique
import NamelessLambda.Proofs.FailureCauses
import NamelessLambda.Term.Samples

/-!
Contract: a head step contracts the redex at the head and looks at nothing else.

There is one way to take a term apart into a head that is no application and the
list of its arguments. The head alone decides whether a step fails on a sentinel,
stops or contracts a redex. Only the first argument can take part in a
contraction, and the others are carried along as they are.

Owns:
- `head` and `arguments`, which take a term apart, and that no other way exists;
- the outcome of a step for every head and every list of arguments.

Does not own:
- on which first arguments the substitution fails.
-/

namespace NamelessLambda

namespace Term

/-! ## Taking a term apart -/

/-- The term without the arguments that it is applied to. -/
def head : Term → Term
  | .app function _ => function.head
  | term => term

/-- Arguments that the head is applied to, from the first one on. -/
def arguments : Term → List Term
  | .app function argument => function.arguments ++ [argument]
  | _ => []

private theorem isApp_head (term : Term) : term.head.isApp = false := by
  induction term with
  | var level => rfl
  | lam body _ => rfl
  | app function argument inductionHypothesis _ => exact inductionHypothesis

private theorem head_applyAll_arguments (term : Term) :
    term.head.applyAll term.arguments = term := by
  induction term with
  | var level => rfl
  | lam body _ => rfl
  | app function argument inductionHypothesis _ =>
      show function.head.applyAll (function.arguments ++ [argument]) = .app function argument
      rw [applyAll_append, inductionHypothesis]
      rfl

private theorem head_of_not_isApp {term : Term} (atom : term.isApp = false) : term.head = term := by
  cases term with
  | var level => rfl
  | lam body => rfl
  | app function argument => cases atom

private theorem arguments_of_not_isApp {term : Term} (atom : term.isApp = false) :
    term.arguments = [] := by
  cases term with
  | var level => rfl
  | lam body => rfl
  | app function argument => cases atom

private theorem head_applyAll (front : Term) (given : List Term) :
    (front.applyAll given).head = front.head := by
  induction given generalizing front with
  | nil => rfl
  | cons argument rest inductionHypothesis => exact inductionHypothesis (.app front argument)

private theorem arguments_applyAll (front : Term) (given : List Term) :
    (front.applyAll given).arguments = front.arguments ++ given := by
  induction given generalizing front with
  | nil => exact (List.append_nil _).symm
  | cons argument rest inductionHypothesis =>
      rw [applyAll_cons, inductionHypothesis, arguments, List.append_assoc]
      rfl

section Spine

variable {front other : Term} {given others : List Term}

/-- Spines with the same term have the same head and the same arguments. -/
theorem applyAll_injective (atom : front.isApp = false) (atomOther : other.isApp = false)
    (same : front.applyAll given = other.applyAll others) : front = other ∧ given = others := by
  have heads := congrArg head same
  have lists := congrArg arguments same
  rw [head_applyAll, head_applyAll, head_of_not_isApp atom, head_of_not_isApp atomOther] at heads
  rw [arguments_applyAll, arguments_applyAll, arguments_of_not_isApp atom,
    arguments_of_not_isApp atomOther] at lists
  exact ⟨heads, lists⟩

theorem existsUnique_spine (term : Term) :
    ∃! spine : Term × List Term, spine.1.isApp = false ∧ spine.1.applyAll spine.2 = term := by
  refine ⟨(term.head, term.arguments), ⟨term.isApp_head, term.head_applyAll_arguments⟩, ?_⟩
  intro spine taken
  have same : spine.1.applyAll spine.2 = term.head.applyAll term.arguments :=
    taken.2.trans term.head_applyAll_arguments.symm
  obtain ⟨heads, lists⟩ := applyAll_injective taken.1 term.isApp_head same
  exact Prod.ext heads lists

/-! ## The outcome of a step -/

/-- A step reports a code only if that sentinel is the head; no substitution reports one. -/
theorem headStep_applyAll_eq_divergent_iff (atom : front.isApp = false) (given : List Term)
    (code : Level) :
    (front.applyAll given).headStep = .error (.divergent code) ↔
      code.isSentinel = true ∧ front = .var code := by
  constructor
  · intro failed
    rcases cause_of_headStep failed with ⟨level, others, sentinel, same, reported⟩ | binding
    · rw [Failure.divergent.inj reported]
      exact ⟨sentinel, (applyAll_injective atom rfl same).1⟩
    · exact absurd rfl (binding.ne_divergent code)
  · intro ⟨sentinel, isCode⟩
    rw [isCode, headStep_applyAll_var, if_pos sentinel]

theorem headStep_applyAll_eq_none_iff (atom : front.isApp = false) (given : List Term) :
    (front.applyAll given).headStep = .ok none ↔
      (∃ level, level.isSentinel = false ∧ front = .var level) ∨
        (front.isLam = true ∧ given = []) := by
  rw [headStep_eq_none_iff]
  constructor
  · intro normal
    rcases normal with ⟨body, same⟩ | ⟨level, others, plain, same⟩
    · have unapplied : front.applyAll given = (Term.lam body).applyAll [] := same
      obtain ⟨isLam, noArgument⟩ := applyAll_injective atom rfl unapplied
      rw [isLam]
      exact .inr ⟨rfl, noArgument⟩
    · exact .inl ⟨level, plain, (applyAll_injective atom rfl same).1⟩
  · intro shape
    rcases shape with ⟨level, plain, isVar⟩ | ⟨isLam, noArgument⟩
    · exact .inr ⟨level, given, plain, by rw [isVar]⟩
    · cases front with
      | var level => cases isLam
      | lam body => exact .inl ⟨body, by rw [noArgument]; rfl⟩
      | app function argument => cases isLam

end Spine

end Term

open Term

/-- Every term is in one way a head that is no application, applied to a list of arguments. A step
reports a code exactly for a sentinel at the head, and it finds nothing to do exactly for any other
variable there or for a binder without an argument. A binder with arguments takes the first of them
for its variable, unless this substitution fails, and the further arguments stay: they could be any
others, and the step would be the same. -/
theorem head_redex_contracted :
    (∀ term : Term, ∃! spine : Term × List Term,
      spine.1.isApp = false ∧ spine.1.applyAll spine.2 = term) ∧
    ∀ head : Term, head.isApp = false →
      (∀ arguments code, (head.applyAll arguments).headStep = .error (.divergent code) ↔
        code.isSentinel = true ∧ head = .var code) ∧
      (∀ arguments, (head.applyAll arguments).headStep = .ok none ↔
        (∃ level, level.isSentinel = false ∧ head = .var level) ∨
          (head.isLam = true ∧ arguments = [])) ∧
      (∀ body argument rest, head = .lam body →
        (head.applyAll (argument :: rest)).headStep =
          (fun result => some (result.term.applyAll rest)) <$> body.substitute argument 0 ∧
        ∀ failure, body.substitute argument 0 = .error failure →
          failure.OfBinding (head.applyAll (argument :: rest)).binderDepth) ∧
      ∀ argument rest, (head.applyAll (argument :: rest)).headStep =
        (fun next => next.map (·.applyAll rest)) <$> (Term.app head argument).headStep := by
  refine ⟨existsUnique_spine, fun head atom => ⟨?_, ?_, ?_, ?_⟩⟩
  · exact headStep_applyAll_eq_divergent_iff atom
  · exact headStep_applyAll_eq_none_iff atom
  · intro body argument rest isLam
    rw [isLam]
    exact ⟨headStep_applyAll_lam body argument rest,
      fun _ failed => ofBinding_of_headRedex failed rest⟩
  · intro argument rest
    rw [applyAll_cons]
    exact headStep_applyAll rfl rest

/-- The further arguments are a divergent term and a sentinel, and both stay. A sentinel that is the
head is reported although its argument is a redex. The variable under the inner binder cannot be
replaced by the greatest level, which would have to be raised past that binder. -/
theorem first_argument_contracted :
    ((Term.lam (applyAll 0 [1])).applyAll [2, Sample.omega, .var (-1)]).headStep =
      .ok (some (applyAll 2 [0, Sample.omega, .var (-1)])) ∧
    ((Term.var (-2)).applyAll [Sample.omega]).headStep = .error (.divergent (-2)) ∧
    ((Term.lam Sample.omega).applyAll []).headStep = .ok none ∧
    ((lambda 2 1).applyAll [.var .last, .var (-1)]).headStep = .error (.unshiftable .last) := by
  obtain ⟨_, outcomes⟩ := head_redex_contracted
  have ran : (applyAll 0 [1]).substitute 2 0 = .ok ⟨applyAll 2 [0], 0⟩ := rfl
  have failed : (lambda 1 1).substitute (.var .last) 0 = .error (.unshiftable .last) := rfl
  have divergent := (outcomes (.var (-2)) rfl).1 [Sample.omega] (-2)
  have settled := (outcomes (.lam Sample.omega) rfl).2.1 []
  have contracting := (outcomes (.lam (applyAll 0 [1])) rfl).2.2.1 (applyAll 0 [1]) 2
    [Sample.omega, .var (-1)] rfl
  have blocked := (outcomes (lambda 2 1) rfl).2.2.1 (lambda 1 1) (.var .last) [.var (-1)] rfl
  rw [ran] at contracting
  rw [failed] at blocked
  exact ⟨contracting.1, divergent.mpr ⟨rfl, rfl⟩, settled.mpr (.inr ⟨rfl, rfl⟩), blocked.1⟩

end NamelessLambda
