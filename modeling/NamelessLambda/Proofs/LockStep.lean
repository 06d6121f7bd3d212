import Mathlib.Data.List.Forall2
import NamelessLambda.Proofs.Stepping

/-!
Contract: evaluations of related terms run in lock step.

If a relation between terms is kept by head steps and by cleaning passes, and it
relates equal terms to equal terms only, then all checks of an evaluation come
out alike on both sides. The second computation may meet failures that excuse
whatever the first one does.

Owns:
- `Failure.Mirrored`, outcomes in lock step, and how they compose;
- `LockStep`, what a relation has to keep;
- `Run.Mirrored`, and the evaluations that arise from it.

Does not own:
- any particular relation.
-/

namespace NamelessLambda

open Term

/-- How failures of two computations in lock step compare. -/
structure Failure.Comparison where
  agree : Failure → Failure → Prop
  /-- After such a failure of the second computation nothing is said about the first. -/
  excused : Failure → Prop

/-- Outcomes of two computations in lock step. -/
inductive Failure.Mirrored (compared : Failure.Comparison) {α β : Type} (related : α → β → Prop) :
    Except Failure α → Except Failure β → Prop where
  | ok {value : α} {other : β} (relates : related value other) :
      Mirrored compared related (.ok value) (.ok other)
  | error {failure other : Failure} (agrees : compared.agree failure other) :
      Mirrored compared related (.error failure) (.error other)
  | excused {outcome : Except Failure α} {other : Failure} (excuse : compared.excused other) :
      Mirrored compared related outcome (.error other)

namespace Failure.Mirrored

variable {compared : Failure.Comparison} {α β α' β' : Type} {related : α → β → Prop}
  {related' : α' → β' → Prop} {outcome : Except Failure α} {other : Except Failure β}

theorem bind {next : α → Except Failure α'} {next' : β → Except Failure β'}
    (first : Mirrored compared related outcome other)
    (second : ∀ value value', outcome = .ok value → related value value' →
      Mirrored compared related' (next value) (next' value')) :
    Mirrored compared related' (outcome >>= next) (other >>= next') := by
  cases first with
  | ok relates => exact second _ _ rfl relates
  | error agrees => exact .error agrees
  | excused excuse => exact .excused excuse

theorem map {change : α → α'} {change' : β → β'} (first : Mirrored compared related outcome other)
    (second : ∀ value value', related value value' → related' (change value) (change' value')) :
    Mirrored compared related' (change <$> outcome) (change' <$> other) := by
  cases first with
  | ok relates => exact .ok (second _ _ relates)
  | error agrees => exact .error agrees
  | excused excuse => exact .excused excuse

theorem exists_ok {value' : β} (mirrored : Mirrored compared related outcome (.ok value')) :
    ∃ value, outcome = .ok value ∧ related value value' := by
  cases mirrored with
  | ok relates => exact ⟨_, rfl, relates⟩

theorem excused_or_exists_error {failure' : Failure}
    (mirrored : Mirrored compared related outcome (.error failure')) :
    compared.excused failure' ∨
      ∃ failure, outcome = .error failure ∧ compared.agree failure failure' := by
  cases mirrored with
  | error agrees => exact .inr ⟨_, rfl, agrees⟩
  | excused excuse => exact .inl excuse

end Failure.Mirrored

/-- What a relation keeps between terms, the first of which has fewer nodes than `bound`. -/
structure LockStep (compared : Failure.Comparison) (bound : Nat) (related : Term → Term → Prop) :
    Prop where
  guards : ∀ failure : Failure, failure.isGuard = true → compared.agree failure failure
  nodeCount_eq : ∀ {term other}, related term other → term.nodeCount = other.nodeCount
  isLam_eq : ∀ {term other}, related term other → term.isLam = other.isLam
  /-- Repetitions are found on both sides or on neither. -/
  eq_iff : ∀ {term other term' other'}, related term other → related term' other' →
    (term = term' ↔ other = other')
  headStep : ∀ {term other}, related term other → term.nodeCount < bound →
    Failure.Mirrored compared (Option.Rel related) term.headStep other.headStep
  clean : ∀ {term other}, related term other → term.nodeCount < bound →
    Failure.Mirrored compared (Option.Rel related) term.clean other.clean

/-- Related results of cleaning, after the same number of passes. -/
structure Cleaned.Related (related : Term → Term → Prop) (cleaned other : Cleaned) : Prop where
  term : related cleaned.term other.term
  passes : cleaned.passes = other.passes

/-- Reports of the same kind, with the same measurements and related terms. -/
inductive Event.Related (related : Term → Term → Prop) : Event → Event → Prop where
  | normalizing {term other : Term} (relates : related term other) (size : Nat) :
      Related related (.normalizing term size) (.normalizing other size)
  | stepped {term other : Term} (relates : related term other) (step size : Nat) :
      Related related (.stepped term step size) (.stepped other step size)
  | settled (steps : Nat) : Related related (.settled steps) (.settled steps)
  | simplified {term other : Term} (relates : related term other) (passes size : Nat) :
      Related related (.simplified term passes size) (.simplified other passes size)

/-- Reports in lock step. -/
abbrev Event.AllRelated (related : Term → Term → Prop) (events other : Array Event) : Prop :=
  List.Forall₂ (Event.Related related) events.toList other.toList

/-- Runs in lock step: outcomes that mirror each other, after the same reports unless excused. -/
structure Run.Mirrored (compared : Failure.Comparison) (related : Term → Term → Prop)
    (run other : Run) : Prop where
  outcome : Failure.Mirrored compared related run.outcome other.outcome
  events : (∀ failure, other.outcome = .error failure → ¬ compared.excused failure) →
    Event.AllRelated related run.events other.events

section Reports

variable {related : Term → Term → Prop} {events other : Array Event} {event event' : Event}

private theorem Event.AllRelated.push (all : Event.AllRelated related events other)
    (relates : Event.Related related event event') :
    Event.AllRelated related (events.push event) (other.push event') := by
  rw [Event.AllRelated, Array.toList_push, Array.toList_push]
  exact List.rel_append all (.cons relates .nil)

private theorem Event.Related.measurements_eq (relates : Event.Related related event event') :
    event.measurements = event'.measurements := by
  cases relates <;> rfl

private theorem Event.Related.severity_eq (relates : Event.Related related event event') :
    event.severity = event'.severity := by
  cases relates <;> rfl

/-- Whatever related reports have in common, logs in lock step have in common. -/
theorem Event.AllRelated.map_eq {γ : Type} {reading : Event → γ}
    (all : Event.AllRelated related events other)
    (same : ∀ {event event'}, Event.Related related event event' → reading event = reading event') :
    events.toList.map reading = other.toList.map reading := by
  rw [← List.forall₂_eq_eq_eq, List.forall₂_map_left_iff, List.forall₂_map_right_iff]
  exact all.imp fun _ _ relates => same relates

theorem Event.AllRelated.measurements_eq (all : Event.AllRelated related events other) :
    events.toList.map Event.measurements = other.toList.map Event.measurements :=
  all.map_eq Event.Related.measurements_eq

theorem Event.AllRelated.stepCount_eq (all : Event.AllRelated related events other) :
    Event.stepCount events = Event.stepCount other := by
  have severities := congrArg (List.countP (· = Severity.trace))
    (all.map_eq Event.Related.severity_eq)
  rw [List.countP_map, List.countP_map] at severities
  rw [Event.stepCount, Event.stepCount, ← Array.countP_toList, ← Array.countP_toList]
  exact severities

end Reports

private theorem Run.mirrored_of_excused {compared : Failure.Comparison}
    {related : Term → Term → Prop}
    {run other : Run} {failure : Failure} (failed : other.outcome = .error failure)
    (excuse : compared.excused failure) : Run.Mirrored compared related run other where
  outcome := by
    rw [failed]
    exact .excused excuse
  events unexcused := absurd excuse (unexcused failure failed)

/-! ## Loops -/

namespace LockStep

variable {compared : Failure.Comparison} {limits : Limits} {related : Term → Term → Prop}
  {term other next' : Term} {failure' : Failure} {events events' : Array Event}
  {visited visited' : Std.HashSet Term} {bound : Nat}

private theorem size_eq (lock : LockStep compared bound related) (relates : related term other) :
    term.size = other.size := by
  rw [size_eq_nodeCount, size_eq_nodeCount, lock.nodeCount_eq relates]

private theorem cleanAllFrom (lock : LockStep compared bound related) (relates : related term other)
    (small : term.nodeCount < bound) (passes : Nat) :
    Failure.Mirrored compared (Cleaned.Related related)
      (term.cleanAllFrom passes) (other.cleanAllFrom passes) := by
  have mirrored := lock.clean relates small
  fun_induction Term.cleanAllFrom passes other generalizing term with
  | case1 passes other failure' failed =>
      rw [failed] at mirrored
      rcases mirrored.excused_or_exists_error with excuse | ⟨failure, ran, agrees⟩
      · exact .excused excuse
      · rw [cleanAllFrom_of_clean_error ran]
        exact .error agrees
  | case2 passes other settled =>
      rw [settled] at mirrored
      obtain ⟨_, ran, ⟨⟩⟩ := mirrored.exists_ok
      rw [cleanAllFrom_of_clean_none ran]
      exact .ok ⟨relates, rfl⟩
  | case3 passes other cleaned' moved inductionHypothesis =>
      rw [moved] at mirrored
      obtain ⟨_, ran, ⟨relatesNext⟩⟩ := mirrored.exists_ok
      have smaller := nodeCount_of_clean ran
      have smallNext := Nat.lt_of_le_of_lt (Nat.le_of_add_right_le smaller) small
      rw [cleanAllFrom_of_clean_some ran]
      exact inductionHypothesis relatesNext smallNext (lock.clean relatesNext smallNext)

private theorem simplifyFrom (lock : LockStep compared limits.maxSize related)
    (relates : related term other) (reported : Event.AllRelated related events events') :
    Run.Mirrored compared related
      (Run.simplifyFrom limits events term) (Run.simplifyFrom limits events' other) := by
  unfold Run.simplifyFrom
  rw [lock.size_eq relates]
  split
  · exact ⟨.error (lock.guards _ rfl), fun _ => reported⟩
  · rename_i small
    rw [← lock.size_eq relates, size_eq_nodeCount, Nat.not_le] at small
    have mirrored : Failure.Mirrored compared _ term.cleanAll other.cleanAll :=
      lock.cleanAllFrom relates small 0
    cases ran : other.cleanAll with
    | ok cleaned' =>
        rw [ran] at mirrored
        obtain ⟨cleaned, ranFirst, both⟩ := mirrored.exists_ok
        rw [ranFirst]
        refine ⟨.ok both.term, fun _ => reported.push ?_⟩
        rw [both.passes, lock.size_eq both.term]
        exact .simplified both.term _ _
    | error failure' =>
        rw [ran] at mirrored
        rcases mirrored.excused_or_exists_error with excuse | ⟨failure, ranFirst, agrees⟩
        · exact Run.mirrored_of_excused rfl excuse
        · rw [ranFirst]
          exact ⟨.error agrees, fun _ => reported⟩

/-- Related terms have been visited on both sides or on neither. -/
def Visited (related : Term → Term → Prop) (visited visited' : Std.HashSet Term) : Prop :=
  ∀ {term other}, related term other → (term ∈ visited ↔ other ∈ visited')

private theorem visited_insert (lock : LockStep compared bound related)
    (relates : related term other) (same : Visited related visited visited') :
    Visited related (visited.insert term) (visited'.insert other) := by
  intro later later' relatesLater
  rw [Std.HashSet.mem_insert, Std.HashSet.mem_insert, beq_iff_eq, beq_iff_eq,
    lock.eq_iff relates relatesLater, same relatesLater]

private theorem visited_empty (related : Term → Term → Prop) :
    Visited related Std.HashSet.emptyWithCapacity Std.HashSet.emptyWithCapacity := by
  intro term other _
  simp

private theorem exists_next (lock : LockStep compared bound related) (relates : related term other)
    (small : term.nodeCount < bound) (moved : other.headStep = .ok (some next')) :
    ∃ next, term.headStep = .ok (some next) ∧ related next next' := by
  have mirrored := lock.headStep relates small
  rw [moved] at mirrored
  obtain ⟨_, ran, ⟨relatesNext⟩⟩ := mirrored.exists_ok
  exact ⟨_, ran, relatesNext⟩

private theorem settled (lock : LockStep compared bound related) (relates : related term other)
    (small : term.nodeCount < bound) (settles : other.headStep = .ok none) :
    term.headStep = .ok none := by
  have mirrored := lock.headStep relates small
  rw [settles] at mirrored
  obtain ⟨_, ran, ⟨⟩⟩ := mirrored.exists_ok
  exact ran

/-- Both loops leave in the same round and by the same exit, unless the second one is excused. -/
private theorem normalizeFrom (lock : LockStep compared limits.maxSize related)
    (relates : related term other) (small : term.nodeCount < limits.maxSize)
    (counted : visited.size = visited'.size) (same : Visited related visited visited')
    (reported : Event.AllRelated related events events') :
    Run.Mirrored compared related (Run.normalizeFrom limits visited events term)
      (Run.normalizeFrom limits visited' events' other) := by
  fun_induction Run.normalizeFrom limits visited' events' other
    generalizing visited events term with
  | case1 visited' events' other full =>
      rw [← counted] at full ⊢
      rw [Run.normalizeFrom, if_pos full]
      exact ⟨.error (lock.guards _ rfl), fun _ => reported⟩
  | case2 visited' events' other room failure' fails =>
      have mirrored := lock.headStep relates small
      rw [fails] at mirrored
      rcases mirrored.excused_or_exists_error with excuse | ⟨failure, ran, agrees⟩
      · exact Run.mirrored_of_excused rfl excuse
      · rw [← counted] at room
        rw [Run.normalizeFrom, if_neg room, ran]
        exact ⟨.error agrees, fun _ => reported⟩
  | case3 visited' events' other room settles =>
      rw [← counted] at room ⊢
      rw [Run.normalizeFrom, if_neg room, lock.settled relates small settles]
      exact lock.simplifyFrom relates (reported.push (.settled _))
  | case4 visited' events' other room next' moved size' =>
      rename_i large
      obtain ⟨next, ran, relatesNext⟩ := lock.exists_next relates small moved
      have size : next.size = size' := lock.size_eq relatesNext
      rw [← counted] at room
      rw [Run.normalizeFrom, if_neg room, ran]
      simp only [size, if_pos large, counted]
      exact ⟨.error (lock.guards _ rfl), fun _ => reported.push (.stepped relatesNext _ _)⟩
  | case5 visited' events' other room next' moved size' =>
      rename_i limited met
      obtain ⟨next, ran, relatesNext⟩ := lock.exists_next relates small moved
      have size : next.size = size' := lock.size_eq relatesNext
      rw [← counted] at room
      rw [← same relatesNext] at met
      rw [Run.normalizeFrom, if_neg room, ran]
      simp only [size, if_neg limited, if_pos met, counted]
      exact ⟨.error (lock.guards _ rfl), fun _ => reported.push (.stepped relatesNext _ _)⟩
  | case6 visited' events' other room next' moved size' =>
      rename_i limited new inductionHypothesis
      obtain ⟨next, ran, relatesNext⟩ := lock.exists_next relates small moved
      have size : next.size = size' := lock.size_eq relatesNext
      have newFirst : next ∉ visited := fun met => new ((same relatesNext).mp met)
      have smallNext : next.nodeCount < limits.maxSize := by
        rw [← size_eq_nodeCount, size]
        exact Nat.not_le.mp limited
      rw [← counted] at room
      rw [Run.normalizeFrom, if_neg room, ran]
      simp only [size, if_neg limited, if_neg newFirst, counted]
      apply inductionHypothesis relatesNext smallNext
      · rw [Std.HashSet.size_insert, Std.HashSet.size_insert, if_neg newFirst, if_neg new, counted]
      · exact lock.visited_insert relatesNext same
      · exact reported.push (.stepped relatesNext _ _)

theorem simplify (lock : LockStep compared limits.maxSize related) (relates : related term other) :
    Run.Mirrored compared related (Run.simplify limits term) (Run.simplify limits other) :=
  lock.simplifyFrom relates .nil

theorem normalize (lock : LockStep compared limits.maxSize related)
    (relates : related term other) :
    Run.Mirrored compared related (Run.normalize limits term) (Run.normalize limits other) := by
  unfold Run.normalize
  rw [lock.size_eq relates]
  by_cases large : limits.maxSize ≤ other.size
  · rw [if_pos large, if_pos large]
    exact ⟨.error (lock.guards _ rfl), fun _ => .nil⟩
  · rw [if_neg large, if_neg large]
    rw [← lock.size_eq relates, size_eq_nodeCount, Nat.not_le] at large
    apply lock.normalizeFrom relates large
    · simp [Std.HashSet.size_insert]
    · exact lock.visited_insert relates (visited_empty related)
    · exact .cons (.normalizing relates _) .nil

theorem evaluate (lock : LockStep compared limits.maxSize related) (relates : related term other) :
    Run.Mirrored compared related (Run.evaluate limits term) (Run.evaluate limits other) := by
  unfold Run.evaluate
  rw [lock.isLam_eq relates]
  split
  · exact lock.simplify relates
  · exact lock.normalize relates

end LockStep

end NamelessLambda
