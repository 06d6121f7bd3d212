import NamelessLambda.Proofs.CleaningPass
import NamelessLambda.Proofs.Stepping

/-!
Contract: simplification ends soon, and where no redex could be contracted for free.

Each pass that changes something takes three nodes away, which bounds the number
of passes and the size of every term on the way by the size of the first one. A
pass that changes nothing has looked at every redex, so each redex left copies
an argument that is no variable at least twice.

Owns:
- `Term.Duplicating`, the shape of a term that no pass changes;
- `CleaningRun`, the passes of a simplification with their bounds;
- `Run.ofCleaning`, what a simplification makes of a cleaning, and the outcomes of `simplify`.

Does not own:
- which terms a simplification leads to.
-/

namespace NamelessLambda

/-! ## What a pass leaves -/

namespace Term

/-- The term itself and every term inside it. -/
def subterms : Term → List Term
  | .var level => [.var level]
  | .lam body => .lam body :: body.subterms
  | .app function argument =>
      .app function argument :: (function.subterms ++ argument.subterms)

/-- Every redex binds a variable that occurs at least twice, for an argument that is no variable. -/
def Duplicating (term : Term) : Prop :=
  ∀ body argument, Term.app (.lam body) argument ∈ term.subterms →
    argument.isVar = false ∧ 2 ≤ body.occurrences 0

private theorem duplicating_var (level : Level) : (Term.var level).Duplicating := by
  intro body argument member
  cases List.mem_singleton.mp member

private theorem Duplicating.lam {body : Term} (inBody : body.Duplicating) :
    (Term.lam body).Duplicating := by
  intro inner argument member
  rcases List.mem_cons.mp member with same | within
  · cases same
  · exact inBody inner argument within

private theorem Duplicating.app {function argument : Term} (inFunction : function.Duplicating)
    (inArgument : argument.Duplicating)
    (atRoot : ∀ body, function = .lam body → argument.isVar = false ∧ 2 ≤ body.occurrences 0) :
    (Term.app function argument).Duplicating := by
  intro body last member
  rcases List.mem_cons.mp member with same | within
  · cases same
    exact atRoot body rfl
  · rcases List.mem_append.mp within with within | within
    · exact inFunction body last within
    · exact inArgument body last within

/-- A redex that is kept would make at least two copies, and copies of a variable do not count. -/
private theorem duplicates_of_kept {body argument : Term}
    (kept : contractFrugal (.lam body) argument = .ok none) :
    argument.isVar = false ∧ 2 ≤ body.occurrences 0 := by
  have atRoot : ⟨[], body, argument⟩ ∈ redexAtRoot (.lam body) argument :=
    List.mem_singleton.mpr rfl
  exact Redex.not_affine_iff.mp (contract_of_contractFrugal_none kept atRoot).1

/-- A pass that finds nothing to contract has met every redex. -/
private theorem duplicating_of_clean {term : Term} (nothingLeft : term.clean = .ok none) :
    term.Duplicating := by
  induction term with
  | var level => exact duplicating_var level
  | lam body inductionHypothesis =>
      obtain ⟨inside, ranBody, same⟩ := clean_lam_eq_ok_iff.mp nothingLeft
      rw [Option.map_eq_none_iff.mp same.symm] at ranBody
      exact (inductionHypothesis ranBody).lam
  | app function argument functionHypothesis argumentHypothesis =>
      rcases clean_app_eq_ok_iff.mp nothingLeft with
        ⟨_, _, changed⟩ | ⟨kept, function', argument', ranFunction, ranArgument, same⟩
      · cases changed
      · obtain ⟨rfl, rfl⟩ := rebuildApp_eq_none_iff.mp same.symm
        apply (functionHypothesis ranFunction).app (argumentHypothesis ranArgument)
        rintro body rfl
        exact duplicates_of_kept kept

end Term

open Term

/-! ## The passes of a simplification -/

/-- Passes from `start` to `last`, each of which takes at least three nodes away. -/
structure CleaningRun (start last : Term) (passes : Nat) : Prop where
  reached : Path.after? clean passes start = some last
  few : 3 * passes ≤ start.size - 1
  shrinking : ∀ index ≤ passes, ∃ state, Path.after? clean index start = some state ∧
    state.size + 3 * index ≤ start.size

private theorem cleaningRun_of_after? {start last : Term} {passes : Nat}
    (reached : Path.after? clean passes start = some last) : CleaningRun start last passes where
  reached := reached
  few := by
    have smaller := nodeCount_of_after?_clean reached
    have positive := last.nodeCount_pos
    rw [size_eq_nodeCount]
    omega
  shrinking := by
    intro index le
    obtain ⟨state, reachedState⟩ := Path.exists_after?_of_le le reached
    have smaller := nodeCount_of_after?_clean reachedState
    exact ⟨state, reachedState, by simpa only [size_eq_nodeCount] using smaller⟩

/-- Simplification that ends as a cleaning does. -/
def Run.ofCleaning : (outcome : Except Failure Cleaned) → Run
  | .ok cleaned =>
      ⟨#[.simplified cleaned.term cleaned.passes cleaned.term.size], .ok cleaned.term⟩
  | .error failure => ⟨#[], .error failure⟩

section Simplify

variable {limits : Limits} {term : Term}

theorem simplify_of_large (large : limits.maxSize ≤ term.size) :
    Run.simplify limits term = ⟨#[], .error (.oversized term.size limits.maxSize)⟩ := by
  unfold Run.simplify Run.simplifyFrom
  rw [if_pos large]

theorem simplify_of_small (small : term.size < limits.maxSize) :
    Run.simplify limits term = .ofCleaning term.cleanAll := by
  unfold Run.simplify Run.simplifyFrom
  rw [if_neg (Nat.not_le.mpr small)]
  cases term.cleanAll <;> rfl

theorem simplify_of_cleaned (small : term.size < limits.maxSize) {cleaned : Cleaned}
    (ran : term.cleanAll = .ok cleaned) :
    Run.simplify limits term =
      ⟨#[.simplified cleaned.term cleaned.passes cleaned.term.size], .ok cleaned.term⟩ := by
  rw [simplify_of_small small, ran]
  rfl

theorem simplify_of_uncleaned (small : term.size < limits.maxSize) {failure : Failure}
    (failed : term.cleanAll = .error failure) :
    Run.simplify limits term = ⟨#[], .error failure⟩ := by
  rw [simplify_of_small small, failed]
  rfl

theorem simplify_eq_error_iff (small : term.size < limits.maxSize) {failure : Failure} :
    limits.simplify term = .error failure ↔ term.cleanAll = .error failure := by
  rw [Limits.simplify, simplify_of_small small]
  cases term.cleanAll <;> simp [Run.ofCleaning]

/-- Simplification fails on the size of its input or on a level, and in no other way. -/
theorem cause_of_simplify {failure : Failure} (failed : limits.simplify term = .error failure) :
    failure = .oversized term.size limits.maxSize ∨ failure.OfBinding term.nodeCount := by
  rcases Nat.lt_or_ge term.size limits.maxSize with small | large
  · exact .inr (ofBinding_of_cleanAll ((simplify_eq_error_iff small).mp failed))
  · rw [Limits.simplify, simplify_of_large large] at failed
    exact .inl (Except.error.inj failed).symm

theorem not_simplify_divergent (limits : Limits) (term : Term) (code : Level) :
    limits.simplify term ≠ .error (.divergent code) := by
  intro failed
  rcases cause_of_simplify failed with impossible | binding
  · cases impossible
  · exact binding.ne_divergent code rfl

/-- The passes end, either where every redex left is duplicating or on a level. -/
theorem exists_cleaningRun (small : term.size < limits.maxSize)
    (shallow : term.size ≤ Level.last.toInt) :
    ∃ passes last, CleaningRun term last passes ∧
      ((last.clean = .ok none ∧ last.Duplicating ∧
          Run.simplify limits term = ⟨#[.simplified last passes last.size], .ok last⟩) ∨
        (last.clean = .error (.unshiftable .last) ∧
          Run.simplify limits term = ⟨#[], .error (.unshiftable .last)⟩)) := by
  obtain ⟨passes, last, reached, stopped⟩ := exists_clean_stopped term
  refine ⟨passes, last, cleaningRun_of_after? reached, ?_⟩
  rcases Path.stopped_iff.mp stopped with settled | ⟨failure, failed⟩
  · left
    have ran : term.cleanAll = .ok ⟨last, passes⟩ := cleanAll_eq_ok_iff.mpr ⟨reached, settled⟩
    exact ⟨settled, duplicating_of_clean settled, simplify_of_cleaned small ran⟩
  · right
    have failedAll : term.cleanAll = .error failure :=
      cleanAll_eq_error_iff.mpr ⟨passes, last, reached, failed⟩
    rw [size_eq_nodeCount] at shallow
    have cause := (ofBinding_of_cleanAll failedAll).eq_unshiftable shallow
    rw [cause] at failed failedAll
    exact ⟨failed, simplify_of_uncleaned small failedAll⟩

end Simplify

/-- A term of allowed size is cleaned in at most a third as many passes as it has nodes, within its
size all the way, to a term whose redexes are all duplicating, unless a level cannot be moved. A
larger term is rejected before any pass, and no other failure arises. -/
theorem simplify_outcomes (limits : Limits) (term : Term) :
    (term.size < limits.maxSize → term.size ≤ Level.last.toInt →
      ∃ passes last, CleaningRun term last passes ∧
        (∀ index ≤ passes, ∀ state, Path.after? clean index term = some state →
          state.size < limits.maxSize) ∧
        ((last.clean = .ok none ∧ last.Duplicating ∧
            Run.simplify limits term = ⟨#[.simplified last passes last.size], .ok last⟩) ∨
          (last.clean = .error (.unshiftable .last) ∧
            Run.simplify limits term = ⟨#[], .error (.unshiftable .last)⟩))) ∧
    (limits.maxSize ≤ term.size →
      Run.simplify limits term = ⟨#[], .error (.oversized term.size limits.maxSize)⟩) ∧
    (∀ code, limits.simplify term ≠ .error (.divergent code)) ∧
    (∀ visited limit, limits.simplify term ≠ .error (.exhausted visited limit)) ∧
    (∀ steps, limits.simplify term ≠ .error (.cyclic steps)) := by
  refine ⟨?_, simplify_of_large, not_simplify_divergent limits term, ?_, ?_⟩
  · intro small shallow
    obtain ⟨passes, last, run, ends⟩ := exists_cleaningRun small shallow
    refine ⟨passes, last, run, ?_, ends⟩
    intro index _ state reached
    have smaller := nodeCount_of_after?_clean reached
    rw [size_eq_nodeCount] at small ⊢
    omega
  · intro visited limit failed
    rcases cause_of_simplify failed with impossible | binding
    · cases impossible
    · cases binding.isGuard
  · intro steps failed
    rcases cause_of_simplify failed with impossible | binding
    · cases impossible
    · cases binding.isGuard

/-- The outer redex of `(♥ (♥♥1) 0 0) ♥0` becomes contractible only when two passes over its body
have discarded one of the two uses. -/
theorem discarded_use_simplified :
    Run.simplify ⟨12, 0⟩
        (Term.app (lambda 1 (applyAll Sample.constant [0, 0])) Sample.identity) =
      ⟨#[.simplified Sample.identity 3 2], .ok Sample.identity⟩ := by
  have small : (Term.app (lambda 1 (applyAll Sample.constant [0, 0])) Sample.identity).size <
      (⟨12, 0⟩ : Limits).maxSize := by
    rw [size_eq_nodeCount]
    decide
  have reached : Path.after? clean 3
      (Term.app (lambda 1 (applyAll Sample.constant [0, 0])) Sample.identity) =
        some Sample.identity := rfl
  have settled : Sample.identity.clean = .ok none := rfl
  have shallow : ((Term.app (lambda 1 (applyAll Sample.constant [0, 0]))
      Sample.identity).size : Int) ≤ Level.last.toInt := by
    rw [size_eq_nodeCount]
    decide
  obtain ⟨passes, last, run, _, ends⟩ := (simplify_outcomes ⟨12, 0⟩ _).1 small shallow
  rcases ends with ⟨settledLast, _, ran⟩ | ⟨failedLast, _⟩
  · obtain ⟨rfl, rfl⟩ := Path.stopped_unique reached run.reached
      (Path.stopped_of_settled settled) (Path.stopped_of_settled settledLast)
    rw [size_eq_nodeCount] at ran
    exact ran
  · obtain ⟨_, rfl⟩ := Path.stopped_unique reached run.reached
      (Path.stopped_of_settled settled) (Path.stopped_of_failed failedLast)
    rw [settled] at failedLast
    cases failedLast

end NamelessLambda
