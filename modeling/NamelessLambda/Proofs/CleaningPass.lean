import Mathlib.Algebra.Group.Nat.Defs
import NamelessLambda.Proofs.Redexes
import NamelessLambda.Term.Samples

/-!
Contract: what one cleaning pass does, told by redexes.

A pass looks at every visited redex, and the contraction of each one must
succeed. It keeps those that are not affine and replaces the others. No visited
affine redex lies inside another one, so none is changed before its turn.

Owns:
- `CleaningPass`, a pass without a failure, with one lemma for each way to go on;
- the redexes on which a pass fails.

Does not own:
- what later passes contract.
-/

namespace NamelessLambda

open Redex

/-- Only a contraction that succeeds tells how often it copies the argument. -/
private theorem Redex.affine_iff_copies_lt {redex : Redex} {result : Substitution}
    (ran : redex.contract = .ok result) : redex.Affine ↔ result.copies < 2 := by
  have counted : result.copies =
      if redex.argument.isVar then 0 else redex.body.occurrences 0 :=
    Term.copies_of_substitute ran
  rw [counted, Affine]
  cases redex.argument.isVar with
  | true => simp
  | false =>
      simp only [Bool.false_eq_true, false_or, if_false]
      omega

namespace Term

variable {body function argument reduced term : Term} {redex : Redex}

/-! ## The redex at the root -/

private theorem exists_affine_of_contractFrugal
    (ran : contractFrugal function argument = .ok (some reduced)) :
    ∃ body result, function = .lam body ∧ body.substitute argument 0 = .ok result ∧
      reduced = result.term ∧ (⟨[], body, argument⟩ : Redex).Affine := by
  obtain ⟨body, result, same, ranBody, few, chosen⟩ := contractFrugal_eq_some_iff.mp ran
  have contracts : (⟨[], body, argument⟩ : Redex).contract = .ok result := ranBody
  exact ⟨body, result, same, ranBody, chosen, (affine_iff_copies_lt contracts).mpr few⟩

private theorem eq_lam_of_mem_redexAtRoot (member : redex ∈ redexAtRoot function argument) :
    function = .lam redex.body ∧ redex.argument = argument := by
  have atRoot := position_of_mem_redexAtRoot member
  obtain ⟨position, inner, last⟩ := redex
  cases atRoot
  have parts := mem_redexAtRoot_iff.mp member
  exact ⟨parts.1, parts.2.symm⟩

/-- A redex at the root that is kept can be contracted, but not without more copies. -/
theorem contract_of_contractFrugal_none (ran : contractFrugal function argument = .ok none)
    (member : redex ∈ redexAtRoot function argument) :
    ¬ redex.Affine ∧ ∃ result, redex.contract = .ok result := by
  obtain ⟨rfl, same⟩ := eq_lam_of_mem_redexAtRoot member
  obtain ⟨result, ranBody, copied⟩ := contractFrugal_lam_eq_none_iff.mp ran
  have contracts : redex.contract = .ok result := by
    rw [contract, same]
    exact ranBody
  rw [affine_iff_copies_lt contracts]
  exact ⟨Nat.not_lt.mpr copied, result, contracts⟩

private theorem mem_visited_of_redexAtRoot (member : redex ∈ redexAtRoot function argument) :
    redex ∈ (Term.app function argument).visited :=
  mem_visited (List.mem_append_left _ member)
    fun _ _ _ => not_encloses_of_root (position_of_mem_redexAtRoot member)

/-! ## The term after a pass -/

/-- The term with its visited affine redexes contracted, if there are any. -/
def cleaned? (term : Term) : Option Term :=
  if term.contracted = [] then none else some term.contractVisited

private theorem cleaned?_eq_none_iff : term.cleaned? = none ↔ term.contracted = [] := by
  simp [cleaned?]

private theorem cleaned?_getD (term : Term) : term.cleaned?.getD term = term.contractVisited := by
  by_cases nothing : term.contracted = []
  · rw [cleaned?, if_pos nothing, contractVisited_of_nil nothing, Option.getD_none]
  · rw [cleaned?, if_neg nothing, Option.getD_some]

private theorem cleaned?_lam : (Term.lam body).cleaned? = body.cleaned?.map .lam := by
  rw [cleaned?, contracted_lam, contractVisited_lam, cleaned?, apply_ite (Option.map Term.lam)]
  simp only [List.map_eq_nil_iff, Option.map_none, Option.map_some]

/-- Each part of an application changes by itself if the redex at the root is kept. -/
private theorem cleaned?_app_of_kept
    (kept : ∀ redex ∈ redexAtRoot function argument, ¬ redex.Affine) :
    (Term.app function argument).cleaned? =
      rebuildApp function argument function.cleaned? argument.cleaned? := by
  have bothKept : (Term.app function argument).contracted = [] ↔
      function.cleaned? = none ∧ argument.cleaned? = none := by
    rw [contracted_app_of_kept kept, List.append_eq_nil_iff, List.map_eq_nil_iff,
      List.map_eq_nil_iff, cleaned?_eq_none_iff, cleaned?_eq_none_iff]
  by_cases nothing : (Term.app function argument).contracted = []
  · rw [cleaned?, if_pos nothing]
    exact (rebuildApp_eq_none_iff.mpr (bothKept.mp nothing)).symm
  · rw [cleaned?, if_neg nothing, contractVisited_app_of_kept kept, ← cleaned?_getD function,
      ← cleaned?_getD argument, eq_comm, rebuildApp_eq_some_iff]
    refine ⟨?_, rfl⟩
    rw [bothKept, not_and_or] at nothing
    simpa only [Option.isSome_iff_ne_none] using nothing

/-! ## A pass without a failure -/

/-- A pass from `term` that meets no redex whose contraction fails. -/
structure CleaningPass (term : Term) (outcome : Option Term) : Prop where
  outcome_eq : outcome = term.cleaned?
  contracts : ∀ redex ∈ term.visited, ∃ result, redex.contract = .ok result
  placed : ∀ redex ∈ term.contracted, ∃ result, redex.contract = .ok result ∧
    term.contractVisited.subtermAt? redex.position = some result.term
  shrinks : term.contractVisited.nodeCount + 3 * term.contracted.length ≤ term.nodeCount

theorem CleaningPass.var (level : Level) : CleaningPass (.var level) none where
  outcome_eq := rfl
  contracts := by
    intro redex visits
    cases visits
  placed := by
    intro redex member
    cases member
  shrinks := Nat.le_refl _

theorem CleaningPass.lam {outcome : Option Term} (inside : CleaningPass body outcome) :
    CleaningPass (.lam body) (outcome.map .lam) where
  outcome_eq := by rw [inside.outcome_eq, cleaned?_lam]
  contracts := by
    rw [visited_lam, List.forall_mem_map]
    exact inside.contracts
  placed := by
    rw [contracted_lam, contractVisited_lam, List.forall_mem_map]
    exact inside.placed
  shrinks := by
    have smaller := inside.shrinks
    rw [contractVisited_lam, contracted_lam, List.length_map, nodeCount, nodeCount]
    omega

/-- An affine redex at the root is all that a pass looks at. -/
theorem CleaningPass.contract (ran : contractFrugal function argument = .ok (some reduced)) :
    CleaningPass (.app function argument) (some reduced) := by
  have smaller := nodeCount_of_contractFrugal ran
  obtain ⟨body, result, rfl, ranBody, rfl, affine⟩ := exists_affine_of_contractFrugal ran
  have same := contractVisited_app_of_affine affine ranBody
  have one := contracted_app_of_affine affine
  constructor
  · rw [cleaned?, one, same]
    rfl
  · intro redex visits
    rw [visited_app_of_affine affine, List.mem_singleton] at visits
    rw [visits]
    exact ⟨result, ranBody⟩
  · rw [same, one, List.forall_mem_singleton]
    exact ⟨result, ranBody, subtermAt?_nil _⟩
  · rw [same, one]
    exact smaller

theorem CleaningPass.app {function' argument' : Option Term}
    (kept : contractFrugal function argument = .ok none)
    (inFunction : CleaningPass function function') (inArgument : CleaningPass argument argument') :
    CleaningPass (.app function argument) (rebuildApp function argument function' argument') := by
  have notAffine : ∀ redex ∈ redexAtRoot function argument, ¬ redex.Affine :=
    fun _ member => (contract_of_contractFrugal_none kept member).1
  constructor
  · rw [inFunction.outcome_eq, inArgument.outcome_eq, cleaned?_app_of_kept notAffine]
  · rw [visited_app_of_kept notAffine, List.forall_mem_append, List.forall_mem_append,
      List.forall_mem_map, List.forall_mem_map]
    exact ⟨fun _ member => (contract_of_contractFrugal_none kept member).2,
      inFunction.contracts, inArgument.contracts⟩
  · rw [contracted_app_of_kept notAffine, contractVisited_app_of_kept notAffine,
      List.forall_mem_append, List.forall_mem_map, List.forall_mem_map]
    exact ⟨inFunction.placed, inArgument.placed⟩
  · have smallerFunction := inFunction.shrinks
    have smallerArgument := inArgument.shrinks
    rw [contractVisited_app_of_kept notAffine, contracted_app_of_kept notAffine, List.length_append,
      List.length_map, List.length_map, nodeCount, nodeCount]
    omega

theorem cleaningPass_of_clean {outcome : Option Term} (ran : term.clean = .ok outcome) :
    CleaningPass term outcome := by
  induction term generalizing outcome with
  | var level =>
      cases ran
      exact .var level
  | lam body inductionHypothesis =>
      obtain ⟨inside, ranBody, rfl⟩ := clean_lam_eq_ok_iff.mp ran
      exact .lam (inductionHypothesis ranBody)
  | app function argument functionHypothesis argumentHypothesis =>
      rcases clean_app_eq_ok_iff.mp ran with
        ⟨reduced, contracted, rfl⟩ | ⟨kept, function', argument', ranFunction, ranArgument, rfl⟩
      · exact .contract contracted
      · exact .app kept (functionHypothesis ranFunction) (argumentHypothesis ranArgument)

/-! ## A pass that fails -/

private theorem exists_visited_of_clean_error {failure : Failure}
    (failed : term.clean = .error failure) :
    ∃ redex ∈ term.visited, redex.contract = .error failure := by
  induction term with
  | var level => cases failed
  | lam body inductionHypothesis =>
      obtain ⟨redex, visits, failedRedex⟩ :=
        inductionHypothesis (Failure.map_eq_error_iff.mp failed)
      rw [visited_lam]
      exact ⟨redex.below .body, List.mem_map_of_mem visits, failedRedex⟩
  | app function argument functionHypothesis argumentHypothesis =>
      rcases clean_app_eq_error_iff.mp failed with contracting | ⟨kept, inside⟩
      · obtain ⟨body, rfl, failedRedex⟩ := contractFrugal_eq_error_iff.mp contracting
        have atRoot : ⟨[], body, argument⟩ ∈ redexAtRoot (.lam body) argument :=
          List.mem_singleton.mpr rfl
        exact ⟨_, mem_visited_of_redexAtRoot atRoot, failedRedex⟩
      · rw [visited_app_of_kept fun _ member => (contract_of_contractFrugal_none kept member).1]
        simp only [List.mem_append]
        rcases inside with inFunction | ⟨_, _, inArgument⟩
        · obtain ⟨redex, visits, failedRedex⟩ := functionHypothesis inFunction
          exact ⟨redex.below .function, .inr (.inl (List.mem_map_of_mem visits)), failedRedex⟩
        · obtain ⟨redex, visits, failedRedex⟩ := argumentHypothesis inArgument
          exact ⟨redex.below .argument, .inr (.inr (List.mem_map_of_mem visits)), failedRedex⟩

/-- A pass fails exactly if some redex fails that it looks at, contracted or not. -/
theorem clean_error_iff :
    (∃ failure, term.clean = .error failure) ↔
      ∃ redex ∈ term.visited, ∃ failure, redex.contract = .error failure := by
  constructor
  · intro ⟨failure, failed⟩
    obtain ⟨redex, visits, failedRedex⟩ := exists_visited_of_clean_error failed
    exact ⟨redex, visits, failure, failedRedex⟩
  · intro ⟨redex, visits, cause, failedRedex⟩
    cases ran : term.clean with
    | error failure => exact ⟨failure, rfl⟩
    | ok outcome =>
        obtain ⟨result, contracts⟩ := (cleaningPass_of_clean ran).contracts redex visits
        rw [failedRedex] at contracts
        cases contracts

/-- If every redex that is looked at can be contracted, then the pass gets through. -/
private theorem cleaningPass_of_contracts
    (contracts : ∀ redex ∈ term.visited, ∃ result, redex.contract = .ok result) :
    term.clean = .ok term.cleaned? ∧ CleaningPass term term.cleaned? := by
  cases ran : term.clean with
  | ok outcome =>
      have pass := cleaningPass_of_clean ran
      rw [← pass.outcome_eq]
      exact ⟨rfl, pass⟩
  | error failure =>
      obtain ⟨redex, visits, failed⟩ := exists_visited_of_clean_error ran
      obtain ⟨result, succeeded⟩ := contracts redex visits
      rw [failed] at succeeded
      cases succeeded

private theorem nodup_contracted (term : Term) : term.contracted.Nodup :=
  ((nodup_redexes term).filter _).filter _

end Term

open Term

/-- A pass looks at the redexes that no affine one among them encloses. It fails on a level exactly
if the contraction of one of them fails; otherwise it contracts those that are affine, all at once,
and changes nothing if the term has no affine redex at all. Each contraction takes three nodes
away. -/
theorem clean_outcomes (term : Term) (shallow : term.binderDepth < 2 ^ 63) :
    (∀ redex, redex ∈ term.redexes ↔
      term.subtermAt? redex.position = some (.app (.lam redex.body) redex.argument)) ∧
    (∀ redex, redex ∈ term.visited ↔
      redex ∈ term.redexes ∧ ∀ outer ∈ term.visited, outer.Affine → ¬ outer.Encloses redex) ∧
    ((∃ failure, term.clean = .error failure) ↔
      ∃ redex ∈ term.visited, ∃ failure, redex.contract = .error failure) ∧
    (∀ failure, term.clean = .error failure → failure = .unshiftable .last) ∧
    ((∀ redex ∈ term.visited, ∃ result, redex.contract = .ok result) →
      (term.clean = .ok none ↔ ∀ redex ∈ term.redexes, ¬ redex.Affine) ∧
      ((∃ redex ∈ term.redexes, redex.Affine) →
        term.clean = .ok (some term.contractVisited) ∧
        (∀ redex ∈ term.contracted, ∃ result, redex.contract = .ok result ∧
          term.contractVisited.subtermAt? redex.position = some result.term) ∧
        term.contracted.Nodup ∧ 1 ≤ term.contracted.length ∧
        term.contractVisited.size + 3 * term.contracted.length ≤ term.size)) := by
  refine ⟨fun _ => mem_redexes_iff, fun _ => mem_visited_iff, clean_error_iff, ?_, ?_⟩
  · intro failure failed
    apply (ofBinding_of_clean failed).eq_unshiftable
    rw [Level.toInt_last]
    omega
  · intro contracts
    obtain ⟨ran, pass⟩ := cleaningPass_of_contracts contracts
    constructor
    · rw [ran, Except.ok.injEq, cleaned?_eq_none_iff, contracted_eq_nil_iff]
    · intro ⟨redex, member, affine⟩
      have some : term.contracted ≠ [] := fun nothing =>
        contracted_eq_nil_iff.mp nothing redex member affine
      rw [ran, cleaned?, if_neg some, size_eq_nodeCount, size_eq_nodeCount]
      exact ⟨rfl, pass.placed, nodup_contracted term, List.length_pos_iff.mpr some, pass.shrinks⟩

/-- Squares an argument that has one affine redex inside another. -/
def Term.Sample.squaredIdentities : Term :=
  applyAll selfApply [applyAll identity [applyAll identity [1]]]

/-- The pass goes past the outer redex, which duplicates its argument, and contracts the next one,
but not the one inside of that. -/
theorem squaredIdentities_clean :
    Sample.squaredIdentities.redexes.map Redex.position =
        [[], [.argument], [.argument, .argument]] ∧
      Sample.squaredIdentities.contracted = [⟨[.argument], 0, applyAll Sample.identity [1]⟩] ∧
      Sample.squaredIdentities.clean =
        .ok (some (applyAll Sample.selfApply [applyAll Sample.identity [1]])) := by
  have shallow : Sample.squaredIdentities.binderDepth < 2 ^ 63 := by decide
  have visits : Sample.squaredIdentities.visited =
      [⟨[], applyAll 0 [0], applyAll Sample.identity [applyAll Sample.identity [1]]⟩,
        ⟨[.argument], 0, applyAll Sample.identity [1]⟩] := by decide
  have contracts : ∀ redex ∈ Sample.squaredIdentities.visited,
      ∃ result, redex.contract = .ok result := by
    rw [visits, List.forall_mem_cons, List.forall_mem_singleton]
    exact ⟨⟨_, rfl⟩, ⟨_, rfl⟩⟩
  have affine : ∃ redex ∈ Sample.squaredIdentities.redexes, redex.Affine :=
    ⟨⟨[.argument], 0, applyAll Sample.identity [1]⟩, by decide, by decide⟩
  obtain ⟨_, _, _, _, ends⟩ := clean_outcomes Sample.squaredIdentities shallow
  exact ⟨by decide, by decide, ((ends contracts).2 affine).1⟩

end NamelessLambda
