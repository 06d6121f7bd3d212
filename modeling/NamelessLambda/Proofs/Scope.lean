import Mathlib.Logic.Basic
import NamelessLambda.Proofs.CallByName
import NamelessLambda.Proofs.Simplification

/-!
Contract: evaluation refers to nothing that its input does not refer to.

A contraction neither invents free variables nor sentinels, so a scope that
contains a term contains all its reducts. In a scope that leaves room for the
binders of the term below the greatest level, no level ever fails to move.

Owns:
- the free variables and the sentinels of a term, and `Term.Scoped`;
- `Term.Produces`, the outcomes of the five operations on a term;
- what contractions keep of the three, and the failures that a scope excludes.

Does not own:
- the overflow of the count of binders.
-/

namespace NamelessLambda

open Relation

/-- Number of a free variable outside of the term. -/
def Leaf.free? (leaf : Leaf) : Option Nat :=
  if leaf.binders ≤ leaf.level.toInt then some (leaf.level.toInt - leaf.binders).toNat else none

private theorem Leaf.free?_eq_some_iff {leaf : Leaf} {number : Nat} :
    leaf.free? = some number ↔ leaf.PointsTo number := by
  unfold free? PointsTo
  split
  · rw [Option.some_inj]
    omega
  · simp only [reduceCtorEq, false_iff]
    omega

namespace Term

/-! ## What a term refers to -/

def freeVariables (term : Term) : List Nat := term.leaves.filterMap Leaf.free?

def sentinels (term : Term) : List Level := (term.leaves.map Leaf.level).filter Level.isSentinel

/-- Every leaf is bound in the term or by one of `outer` binders around it. -/
def Scoped (outer : Nat) (term : Term) : Prop :=
  ∀ leaf ∈ term.leaves, leaf.level.toInt < outer + leaf.binders

instance instDecidableScoped (outer : Nat) (term : Term) : Decidable (term.Scoped outer) :=
  inferInstanceAs (Decidable (∀ leaf ∈ term.leaves, _))

section Membership

variable {term body function argument : Term} {outer : Nat} {code : Level}

private theorem mem_freeVariables_iff :
    outer ∈ term.freeVariables ↔ ∃ leaf ∈ term.leaves, leaf.PointsTo outer := by
  simp only [freeVariables, List.mem_filterMap, Leaf.free?_eq_some_iff]

private theorem mem_freeVariables_lam_iff :
    outer ∈ (Term.lam body).freeVariables ↔ outer + 1 ∈ body.freeVariables := by
  simp only [mem_freeVariables_iff, leaves, List.mem_map, exists_exists_and_eq_and,
    Leaf.pointsTo_enclose]
  rfl

private theorem mem_freeVariables_app_iff :
    outer ∈ (Term.app function argument).freeVariables ↔
      outer ∈ function.freeVariables ∨ outer ∈ argument.freeVariables := by
  rw [freeVariables, leaves, List.filterMap_append, List.mem_append]
  rfl

private theorem mem_sentinels_iff :
    code ∈ term.sentinels ↔ code.isSentinel = true ∧ ∃ leaf ∈ term.leaves, leaf.level = code := by
  rw [sentinels, List.mem_filter, List.mem_map, and_comm]

private theorem sentinels_lam : (Term.lam body).sentinels = body.sentinels := by
  rw [sentinels, leaves, List.map_map]
  rfl

private theorem sentinels_app :
    (Term.app function argument).sentinels = function.sentinels ++ argument.sentinels := by
  rw [sentinels, leaves, List.map_append, List.filter_append]
  rfl

/-- A scope is a bound on the free variables. -/
private theorem scoped_iff : term.Scoped outer ↔ ∀ number ∈ term.freeVariables, number < outer := by
  constructor
  · intro scope number member
    obtain ⟨leaf, within, points⟩ := mem_freeVariables_iff.mp member
    have bound := scope leaf within
    rw [points] at bound
    omega
  · intro bounded leaf within
    rcases Int.lt_or_le leaf.level.toInt leaf.binders with inner | free
    · omega
    · have points : leaf.PointsTo (leaf.level.toInt - leaf.binders).toNat := by
        unfold Leaf.PointsTo
        omega
      have bound := bounded _ (mem_freeVariables_iff.mpr ⟨leaf, within, points⟩)
      omega

private theorem Scoped.inBody (scope : (Term.lam body).Scoped outer) : body.Scoped (outer + 1) := by
  rw [scoped_iff] at scope ⊢
  intro number member
  cases number with
  | zero => exact Nat.succ_pos outer
  | succ number =>
      exact Nat.succ_lt_succ (scope number (mem_freeVariables_lam_iff.mpr member))

private theorem Scoped.inFunction (scope : (Term.app function argument).Scoped outer) :
    function.Scoped outer := by
  intro leaf within
  exact scope leaf (mem_leaves_app_iff.mpr (.inl within))

private theorem Scoped.inArgument (scope : (Term.app function argument).Scoped outer) :
    argument.Scoped outer := by
  intro leaf within
  exact scope leaf (mem_leaves_app_iff.mpr (.inr within))

private theorem Scoped.atHead {head : Term} {arguments : List Term}
    (scope : (head.applyAll arguments).Scoped outer) : head.Scoped outer := by
  intro leaf within
  exact scope leaf (mem_leaves_applyAll within arguments)

end Membership

/-! ## What contractions keep -/

/-- Whatever `reduct` refers to, `term` refers to as well. -/
structure Covers (term reduct : Term) : Prop where
  freeVariables : reduct.freeVariables ⊆ term.freeVariables
  sentinels : reduct.sentinels ⊆ term.sentinels

private theorem Covers.refl (term : Term) : term.Covers term :=
  ⟨List.Subset.refl _, List.Subset.refl _⟩

private theorem Covers.trans {term middle reduct : Term} (first : term.Covers middle)
    (second : middle.Covers reduct) : term.Covers reduct where
  freeVariables := List.Subset.trans second.freeVariables first.freeVariables
  sentinels := List.Subset.trans second.sentinels first.sentinels

private theorem Covers.scope {term reduct : Term} {outer : Nat} (covers : term.Covers reduct)
    (scope : term.Scoped outer) : reduct.Scoped outer := by
  rw [scoped_iff] at scope ⊢
  intro number member
  exact scope number (covers.freeVariables member)

private theorem Covers.lam {body body' : Term} (inBody : body.Covers body') :
    (Term.lam body).Covers (.lam body') where
  freeVariables := by
    intro number member
    rw [mem_freeVariables_lam_iff] at member ⊢
    exact inBody.freeVariables member
  sentinels := by
    rw [sentinels_lam, sentinels_lam]
    exact inBody.sentinels

private theorem Covers.app {function function' argument argument' : Term}
    (inFunction : function.Covers function') (inArgument : argument.Covers argument') :
    (Term.app function argument).Covers (.app function' argument') where
  freeVariables := by
    intro number member
    rw [mem_freeVariables_app_iff] at member ⊢
    exact member.imp (fun within => inFunction.freeVariables within)
      (fun within => inArgument.freeVariables within)
  sentinels := by
    intro code member
    rw [sentinels_app, List.mem_append] at member ⊢
    exact member.imp (fun within => inFunction.sentinels within)
      (fun within => inArgument.sentinels within)

/-- A free variable of a contracted redex is free in the body, one binder further in, or free in
the argument: binders of the body raise the argument by as much as they enclose it. -/
private theorem mem_freeVariables_of_substitute {body argument : Term} {result : Substitution}
    {number : Nat} (ran : body.substitute argument 0 = .ok result)
    (member : number ∈ result.term.freeVariables) :
    number + 1 ∈ body.freeVariables ∨ number ∈ argument.freeVariables := by
  obtain ⟨leaf, within, points⟩ := mem_freeVariables_iff.mp member
  have zero : (0 : Level).toInt = 0 := rfl
  unfold Leaf.PointsTo at points
  simp only [mem_freeVariables_iff, Leaf.PointsTo]
  rcases exists_leaf_of_substitute ran within with
    ⟨origin, originWithin, sameBinders, moved⟩ | ⟨origin, originWithin, depth, deeper, moved⟩
  · left
    rw [zero] at moved
    refine ⟨origin, originWithin, ?_⟩
    rcases moved with ⟨below, same⟩ | ⟨_, lowered⟩
    · rw [same] at points
      omega
    · omega
  · right
    refine ⟨origin, originWithin, ?_⟩
    rcases moved with ⟨inner, same⟩ | ⟨_, raised⟩
    · rw [same] at points
      omega
    · omega

private theorem mem_sentinels_of_substitute {body argument : Term} {result : Substitution}
    {code : Level}
    (ran : body.substitute argument 0 = .ok result) (member : code ∈ result.term.sentinels) :
    code ∈ body.sentinels ∨ code ∈ argument.sentinels := by
  obtain ⟨sentinel, leaf, within, rfl⟩ := mem_sentinels_iff.mp member
  have negative := leaf.level.isSentinel_iff.mp sentinel
  have zero : (0 : Level).toInt = 0 := rfl
  simp only [mem_sentinels_iff]
  rcases exists_leaf_of_substitute ran within with
    ⟨origin, originWithin, _, moved⟩ | ⟨origin, originWithin, depth, _, moved⟩
  · left
    rw [zero] at moved
    refine ⟨sentinel, origin, originWithin, ?_⟩
    rcases moved with ⟨_, same⟩ | ⟨above, lowered⟩
    · exact same.symm
    · omega
  · right
    refine ⟨sentinel, origin, originWithin, ?_⟩
    rcases moved with ⟨_, same⟩ | ⟨outer, raised⟩
    · exact same.symm
    · omega

private theorem covers_of_redex {body argument : Term} {result : Substitution}
    (ran : body.substitute argument 0 = .ok result) :
    (Term.app (.lam body) argument).Covers result.term where
  freeVariables := by
    intro number member
    rw [mem_freeVariables_app_iff, mem_freeVariables_lam_iff]
    exact mem_freeVariables_of_substitute ran member
  sentinels := by
    intro code member
    rw [sentinels_app, sentinels_lam, List.mem_append]
    exact mem_sentinels_of_substitute ran member

private theorem Contracts.covers {term reduct : Term} (step : Contracts term reduct) :
    term.Covers reduct := by
  induction step with
  | redex ran => exact covers_of_redex ran
  | inBody _ inductionHypothesis => exact inductionHypothesis.lam
  | inFunction argument _ inductionHypothesis => exact inductionHypothesis.app (.refl argument)
  | inArgument function _ inductionHypothesis =>
      exact (Covers.refl function).app inductionHypothesis

theorem covers_of_contracts {term reduct : Term} (steps : ReflTransGen Contracts term reduct) :
    term.Covers reduct := by
  induction steps with
  | refl => exact .refl term
  | tail _ step inductionHypothesis => exact inductionHypothesis.trans step.covers

/-! ## Failures that a scope excludes -/

/-- In a scope with room for the binders of a redex, its argument can always be moved. -/
private theorem ne_unshiftable_of_redex {outer : Nat} {body argument : Term}
    (scope : (Term.app (.lam body) argument).Scoped outer)
    (room : outer + (Term.app (.lam body) argument).nodeCount ≤ Level.last.toInt) (level : Level) :
    body.substitute argument 0 ≠ .error (.unshiftable level) := by
  intro failed
  obtain ⟨leaf, within, _, beyond⟩ := exists_leaf_of_substitute_error failed
  have inScope := scope.inArgument leaf within
  have enclosed := binders_le_binderDepth within
  have shallowBody := binderDepth_lt_nodeCount body
  have shallowArgument := binderDepth_lt_nodeCount argument
  simp only [nodeCount] at room
  omega

section Room

variable {outer : Nat} {term : Term} (scope : term.Scoped outer)
  (room : outer + term.nodeCount ≤ Level.last.toInt) (level : Level)

include scope room

theorem headStep_ne_unshiftable : term.headStep ≠ .error (.unshiftable level) := by
  intro failed
  rcases headStep_eq_error_iff.mp failed with
    ⟨_, _, _, _, impossible⟩ | ⟨body, argument, rest, rfl, failedRedex⟩
  · cases impossible
  · rw [applyAll_cons] at scope room
    rw [nodeCount_applyAll] at room
    exact ne_unshiftable_of_redex scope.atHead (by omega) level failedRedex

theorem clean_ne_unshiftable : term.clean ≠ .error (.unshiftable level) := by
  induction term generalizing outer with
  | var own => intro failed; cases failed
  | lam body inductionHypothesis =>
      intro failed
      simp only [nodeCount] at room
      apply inductionHypothesis scope.inBody (by omega)
      exact Failure.map_eq_error_iff.mp failed
  | app function argument functionHypothesis argumentHypothesis =>
      intro failed
      rcases clean_app_eq_error_iff.mp failed with
        contracting | ⟨_, inFunction | ⟨_, _, inArgument⟩⟩
      · obtain ⟨body, rfl, failedRedex⟩ := contractFrugal_eq_error_iff.mp contracting
        exact ne_unshiftable_of_redex scope room level failedRedex
      · simp only [nodeCount] at room
        exact functionHypothesis scope.inFunction (by omega) inFunction
      · simp only [nodeCount] at room
        exact argumentHypothesis scope.inArgument (by omega) inArgument

/-- Passes keep the scope and never need more room. -/
theorem cleanAll_ne_unshiftable : term.cleanAll ≠ .error (.unshiftable level) := by
  intro failed
  obtain ⟨passes, last, reached, failedPass⟩ := cleanAll_eq_error_iff.mp failed
  have scopeLast := (covers_of_contracts (contracts_of_after?_clean reached)).scope scope
  have smaller := nodeCount_of_after?_clean reached
  exact clean_ne_unshiftable scopeLast (by omega) level failedPass

end Room

end Term

open Term

namespace Limits

section Room

variable {limits : Limits} {outer : Nat} {term : Term} (scope : term.Scoped outer)
  (room : outer + limits.maxSize ≤ Level.last.toInt + 1) (level : Level)

include scope room

theorem simplify_ne_unshiftable : limits.simplify term ≠ .error (.unshiftable level) := by
  intro failed
  unfold Limits.simplify Run.simplify at failed
  rw [outcome_simplifyFrom] at failed
  split at failed
  case isTrue => cases failed
  case isFalse small =>
    rw [size_eq_nodeCount] at small
    exact cleanAll_ne_unshiftable scope (by omega) level (Failure.map_eq_error_iff.mp failed)

/-- Every term that is stepped or cleaned is within the size limit and keeps the scope. -/
theorem normalize_ne_unshiftable : limits.normalize term ≠ .error (.unshiftable level) := by
  intro failed
  obtain ⟨steps, last, _, fresh, reached, ends⟩ := (normalize_eq_error_iff rfl).mp failed
  have scopeLast := (covers_of_contracts (contracts_of_state? reached)).scope scope
  have small := fresh.size_lt (Nat.lt_succ_self steps) reached
  rw [size_eq_nodeCount] at small
  rcases ends with fails | ⟨_, failsCleaning⟩
  · exact headStep_ne_unshiftable scopeLast (by omega) level fails
  · exact cleanAll_ne_unshiftable scopeLast (by omega) level failsCleaning

theorem evaluate_ne_unshiftable : limits.evaluate term ≠ .error (.unshiftable level) := by
  cases shape : term.isLam with
  | true =>
      rw [evaluate_of_isLam shape]
      exact simplify_ne_unshiftable scope room level
  | false =>
      rw [evaluate_of_not_isLam shape]
      exact normalize_ne_unshiftable scope room level

end Room

end Limits

/-! ## Every operation -/

/-- Outcome of a step, a pass or an evaluation of `term`. -/
inductive Term.Produces (term : Term) (outcome : Except Failure Term) : Prop where
  | step (ran : term.headStep = some <$> outcome)
  | pass (ran : term.clean = some <$> outcome)
  | simplified (limits : Limits) (ran : limits.simplify term = outcome)
  | normalized (limits : Limits) (ran : limits.normalize term = outcome)
  | evaluated (limits : Limits) (ran : limits.evaluate term = outcome)

private theorem contracts_of_produces {term result : Term} (produces : term.Produces (.ok result)) :
    ReflTransGen Contracts term result := by
  cases produces with
  | step ran => exact .single (contracts_of_headStep ran)
  | pass ran => exact (contracts_of_clean ran).to_reflTransGen
  | simplified limits ran => exact Limits.contracts_of_simplify ran
  | normalized limits ran => exact Limits.contracts_of_normalize ran
  | evaluated limits ran => exact Limits.contracts_of_evaluate ran

/-- A fatal sentinel stands at the head of a state. -/
private theorem exists_head_of_normalize {limits : Limits} {term : Term} {code : Level}
    (ran : limits.normalize term = .error (.divergent code)) :
    code.isSentinel = true ∧
      ∃ arguments, ReflTransGen Contracts term ((Term.var code).applyAll arguments) := by
  obtain ⟨count, last, reached, fails⟩ := headStep_of_divergent ran
  obtain ⟨sentinel, arguments, rfl⟩ := head_of_headStep fails
  exact ⟨sentinel, arguments, contracts_of_state? reached⟩

private theorem exists_head_of_divergent {term : Term} {code : Level}
    (produces : term.Produces (.error (.divergent code))) :
    code.isSentinel = true ∧
      ∃ arguments, ReflTransGen Contracts term ((Term.var code).applyAll arguments) := by
  cases produces with
  | step ran =>
      obtain ⟨sentinel, arguments, rfl⟩ := head_of_headStep ran
      exact ⟨sentinel, arguments, .refl⟩
  | pass ran => exact absurd rfl ((ofBinding_of_clean ran).ne_divergent code)
  | simplified limits ran => exact absurd ran (not_simplify_divergent limits term code)
  | normalized limits ran => exact exists_head_of_normalize ran
  | evaluated limits ran =>
      cases shape : term.isLam with
      | true =>
          rw [Limits.evaluate_of_isLam shape] at ran
          exact absurd ran (not_simplify_divergent limits term code)
      | false =>
          rw [Limits.evaluate_of_not_isLam shape] at ran
          exact exists_head_of_normalize ran

private theorem mem_sentinels_of_divergent {term : Term} {code : Level}
    (produces : term.Produces (.error (.divergent code))) : code ∈ term.sentinels := by
  obtain ⟨sentinel, arguments, steps⟩ := exists_head_of_divergent produces
  apply (covers_of_contracts steps).sentinels
  have atHead : (⟨0, code⟩ : Leaf) ∈ (Term.var code).leaves := List.mem_singleton.mpr rfl
  exact mem_sentinels_iff.mpr ⟨sentinel, _, mem_leaves_applyAll atHead arguments, rfl⟩

/-- Whatever comes out of a term in a scope is in that scope, and refers to no free variable and no
sentinel that the term does not refer to; a fatal sentinel is one of the term. Where the scope and
the binders that the term or the size limit admits fit below the greatest level, none fails to
move. -/
theorem scope_preserved {outer : Nat} {term : Term} (scope : term.Scoped outer) :
    (∀ result, term.Produces (.ok result) →
      result.Scoped outer ∧ result.freeVariables ⊆ term.freeVariables ∧
        result.sentinels ⊆ term.sentinels) ∧
    (∀ code, term.Produces (.error (.divergent code)) → code ∈ term.sentinels) ∧
    (outer + term.size ≤ Level.last.toInt → ∀ level,
      term.headStep ≠ .error (.unshiftable level) ∧ term.clean ≠ .error (.unshiftable level)) ∧
    (∀ limits : Limits, outer + limits.maxSize ≤ Level.last.toInt + 1 → ∀ level,
      limits.simplify term ≠ .error (.unshiftable level) ∧
      limits.normalize term ≠ .error (.unshiftable level) ∧
      limits.evaluate term ≠ .error (.unshiftable level)) := by
  refine ⟨?_, fun code => mem_sentinels_of_divergent, ?_, ?_⟩
  · intro result produces
    have covers := covers_of_contracts (contracts_of_produces produces)
    exact ⟨covers.scope scope, covers.freeVariables, covers.sentinels⟩
  · intro room level
    rw [size_eq_nodeCount] at room
    exact ⟨headStep_ne_unshiftable scope room level, clean_ne_unshiftable scope room level⟩
  · intro limits room level
    exact ⟨Limits.simplify_ne_unshiftable scope room level,
      Limits.normalize_ne_unshiftable scope room level,
      Limits.evaluate_ne_unshiftable scope room level⟩

/-- The first step puts a sentinel under the binder of the constant function, the second discards
the free variable `0` and brings the sentinel to the head. -/
theorem exposed_sentinel_scope :
    ((lambda 1 (.var (-1))).applyAll [0]).Scoped 1 ∧
    (-1) ∈ (Sample.constant.applyAll [.var (-1), 0]).sentinels ∧
    (∀ level, (Sample.constant.applyAll [.var (-1), 0]).clean ≠ .error (.unshiftable level)) ∧
    (∀ level, Limits.standard.normalize (Sample.constant.applyAll [.var (-1), 0]) ≠
      .error (.unshiftable level)) := by
  have scope : (Sample.constant.applyAll [.var (-1), 0]).Scoped 1 := by decide
  have stepped : (Sample.constant.applyAll [.var (-1), 0]).headStep =
      .ok (some ((lambda 1 (.var (-1))).applyAll [0])) := rfl
  have reached : (Sample.constant.applyAll [.var (-1), 0]).state? 2 = some (.var (-1)) := rfl
  have fails : (Term.var (-1)).headStep = .error (.divergent (-1)) := rfl
  have small : ∀ index ≤ 2, ∀ state,
      (Sample.constant.applyAll [.var (-1), 0]).state? index = some state → state.size < 1024 := by
    intro index le state reachedState
    rw [size_eq_nodeCount]
    have either : index = 0 ∨ index = 1 ∨ index = 2 := by omega
    rcases either with rfl | rfl | rfl <;> rw [← Option.some.inj reachedState] <;> decide
  have fresh := freshRun_of_stopped reached (Path.stopped_of_failed fails) small
  have divergent : Limits.standard.normalize (Sample.constant.applyAll [.var (-1), 0]) =
      .error (.divergent (-1)) :=
    (normalize_eq_error_iff rfl).mpr ⟨2, _, by decide, fresh, reached, .inl fails⟩
  have room : ((1 : Nat) + (Sample.constant.applyAll [.var (-1), 0]).size : Int) ≤
      Level.last.toInt := by
    rw [size_eq_nodeCount]
    decide
  have preserved := scope_preserved scope
  exact ⟨(preserved.1 _ (.step stepped)).1, preserved.2.1 _ (.normalized .standard divergent),
    fun level => (preserved.2.2.1 room level).2,
    fun level => (preserved.2.2.2 .standard (by decide) level).2.1⟩

end NamelessLambda
