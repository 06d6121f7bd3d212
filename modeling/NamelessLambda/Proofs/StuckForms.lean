import NamelessLambda.Proofs.Simplification
import NamelessLambda.Proofs.Stability

/-!
Contract: a term without a head redex is simplified part by part.

Every pass goes through all parts, also those that earlier passes have finished.
A finished part waits, so the parts end where they would end on their own, after
as many passes as the slowest of them needs. The first failing pass of any part
ends them all, so which failure is reported depends on the others.

Owns:
- the passes below a binder and at the arguments of a variable;
- `Cleaned.Joined`, how the outcome of a whole arises from those of two parts;
- the shape of the results of `normalize`.

Does not own:
- a term with a redex at the head, where a pass may join its parts.
-/

namespace NamelessLambda

/-! ## Results put together -/

namespace Cleaned

def lam (body : Cleaned) : Cleaned := ⟨.lam body.term, body.passes⟩

/-- Parts that are cleaned side by side need as many passes as the slower one. -/
def app (function argument : Cleaned) : Cleaned :=
  ⟨.app function.term argument.term, max function.passes argument.passes⟩

/-- Variable applied to parts that are cleaned side by side. -/
def spine (level : Level) (arguments : List Cleaned) : Cleaned :=
  ⟨(Term.var level).applyAll (arguments.map Cleaned.term),
    (arguments.map Cleaned.passes).foldl max 0⟩

private theorem spine_concat (level : Level) (arguments : List Cleaned) (last : Cleaned) :
    spine level (arguments ++ [last]) = (spine level arguments).app last := by
  simp [spine, app, Term.applyAll, List.foldl_append]

/-- One pass more, if it has changed something. -/
def after (outcome : Option Term) (cleaned : Cleaned) : Cleaned :=
  ⟨cleaned.term, cleaned.passes + if outcome.isSome then 1 else 0⟩

/-- A part that a pass leaves as it is was finished before, and keeps its number of passes. -/
private theorem app_after {function argument : Cleaned} {function' argument' : Option Term}
    {next : Term} (changed : function'.isSome ∨ argument'.isSome)
    (finishedFunction : function' = none → function.passes = 0)
    (finishedArgument : argument' = none → argument.passes = 0) :
    (function.after function').app (argument.after argument') =
      (function.app argument).after (some next) := by
  cases function' <;> cases argument' <;> simp_all [app, after]

/-- What two parts that are cleaned side by side come to: the first failure ends both. -/
inductive Joined : (function argument whole : Except Failure Cleaned) → Prop where
  | ok (function argument : Cleaned) :
      Joined (.ok function) (.ok argument) (.ok (function.app argument))
  | inFunction (failure : Failure) (argument : Except Failure Cleaned) :
      Joined (.error failure) argument (.error failure)
  | inArgument (function : Except Failure Cleaned) (failure : Failure) :
      Joined function (.error failure) (.error failure)

private theorem Joined.after {function argument whole : Except Failure Cleaned}
    {function' argument' : Option Term} {next : Term} (joined : Joined function argument whole)
    (changed : function'.isSome ∨ argument'.isSome)
    (finishedFunction : function' = none → ∀ cleaned, function = .ok cleaned → cleaned.passes = 0)
    (finishedArgument : argument' = none → ∀ cleaned, argument = .ok cleaned → cleaned.passes = 0) :
    Joined (Cleaned.after function' <$> function) (Cleaned.after argument' <$> argument)
      (Cleaned.after (some next) <$> whole) := by
  cases joined with
  | inFunction failure _ => exact .inFunction failure _
  | inArgument _ failure => exact .inArgument _ failure
  | ok first second =>
      have same : (first.after function').app (second.after argument') =
          (first.app second).after (some next) :=
        app_after changed (fun finished => finishedFunction finished first rfl)
          (fun finished => finishedArgument finished second rfl)
      show Joined (.ok (first.after function')) (.ok (second.after argument'))
        (.ok ((first.app second).after (some next)))
      rw [← same]
      exact .ok _ _

private theorem Joined.exists_ok {function argument : Except Failure Cleaned} {whole : Cleaned}
    (joined : Joined function argument (.ok whole)) :
    ∃ first second, function = .ok first ∧ argument = .ok second ∧ whole = first.app second := by
  cases joined with
  | ok first second => exact ⟨first, second, rfl, rfl, rfl⟩

private theorem Joined.function_or_argument {function argument : Except Failure Cleaned}
    {failure : Failure} (joined : Joined function argument (.error failure)) :
    function = .error failure ∨ argument = .error failure := by
  cases joined with
  | inFunction => exact .inl rfl
  | inArgument => exact .inr rfl

end Cleaned

namespace Term

variable {term function argument : Term} {level : Level} {failure : Failure}

/-! ## One pass -/

/-- Cleaning goes on from what a pass leaves. -/
private theorem cleanAll_of_clean {outcome : Option Term} (ran : term.clean = .ok outcome) :
    term.cleanAll = Cleaned.after outcome <$> (outcome.getD term).cleanAll := by
  cases outcome with
  | none =>
      show term.cleanAll = _ <$> term.cleanAll
      rw [cleanAll, cleanAllFrom_of_clean_none ran]
      rfl
  | some next =>
      rw [cleanAll, cleanAllFrom_of_clean_some ran, cleanAllFrom_eq_map]
      rfl

private theorem passes_of_clean_none {cleaned : Cleaned} (settled : term.clean = .ok none)
    (ran : term.cleanAll = .ok cleaned) : cleaned.passes = 0 := by
  rw [cleanAll_of_clean_none settled] at ran
  rw [← Except.ok.inj ran]

/-- A pass does the same below a binder. -/
private theorem cleanAll_lam (body : Term) :
    (Term.lam body).cleanAll = Cleaned.lam <$> body.cleanAll := by
  unfold cleanAll
  -- The two counts of earlier passes stay the same, so the induction is over all of them.
  generalize 0 = passes
  fun_induction cleanAllFrom passes body with
  | case1 passes body failure failed =>
      have inside : (Term.lam body).clean = .error failure := by rw [clean, failed]; rfl
      rw [cleanAllFrom_of_clean_error inside]
      rfl
  | case2 passes body settled =>
      have inside : (Term.lam body).clean = .ok none := by rw [clean, settled]; rfl
      rw [cleanAllFrom_of_clean_none inside]
      rfl
  | case3 passes body next moved inductionHypothesis =>
      have inside : (Term.lam body).clean = .ok (some (.lam next)) := by rw [clean, moved]; rfl
      rw [cleanAllFrom_of_clean_some inside, inductionHypothesis]

/-! ## Variables at the head -/

private theorem spine_of_clean {arguments : List Term} {cleaned : Term}
    (ran : ((Term.var level).applyAll arguments).clean = .ok (some cleaned)) :
    ∃ arguments', cleaned = (Term.var level).applyAll arguments' := by
  have steps := (contracts_of_clean ran).to_reflTransGen
  obtain ⟨arguments', _, same⟩ := spine_of_reduces (toPure_of_contracts steps)
  exact ⟨arguments', same⟩

private theorem contractFrugal_spine (level : Level) (arguments : List Term) (argument : Term) :
    contractFrugal ((Term.var level).applyAll arguments) argument = .ok none := by
  induction arguments using List.reverseRecOn with
  | nil => rfl
  | append_singleton arguments last _ =>
    rw [applyAll_append]
    rfl

private theorem spine_of_clean_getD {arguments : List Term} {outcome : Option Term}
    (ran : ((Term.var level).applyAll arguments).clean = .ok outcome) :
    ∃ arguments', outcome.getD ((Term.var level).applyAll arguments) =
      (Term.var level).applyAll arguments' := by
  cases outcome with
  | none => exact ⟨arguments, rfl⟩
  | some cleaned => exact spine_of_clean ran

/-- A pass over an application that it does not contract is a pass over each part. -/
private theorem joined_of_pass {function' argument' : Option Term}
    (kept : contractFrugal function argument = .ok none)
    (ranFunction : function.clean = .ok function') (ranArgument : argument.clean = .ok argument')
    (rest : (Term.app function argument).clean =
        .ok (some (.app (function'.getD function) (argument'.getD argument))) →
      Cleaned.Joined (function'.getD function).cleanAll (argument'.getD argument).cleanAll
        (Term.app (function'.getD function) (argument'.getD argument)).cleanAll) :
    Cleaned.Joined function.cleanAll argument.cleanAll (Term.app function argument).cleanAll := by
  have ran := clean_app_eq_ok_iff.mpr (.inr ⟨kept, _, _, ranFunction, ranArgument, rfl⟩)
  cases outcome : rebuildApp function argument function' argument' with
  | none =>
      obtain ⟨rfl, rfl⟩ := rebuildApp_eq_none_iff.mp outcome
      rw [cleanAll_of_clean_none ranFunction, cleanAll_of_clean_none ranArgument,
        cleanAll_of_clean_none ran]
      exact .ok ⟨function, 0⟩ ⟨argument, 0⟩
  | some next =>
      obtain ⟨changed, rfl⟩ := rebuildApp_eq_some_iff.mp outcome
      rw [outcome] at ran
      rw [cleanAll_of_clean ranFunction, cleanAll_of_clean ranArgument, cleanAll_of_clean ran]
      apply (rest ran).after changed
      · rintro rfl cleaned found
        exact passes_of_clean_none ranFunction found
      · rintro rfl cleaned found
        exact passes_of_clean_none ranArgument found

/-- A variable stays at the head of the function, so no pass ever joins the two parts. -/
private theorem joined_cleanAll (level : Level) (arguments : List Term) (argument : Term) :
    Cleaned.Joined ((Term.var level).applyAll arguments).cleanAll argument.cleanAll
      (Term.app ((Term.var level).applyAll arguments) argument).cleanAll := by
  induction size : (Term.app ((Term.var level).applyAll arguments) argument).nodeCount
    using Nat.strongRecOn generalizing arguments argument with
  | ind size inductionHypothesis =>
      have kept := contractFrugal_spine level arguments argument
      cases ranFunction : ((Term.var level).applyAll arguments).clean with
      | error failure =>
          have failed := clean_app_eq_error_iff.mpr (.inr ⟨kept, .inl ranFunction⟩)
          rw [cleanAll_of_clean_error ranFunction, cleanAll_of_clean_error failed]
          exact .inFunction failure _
      | ok function' =>
          cases ranArgument : argument.clean with
          | error failure =>
              have failed :=
                clean_app_eq_error_iff.mpr (.inr ⟨kept, .inr ⟨_, ranFunction, ranArgument⟩⟩)
              rw [cleanAll_of_clean_error ranArgument, cleanAll_of_clean_error failed]
              exact .inArgument _ failure
          | ok argument' =>
              -- One of the parts may be finished, so only the size of the whole is known to shrink.
              obtain ⟨arguments', same⟩ := spine_of_clean_getD ranFunction
              apply joined_of_pass kept ranFunction ranArgument
              intro ran
              have smaller := nodeCount_of_clean ran
              rw [same] at smaller ⊢
              exact inductionHypothesis _ (by omega) arguments' _ rfl

private theorem exists_parts_of_cleanAll {arguments : List Term} {cleaned : Cleaned}
    (ran : ((Term.var level).applyAll arguments).cleanAll = .ok cleaned) :
    ∃ parts, arguments.map cleanAll = parts.map .ok ∧ cleaned = .spine level parts := by
  induction arguments using List.reverseRecOn generalizing cleaned with
  | nil =>
      have same : (Term.var level).cleanAll = .ok cleaned := ran
      rw [cleanAll_of_clean_none rfl] at same
      exact ⟨[], rfl, (Except.ok.inj same).symm⟩
  | append_singleton arguments last inductionHypothesis =>
      rw [applyAll_append, applyAll_cons, applyAll_nil] at ran
      have joined := joined_cleanAll level arguments last
      rw [ran] at joined
      obtain ⟨function, argument, ranSpine, ranLast, rfl⟩ := joined.exists_ok
      obtain ⟨parts, ranParts, rfl⟩ := inductionHypothesis ranSpine
      refine ⟨parts ++ [argument], ?_, (Cleaned.spine_concat level parts argument).symm⟩
      rw [List.map_append, List.map_append, ranParts, List.map_singleton, List.map_singleton,
        ranLast]

private theorem exists_failed_of_cleanAll {arguments : List Term}
    (failed : ((Term.var level).applyAll arguments).cleanAll = .error failure) :
    ∃ argument ∈ arguments, argument.cleanAll = .error failure := by
  induction arguments using List.reverseRecOn with
  | nil =>
      have failedHead : (Term.var level).cleanAll = .error failure := failed
      rw [cleanAll_of_clean_none rfl] at failedHead
      cases failedHead
  | append_singleton arguments last inductionHypothesis =>
      rw [applyAll_append, applyAll_cons, applyAll_nil] at failed
      have joined := joined_cleanAll level arguments last
      rw [failed] at joined
      rcases joined.function_or_argument with failedSpine | failedLast
      · obtain ⟨argument, member, failedArgument⟩ := inductionHypothesis failedSpine
        exact ⟨argument, List.mem_append_left _ member, failedArgument⟩
      · exact ⟨last, List.mem_append_right _ (List.mem_singleton.mpr rfl), failedLast⟩

private theorem ne_error_of_parts {arguments : List Term} {parts : List Cleaned}
    (ran : arguments.map cleanAll = parts.map .ok) (member : argument ∈ arguments)
    (failure : Failure) : argument.cleanAll ≠ .error failure := by
  intro failed
  have among : .error failure ∈ arguments.map cleanAll :=
    List.mem_map.mpr ⟨argument, member, failed⟩
  rw [ran] at among
  obtain ⟨_, _, impossible⟩ := List.mem_map.mp among
  cases impossible

theorem cleanAll_spine_eq_ok_iff {arguments : List Term} {cleaned : Cleaned} :
    ((Term.var level).applyAll arguments).cleanAll = .ok cleaned ↔
      ∃ parts, arguments.map cleanAll = parts.map .ok ∧ cleaned = .spine level parts := by
  constructor
  · exact exists_parts_of_cleanAll
  · rintro ⟨parts, ran, rfl⟩
    cases outcome : ((Term.var level).applyAll arguments).cleanAll with
    | error failure =>
        obtain ⟨argument, member, failed⟩ := exists_failed_of_cleanAll outcome
        exact absurd failed (ne_error_of_parts ran member failure)
    | ok cleaned =>
        obtain ⟨parts', ran', rfl⟩ := exists_parts_of_cleanAll outcome
        rw [List.map_injective_iff.mpr (fun _ _ => Except.ok.inj) (ran.symm.trans ran')]

end Term

open Term

/-! ## Simplification -/

private theorem Run.ofCleaning_injective : Function.Injective Run.ofCleaning := by
  intro first second same
  cases first with
  | error failure =>
      cases second with
      | error other =>
          rw [Except.error.inj (congrArg Run.outcome same)]
      | ok cleaned => cases congrArg Run.outcome same
  | ok cleaned =>
      cases second with
      | error other => cases congrArg Run.outcome same
      | ok other =>
          have events := congrArg (fun run => run.events.toList) same
          cases cleaned
          cases other
          cases events
          rfl

section Simplify

variable {limits : Limits} {level : Level} {arguments : List Term}

private theorem small_of_mem (small : ((Term.var level).applyAll arguments).size < limits.maxSize) :
    ∀ argument ∈ arguments, argument.size < limits.maxSize := by
  intro argument member
  have part := nodeCount_lt_applyAll (.var level) member
  rw [size_eq_nodeCount] at small ⊢
  omega

/-- A binder is simplified as its body is. -/
private theorem simplify_lam {body : Term} (small : (Term.lam body).size < limits.maxSize) :
    ∃ outcome, Run.simplify limits body = .ofCleaning outcome ∧
      Run.simplify limits (.lam body) = .ofCleaning (Cleaned.lam <$> outcome) := by
  have smallBody : body.size < limits.maxSize := by
    simp only [size_eq_nodeCount, nodeCount] at small ⊢
    omega
  refine ⟨body.cleanAll, simplify_of_small smallBody, ?_⟩
  rw [simplify_of_small small, cleanAll_lam]

/-- The arguments of a variable are simplified as they are on their own. -/
private theorem simplify_spine_eq_iff
    (small : ((Term.var level).applyAll arguments).size < limits.maxSize) {cleaned : Cleaned} :
    Run.simplify limits ((Term.var level).applyAll arguments) = .ofCleaning (.ok cleaned) ↔
      ∃ parts, arguments.map (Run.simplify limits) =
          parts.map (fun part => .ofCleaning (.ok part)) ∧
        cleaned = .spine level parts := by
  have runs : arguments.map (Run.simplify limits) = (arguments.map cleanAll).map .ofCleaning := by
    rw [List.map_map]
    exact List.map_congr_left fun argument member =>
      simplify_of_small (small_of_mem small argument member)
  rw [simplify_of_small small, Run.ofCleaning_injective.eq_iff, cleanAll_spine_eq_ok_iff]
  apply exists_congr
  intro parts
  have reports : parts.map (fun part => Run.ofCleaning (.ok part)) =
      (parts.map .ok).map .ofCleaning := by
    rw [List.map_map]
    rfl
  rw [runs, reports, (List.map_injective_iff.mpr Run.ofCleaning_injective).eq_iff]

private theorem exists_failed_of_simplify
    (small : ((Term.var level).applyAll arguments).size < limits.maxSize) {failure : Failure}
    (failed : limits.simplify ((Term.var level).applyAll arguments) = .error failure) :
    ∃ argument ∈ arguments, limits.simplify argument = .error failure := by
  obtain ⟨argument, member, failedPart⟩ :=
    exists_failed_of_cleanAll ((simplify_eq_error_iff small).mp failed)
  exact ⟨argument, member,
    (simplify_eq_error_iff (small_of_mem small argument member)).mpr failedPart⟩

/-- Another part may fail in an earlier pass, but in another way only past the range of levels. -/
private theorem exists_cause_of_argument
    (small : ((Term.var level).applyAll arguments).size < limits.maxSize) {argument : Term}
    {failure : Failure} (member : argument ∈ arguments)
    (failed : limits.simplify argument = .error failure) :
    ∃ cause, limits.simplify ((Term.var level).applyAll arguments) = .error cause ∧
      (cause = failure ∨ 2 ^ 63 ≤ ((Term.var level).applyAll arguments).size) := by
  have failedPart := (simplify_eq_error_iff (small_of_mem small argument member)).mp failed
  cases outcome : ((Term.var level).applyAll arguments).cleanAll with
  | ok cleaned =>
      obtain ⟨parts, ran, _⟩ := exists_parts_of_cleanAll outcome
      exact absurd failedPart (ne_error_of_parts ran member failure)
  | error cause =>
      refine ⟨cause, (simplify_eq_error_iff small).mpr outcome, ?_⟩
      have lower := nodeCount_lt_applyAll (.var level) member
      have partCause :=
        (ofBinding_of_cleanAll failedPart).mono (Int.ofNat_le.mpr (Nat.le_of_lt lower))
      rw [size_eq_nodeCount]
      exact_mod_cast (ofBinding_of_cleanAll outcome).eq_or_le partCause

end Simplify

/-! ## Results of stepping -/

/-- The form `last` has no step, and `result` is the same form of its parts, each simplified. -/
inductive Limits.SimplifiesApart (limits : Limits) : (last result : Term) → Prop where
  | lam {body body' : Term} (simplified : limits.simplify body = .ok body') :
      SimplifiesApart limits (.lam body) (.lam body')
  | spine {level : Level} {arguments results : List Term} (plain : level.isSentinel = false)
      (simplified : arguments.map limits.simplify = results.map .ok) :
      SimplifiesApart limits ((Term.var level).applyAll arguments)
        ((Term.var level).applyAll results)

private theorem simplifiesApart_of_simplify {limits : Limits} {last : Term} {cleaned : Cleaned}
    (small : last.size < limits.maxSize) (normal : last.WeakHeadNormal)
    (ran : Run.simplify limits last = .ofCleaning (.ok cleaned)) :
    limits.SimplifiesApart last cleaned.term := by
  rcases normal with ⟨body, rfl⟩ | ⟨level, arguments, plain, rfl⟩
  · obtain ⟨outcome, inside, whole⟩ := simplify_lam small
    have same := Run.ofCleaning_injective (ran.symm.trans whole)
    obtain ⟨cleanedBody, rfl, rfl⟩ := Failure.map_eq_ok_iff.mp same.symm
    exact .lam (congrArg Run.outcome inside)
  · obtain ⟨parts, runs, rfl⟩ := (simplify_spine_eq_iff small).mp ran
    have outcomes := congrArg (List.map Run.outcome) runs
    rw [List.map_map, List.map_map] at outcomes
    apply Limits.SimplifiesApart.spine plain
    rw [List.map_map]
    exact outcomes

/-- The passes after the last step leave the binder or the variable at the head in place. -/
private theorem exists_simplifiesApart_of_normalize {limits : Limits} {start result : Term}
    (ran : limits.normalize start = .ok result) :
    ∃ steps last, start.state? steps = some last ∧ last.headStep = .ok none ∧
      limits.SimplifiesApart last result := by
  obtain ⟨steps, last, _, reached, settles, smallOnTheWay, passes, reachedResult, nothingLeft⟩ :=
    normalize_eq_ok_iff.mp ran
  have small := smallOnTheWay steps (Nat.le_refl _) last reached
  have cleans : last.cleanAll = .ok ⟨result, passes⟩ :=
    cleanAll_eq_ok_iff.mpr ⟨reachedResult, nothingLeft⟩
  have simplified : Run.simplify limits last = .ofCleaning (.ok ⟨result, passes⟩) := by
    rw [simplify_of_small small, cleans]
  exact ⟨steps, last, reached, settles,
    simplifiesApart_of_simplify small (headStep_eq_none_iff.mp settles) simplified⟩

/-- A binder is simplified to the binder around its simplified body, in as many passes, and fails as
its body does. A variable applied to arguments is simplified to the variable applied to the
arguments simplified on their own, in as many passes as the slowest of them needs, and it fails
exactly if one of them does. So the result of stepping is made of the simplified parts of the term
at which the steps end. -/
theorem stuck_forms_simplified_apart (limits : Limits) :
    (∀ body, (Term.lam body).size < limits.maxSize →
      ∃ outcome, Run.simplify limits body = .ofCleaning outcome ∧
        Run.simplify limits (.lam body) = .ofCleaning (Cleaned.lam <$> outcome)) ∧
    (∀ level arguments, ((Term.var level).applyAll arguments).size < limits.maxSize →
      (∀ cleaned,
        Run.simplify limits ((Term.var level).applyAll arguments) = .ofCleaning (.ok cleaned) ↔
          ∃ parts, arguments.map (Run.simplify limits) =
              parts.map (fun part => .ofCleaning (.ok part)) ∧
            cleaned = .spine level parts) ∧
      (∀ failure, limits.simplify ((Term.var level).applyAll arguments) = .error failure →
        ∃ argument ∈ arguments, limits.simplify argument = .error failure) ∧
      (∀ argument ∈ arguments, ∀ failure, limits.simplify argument = .error failure →
        ∃ cause, limits.simplify ((Term.var level).applyAll arguments) = .error cause ∧
          (cause = failure ∨ 2 ^ 63 ≤ ((Term.var level).applyAll arguments).size))) ∧
    (∀ start result, limits.normalize start = .ok result →
      ∃ steps last, start.state? steps = some last ∧ last.headStep = .ok none ∧
        limits.SimplifiesApart last result) := by
  refine ⟨fun _ small => simplify_lam small, ?_,
    fun _ _ ran => exists_simplifiesApart_of_normalize ran⟩
  intro level arguments small
  exact ⟨fun _ => simplify_spine_eq_iff small,
    fun _ failed => exists_failed_of_simplify small failed,
    fun _ member _ failed => exists_cause_of_argument small member failed⟩

/-- One argument of a sentinel needs one pass, another one needs two, and a third one cannot be
simplified. -/
theorem sentinel_spine_simplified :
    Run.simplify .standard (applyAll (.var (-1))
        [applyAll Sample.identity [1], applyAll Sample.constant [2, 3]]) =
      .ofCleaning (.ok ⟨applyAll (.var (-1)) [1, 2], 2⟩) ∧
    Limits.standard.simplify (applyAll (.var (-1))
        [applyAll Sample.identity [1], .app (lambda 2 0) (.var .last)]) =
      .error (.unshiftable .last) ∧
    Run.simplify .standard (lambda 1 (applyAll Sample.constant [2, 3])) =
      .ofCleaning (.ok ⟨lambda 1 2, 2⟩) ∧
    ∃ steps last,
      (applyAll Sample.identity [applyAll 0 [applyAll Sample.identity [1]]]).state? steps =
        some last ∧ last.headStep = .ok none ∧
          Limits.standard.SimplifiesApart last (applyAll 0 [1]) := by
  have fits (term : Term) (small : term.nodeCount < 1024) :
      term.size < Limits.standard.maxSize := by
    rw [size_eq_nodeCount]
    exact small
  have identity : (applyAll Sample.identity [1]).cleanAll = .ok ⟨1, 1⟩ :=
    cleanAll_eq_ok_iff.mpr ⟨rfl, rfl⟩
  have constant : (applyAll Sample.constant [2, 3]).cleanAll = .ok ⟨2, 2⟩ :=
    cleanAll_eq_ok_iff.mpr ⟨rfl, rfl⟩
  have stuck : (Term.app (lambda 2 0) (.var .last)).cleanAll = .error (.unshiftable .last) :=
    cleanAll_eq_error_iff.mpr ⟨0, _, rfl, rfl⟩
  obtain ⟨binders, spines, results⟩ := stuck_forms_simplified_apart .standard
  refine ⟨?_, ?_, ?_, ?_⟩
  · apply ((spines _ _ (fits _ (by decide))).1 _).mpr
    refine ⟨[⟨1, 1⟩, ⟨2, 2⟩], ?_, rfl⟩
    simp only [List.map_cons, List.map_nil]
    rw [simplify_of_small (fits _ (by decide)), simplify_of_small (fits _ (by decide)), identity,
      constant]
  · have failed : Limits.standard.simplify (Term.app (lambda 2 0) (.var .last)) =
        .error (.unshiftable .last) :=
      (simplify_eq_error_iff (fits _ (by decide))).mpr stuck
    have small := fits (applyAll (.var (-1))
      [applyAll Sample.identity [1], .app (lambda 2 0) (.var .last)]) (by decide)
    obtain ⟨cause, failedSpine, rfl | deep⟩ :=
      (spines _ _ small).2.2 _ (List.mem_cons_of_mem _ List.mem_cons_self) _ failed
    · exact failedSpine
    · rw [size_eq_nodeCount] at deep
      exact absurd deep (by decide)
  · obtain ⟨outcome, inside, whole⟩ :=
      binders (applyAll Sample.constant [2, 3]) (fits _ (by decide))
    rw [simplify_of_small (fits _ (by decide)), constant] at inside
    rw [← Run.ofCleaning_injective inside] at whole
    exact whole
  · apply results
    have simplified : (⟨1024, 2⟩ : Limits).normalize (applyAll 0 [applyAll Sample.identity [1]]) =
        .ok (applyAll 0 [1]) :=
      (Limits.normalize_eq_simplify rfl (Nat.le_refl 2)).trans
        (Limits.simplify_eq_ok_iff.mpr ⟨fits _ (by decide), 1, rfl, rfl⟩)
    apply normalize_of_state? (rfl : Path.after? headStep 1 _ = some _) _ (Nat.le_refl 1024)
      (by decide) simplified
    intro index lt state reached
    rw [Nat.lt_one_iff.mp lt] at reached
    rw [Path.after?_zero_eq_some_iff.mp reached]
    exact fits _ (by decide)

end NamelessLambda
