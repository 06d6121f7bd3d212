import NamelessLambda.Evaluation.Checked
import NamelessLambda.Proofs.Growth
import NamelessLambda.Proofs.Simplification

/-!
Contract: an evaluation never leaves the machine's ranges.

A term that is stepped or cleaned has fewer nodes than allowed, so it is low and
one step makes it at most quadratically larger. With at most `2 ^ 32` nodes
allowed, every counter stays below `2 ^ 64` and every count of binders below
`2 ^ 63`, and each checked operation does what the unchecked one does.

Owns:
- the checked operations on accepted terms;
- the checked evaluations under limits that a machine can hold.
-/

namespace NamelessLambda.Checked

open Term

/-! ## Computations that do not break off -/

section Computations

variable {α β : Type}

private theorem bind_eq_of {first : Checked α} {plain : Except Failure α} {second : α → Checked β}
    {plainSecond : α → Except Failure β} (same : first = of plain)
    (sameSecond : ∀ value, plain = .ok value → second value = of (plainSecond value)) :
    (first >>= second) = of (plain >>= plainSecond) := by
  subst same
  cases plain with
  | error failure => rfl
  | ok value => exact sameSecond value rfl

private theorem lift_bind {checked : Except Fault α} {value : α} (same : checked = .ok value)
    (second : α → Checked β) : ((liftM checked : Checked α) >>= second) = second value := by
  subst same
  rfl

private theorem ok_bind (value : α) (second : α → Except Fault β) :
    ((.ok value : Except Fault α) >>= second) = second value :=
  rfl

private theorem run_of (plain : Except Failure α) : (of plain).run = .ok plain :=
  rfl

end Computations

/-! ## Arithmetic -/

private theorem add_of_lt {first second : Nat} (fits : first + second < UInt64.size) :
    add first second = .ok (first + second) :=
  if_pos fits

private theorem sub_of_le {first second : Nat} (le : second ≤ first) :
    sub first second = .ok (first - second) :=
  if_pos le

private theorem enter_of_next? {level inner : Level} (found : level.next? = some inner) :
    enter level = .ok inner := by
  obtain ⟨different, rfl⟩ := Level.next?_eq_some_iff.mp found
  exact if_neg different

theorem leave_of_lt {lower level : Level} (above : lower < level) :
    leave level = .ok (level - 1) := by
  apply if_neg
  rintro rfl
  have least : Int64.minValue.toInt ≤ lower.toInt := lower.le_toInt
  have gap := Int64.lt_iff_toInt_lt.mp above
  omega

/-! ## Accepted terms -/

section Accepted

variable {bound : Nat} {term shifted body function argument : Term} {cutoff : Level}

private theorem accept_of (accepted : Accepted bound term) : accept bound term = .ok () :=
  if_pos accepted

private theorem accepted_of_small (small : term.nodeCount < bound) : Accepted bound term where
  height_lt := Nat.lt_of_le_of_lt term.height_le_nodeCount small
  size_lt := Nat.lt_of_lt_of_le small (Nat.le_mul_self bound)

private theorem Accepted.of_lam (accepted : Accepted bound (.lam body)) : Accepted bound body where
  height_lt := by have low := accepted.height_lt; simp only [height] at low; omega
  size_lt := by have few := accepted.size_lt; simp only [nodeCount] at few; omega

private theorem Accepted.of_app_left (accepted : Accepted bound (.app function argument)) :
    Accepted bound function where
  height_lt := by have low := accepted.height_lt; simp only [height] at low; omega
  size_lt := by have few := accepted.size_lt; simp only [nodeCount] at few; omega

private theorem Accepted.of_app_right (accepted : Accepted bound (.app function argument)) :
    Accepted bound argument where
  height_lt := by have low := accepted.height_lt; simp only [height] at low; omega
  size_lt := by have few := accepted.size_lt; simp only [nodeCount] at few; omega

private theorem Accepted.of_shift (accepted : Accepted bound term)
    (ran : term.shift cutoff = .ok shifted) : Accepted bound shifted where
  height_lt := by rw [height_of_shift ran]; exact accepted.height_lt
  size_lt := by rw [nodeCount_of_shift ran]; exact accepted.size_lt

private theorem accepted_of_headStep {next : Term} (small : term.nodeCount < bound)
    (moved : term.headStep = .ok (some next)) : Accepted bound next where
  height_lt := Nat.lt_trans (growsTo_of_headStep moved).height_lt small
  size_lt := Nat.lt_of_le_of_lt (growsTo_of_headStep moved).size_le (Nat.mul_self_lt_mul_self small)

end Accepted

/-! ## Operations -/

section Operations

variable {bound : Nat} {term replacement : Term}

theorem shift_eq {cutoff : Level} (accepted : Accepted bound term)
    (room : cutoff.toInt + term.binderDepth ≤ Level.last.toInt) :
    shift bound cutoff term = of (term.shift cutoff) := by
  induction term generalizing cutoff with
  | var level =>
      rw [shift, lift_bind (accept_of accepted), Term.shift]
      split
      · rfl
      · exact bind_eq_of rfl fun _ _ => rfl
  | lam body inductionHypothesis =>
      simp only [binderDepth] at room
      obtain ⟨inner, found, deeper⟩ :=
        Level.exists_next?_of_lt (by omega : cutoff.toInt < Level.last.toInt)
      rw [shift, lift_bind (accept_of accepted), Term.shift, Level.enter_eq_ok_iff.mpr found]
      refine (lift_bind (enter_of_next? found) _).trans ?_
      exact bind_eq_of (inductionHypothesis accepted.of_lam (by omega)) fun _ _ => rfl
  | app function argument functionHypothesis argumentHypothesis =>
      simp only [binderDepth] at room
      rw [shift, lift_bind (accept_of accepted), Term.shift]
      apply bind_eq_of (functionHypothesis accepted.of_app_left (by omega))
      intro function' _
      exact bind_eq_of (argumentHypothesis accepted.of_app_right (by omega)) fun _ _ => rfl

/-- The size of the term only matters for the sum of the copies. -/
theorem substitute_eq {target : Level} (counted : term.nodeCount < UInt64.size)
    (accepted : Accepted bound term) (acceptedArgument : Accepted bound replacement)
    (room : target.toInt + term.binderDepth ≤ Level.last.toInt)
    (shallow : replacement.binderDepth ≤ Level.last.toInt) :
    substitute bound term replacement target = of (term.substitute replacement target) := by
  induction term generalizing replacement target with
  | var level =>
      rw [substitute, lift_bind (accept_of accepted), lift_bind (accept_of acceptedArgument),
        Term.substitute]
      split
      · rfl
      · rename_i different
        split
        · rfl
        · rename_i notBelow
          have above : target < level := by
            rw [Int64.lt_iff_toInt_lt] at notBelow ⊢
            have distinct : level.toInt ≠ target.toInt := fun same =>
              different (Int64.toInt_inj.mp same)
            omega
          exact lift_bind (leave_of_lt above) _
  | lam body inductionHypothesis =>
      simp only [binderDepth] at room
      simp only [nodeCount] at counted
      obtain ⟨inner, found, deeper⟩ :=
        Level.exists_next?_of_lt (by omega : target.toInt < Level.last.toInt)
      rw [substitute, lift_bind (accept_of accepted), lift_bind (accept_of acceptedArgument),
        Term.substitute, Level.enter_eq_ok_iff.mpr found]
      have zero : (0 : Level).toInt = 0 := rfl
      apply bind_eq_of (shift_eq acceptedArgument (by omega))
      intro shifted ranShift
      refine (lift_bind (enter_of_next? found) _).trans ?_
      rw [← binderDepth_of_shift ranShift] at shallow
      exact bind_eq_of (inductionHypothesis (by omega) accepted.of_lam
        (acceptedArgument.of_shift ranShift) (by omega) shallow) fun _ _ => rfl
  | app function argument functionHypothesis argumentHypothesis =>
      simp only [binderDepth] at room
      simp only [nodeCount] at counted
      rw [substitute, lift_bind (accept_of accepted), lift_bind (accept_of acceptedArgument),
        Term.substitute]
      apply bind_eq_of
        (functionHypothesis (by omega) accepted.of_app_left acceptedArgument (by omega) shallow)
      intro first ranFunction
      apply bind_eq_of
        (argumentHypothesis (by omega) accepted.of_app_right acceptedArgument (by omega) shallow)
      intro second ranArgument
      -- There are no more copies than nodes to put them on.
      have fewFunction := copies_le_nodeCount ranFunction
      have fewArgument := copies_le_nodeCount ranArgument
      exact lift_bind (add_of_lt (by omega)) _

end Operations

/-! ## Limits that a machine can hold -/

section Machine

variable {bound : Nat} {term : Term}

/-- Counters and levels have room for what happens to terms of fewer nodes than `bound`. -/
structure Holds (bound : Nat) : Prop where
  word : bound * bound ≤ UInt64.size
  shallow : bound < Level.last.toInt

private theorem holds_of_le (le : bound ≤ UInt32.size) : Holds bound where
  word := Nat.mul_self_le_mul_self le
  shallow := by
    have size : UInt32.size = 4294967296 := rfl
    rw [Level.toInt_last]
    omega

private theorem Holds.redex_eq (holds : Holds bound) {body argument : Term}
    (accepted : Accepted bound (.app (.lam body) argument)) :
    substitute bound body argument 0 = of (body.substitute argument 0) := by
  have acceptedBody := accepted.of_app_left.of_lam
  have low := Nat.lt_trans body.binderDepth_lt_height acceptedBody.height_lt
  have lowArgument := Nat.lt_trans argument.binderDepth_lt_height accepted.of_app_right.height_lt
  have shallow := holds.shallow
  have zero : (0 : Level).toInt = 0 := rfl
  exact substitute_eq (Nat.lt_of_lt_of_le acceptedBody.size_lt holds.word) acceptedBody
    accepted.of_app_right (by omega) (by omega)

theorem Holds.headStep_eq (holds : Holds bound) (accepted : Accepted bound term) :
    headStep bound term = of term.headStep := by
  fun_induction Term.headStep term with
  | case1 level sentinel =>
      rw [headStep, lift_bind (accept_of accepted), if_pos sentinel]
  | case2 level inScope =>
      rw [headStep, lift_bind (accept_of accepted), if_neg inScope]
      rfl
  | case3 body =>
      rw [headStep, lift_bind (accept_of accepted)]
      rfl
  | case4 body argument =>
      rw [headStep, lift_bind (accept_of accepted)]
      exact bind_eq_of (holds.redex_eq accepted) fun _ _ => rfl
  | case5 function argument other inductionHypothesis =>
      rw [headStep, lift_bind (accept_of accepted)]
      · exact bind_eq_of (inductionHypothesis accepted.of_app_left) fun _ _ => rfl
      · exact other

private theorem Holds.contractFrugal_eq (holds : Holds bound) {function argument : Term}
    (accepted : Accepted bound (.app function argument)) :
    contractFrugal bound function argument = of (Term.contractFrugal function argument) := by
  cases function with
  | var level => rfl
  | lam body => exact bind_eq_of (holds.redex_eq accepted) fun _ _ => rfl
  | app inner last => rfl

theorem Holds.clean_eq (holds : Holds bound) (accepted : Accepted bound term) :
    clean bound term = of term.clean := by
  induction term with
  | var level =>
      rw [clean, lift_bind (accept_of accepted)]
      rfl
  | lam body inductionHypothesis =>
      rw [clean, lift_bind (accept_of accepted)]
      exact bind_eq_of (inductionHypothesis accepted.of_lam) fun _ _ => rfl
  | app function argument functionHypothesis argumentHypothesis =>
      rw [clean, lift_bind (accept_of accepted)]
      apply bind_eq_of (holds.contractFrugal_eq accepted)
      intro contraction _
      cases contraction with
      | some reduced => rfl
      | none =>
          apply bind_eq_of (functionHypothesis accepted.of_app_left)
          intro function' _
          exact bind_eq_of (argumentHypothesis accepted.of_app_right) fun _ _ => rfl

/-- Each pass takes nodes away, so there are fewer passes than nodes at the start. -/
private theorem Holds.cleanAllFrom_eq (holds : Holds bound) {passes : Nat}
    (small : term.nodeCount < bound) (few : passes + term.nodeCount < UInt64.size) :
    cleanAllFrom bound passes term = of (term.cleanAllFrom passes) := by
  fun_induction Term.cleanAllFrom passes term with
  | case1 passes term failure failed =>
      rw [cleanAllFrom, holds.clean_eq (accepted_of_small small), failed]
      rfl
  | case2 passes term settled =>
      rw [cleanAllFrom, holds.clean_eq (accepted_of_small small), settled]
      rfl
  | case3 passes term cleaned ran inductionHypothesis =>
      have smaller := nodeCount_of_clean ran
      rw [cleanAllFrom, holds.clean_eq (accepted_of_small small), ran]
      refine Eq.trans (if_pos (by omega)) ?_
      exact inductionHypothesis (by omega) (by omega)

end Machine

/-! ## Evaluations -/

private theorem sizeOnto_eq {counted : Nat} {pending : List Term}
    (few : counted + totalNodes pending < UInt64.size) :
    sizeOnto counted pending = .ok (Term.sizeOnto counted pending) := by
  fun_induction Term.sizeOnto counted pending with
  | case1 counted => rw [sizeOnto]
  | case2 counted level pending inductionHypothesis =>
      simp only [totalNodes, nodeCount] at few
      rw [sizeOnto, add_of_lt (by omega)]
      exact inductionHypothesis (by omega)
  | case3 counted body pending inductionHypothesis =>
      simp only [totalNodes, nodeCount] at few inductionHypothesis
      rw [sizeOnto, add_of_lt (by omega)]
      exact inductionHypothesis (by omega)
  | case4 counted function argument pending inductionHypothesis =>
      simp only [totalNodes, nodeCount] at few inductionHypothesis
      rw [sizeOnto, add_of_lt (by omega)]
      exact inductionHypothesis (by omega)

theorem size_eq {term : Term} (few : term.nodeCount < UInt64.size) :
    size term = .ok term.size :=
  sizeOnto_eq (by simpa only [totalNodes, Nat.zero_add, Nat.add_zero] using few)

section Evaluations

variable {limits : Limits} {term current next : Term} {events : Array Event}
  {visited : Std.HashSet Term}

private theorem Holds.lt_word {bound count : Nat} (holds : Holds bound)
    (le : count < bound * bound) : count < UInt64.size :=
  Nat.lt_of_lt_of_le le holds.word

private theorem Holds.simplifyFrom_eq (holds : Holds limits.maxSize)
    (few : term.nodeCount < UInt64.size) (events : Array Event) :
    simplifyFrom limits events term = .ok (Run.simplifyFrom limits events term) := by
  rw [simplifyFrom, size_eq few, ok_bind, Run.simplifyFrom]
  split
  · rfl
  · rename_i small
    rw [size_eq_nodeCount, Nat.not_le] at small
    rw [holds.cleanAllFrom_eq small (by omega), run_of, ok_bind]
    cases ran : term.cleanAll with
    | error failure =>
        rw [show term.cleanAllFrom 0 = .error failure from ran]
        rfl
    | ok cleaned =>
        have smaller := nodeCount_of_after?_clean (cleanAll_eq_ok_iff.mp ran).1
        rw [show term.cleanAllFrom 0 = .ok cleaned from ran]
        simp only [size_eq (by omega : cleaned.term.nodeCount < UInt64.size),
          accept_of (accepted_of_small (by omega : cleaned.term.nodeCount < limits.maxSize)),
          ok_bind]
        rfl

/-- One round of the loop, if it steps: the new term is measured and shown, and then checked. -/
private theorem Holds.normalizeFrom_of_moves (holds : Holds limits.maxSize)
    (small : current.nodeCount < limits.maxSize) (room : ¬ limits.maxStates ≤ visited.size)
    (moved : current.headStep = .ok (some next)) :
    normalizeFrom limits visited events current =
      if limits.maxSize ≤ next.size then
        .ok ⟨events.push (.stepped next visited.size next.size),
          .error (.oversized next.size limits.maxSize)⟩
      else if next ∈ visited then
        .ok ⟨events.push (.stepped next visited.size next.size), .error (.cyclic visited.size)⟩
      else
        normalizeFrom limits (visited.insert next)
          (events.push (.stepped next visited.size next.size)) next := by
  have accepted := accepted_of_headStep small moved
  rw [normalizeFrom, if_neg room, holds.headStep_eq (accepted_of_small small), run_of, ok_bind,
    moved]
  simp only [size_eq (holds.lt_word accepted.size_lt), accept_of accepted, ok_bind]
  rfl

private theorem Holds.normalizeFrom_eq (holds : Holds limits.maxSize)
    (small : current.nodeCount < limits.maxSize) (started : 0 < visited.size) :
    normalizeFrom limits visited events current =
      .ok (Run.normalizeFrom limits visited events current) := by
  fun_induction Run.normalizeFrom limits visited events current with
  | case1 visited events current full =>
      rw [normalizeFrom, if_pos full]
      rfl
  | case2 visited events current room failure fails =>
      rw [normalizeFrom, if_neg room, holds.headStep_eq (accepted_of_small small), run_of, ok_bind,
        fails]
      rfl
  | case3 visited events current room settles =>
      rw [normalizeFrom, if_neg room, holds.headStep_eq (accepted_of_small small), run_of, ok_bind,
        settles]
      simp only [sub_of_le started, ok_bind]
      exact holds.simplifyFrom_eq (holds.lt_word (accepted_of_small small).size_lt) _
  | case4 visited events current room next moved size reported large =>
      rw [holds.normalizeFrom_of_moves small room moved, if_pos large]
  | case5 visited events current room next moved size reported limited met =>
      rw [holds.normalizeFrom_of_moves small room moved, if_neg limited, if_pos met]
  | case6 visited events current room next moved size reported limited new inductionHypothesis =>
      rw [holds.normalizeFrom_of_moves small room moved, if_neg limited, if_neg new]
      apply inductionHypothesis
      · rw [← size_eq_nodeCount]
        exact Nat.not_le.mp limited
      · rw [Std.HashSet.size_insert, if_neg new]
        exact Nat.succ_pos _

theorem Holds.simplify_eq (holds : Holds limits.maxSize) (few : term.nodeCount < UInt64.size) :
    simplify limits term = .ok (Run.simplify limits term) :=
  holds.simplifyFrom_eq few #[]

theorem Holds.normalize_eq (holds : Holds limits.maxSize) (few : term.nodeCount < UInt64.size) :
    normalize limits term = .ok (Run.normalize limits term) := by
  rw [normalize, size_eq few, ok_bind, Run.normalize]
  split
  · rfl
  · rename_i small
    rw [size_eq_nodeCount, Nat.not_le] at small
    rw [accept_of (accepted_of_small small), ok_bind]
    apply holds.normalizeFrom_eq small
    rw [(visiting_start (size_eq_nodeCount term ▸ small)).size_eq]
    exact Nat.one_pos

theorem Holds.evaluate_eq (holds : Holds limits.maxSize) (few : term.nodeCount < UInt64.size) :
    evaluate limits term = .ok (Run.evaluate limits term) := by
  unfold evaluate Run.evaluate
  split
  · exact holds.simplify_eq few
  · exact holds.normalize_eq few

end Evaluations

end NamelessLambda.Checked

namespace NamelessLambda

open Term

/-! ## Binders -/

section Binders

variable {limits : Limits} {term : Term}

private theorem Failure.OfBinding.ne_binderOverflow {binders : Int} {failure : Failure}
    (cause : failure.OfBinding binders) (shallow : binders ≤ Level.last.toInt) :
    failure ≠ .binderOverflow := by
  rw [cause.eq_unshiftable shallow]
  intro same
  cases same

private theorem simplify_ne_binderOverflow (shallow : limits.maxSize < Level.last.toInt) :
    limits.simplify term ≠ .error .binderOverflow := by
  intro failed
  rcases Nat.lt_or_ge term.size limits.maxSize with small | large
  · rw [size_eq_nodeCount] at small
    rcases cause_of_simplify failed with impossible | binding
    · cases impossible
    · exact binding.ne_binderOverflow (by omega) rfl
  · rw [Limits.simplify, simplify_of_large large] at failed
    cases failed

private theorem normalize_ne_binderOverflow (shallow : limits.maxSize < Level.last.toInt) :
    limits.normalize term ≠ .error .binderOverflow := by
  intro failed
  obtain ⟨steps, last, _, fresh, reached, failing⟩ := (normalize_eq_error_iff rfl).mp failed
  have small := fresh.size_lt (Nat.lt_succ_self steps) reached
  rw [size_eq_nodeCount] at small
  have depth := binderDepth_lt_nodeCount last
  rcases failing with fails | ⟨_, failsCleaning⟩
  · rcases cause_of_headStep fails with ⟨_, _, _, _, impossible⟩ | binding
    · cases impossible
    · exact binding.ne_binderOverflow (by omega) rfl
  · exact (ofBinding_of_cleanAll failsCleaning).ne_binderOverflow (by omega) rfl

private theorem evaluate_ne_binderOverflow (shallow : limits.maxSize < Level.last.toInt) :
    limits.evaluate term ≠ .error .binderOverflow := by
  unfold Limits.evaluate Run.evaluate
  split
  · exact simplify_ne_binderOverflow shallow
  · exact normalize_ne_binderOverflow shallow

end Binders

/-! ## Reported terms -/

/-- Term that an event shows. -/
def Event.term? : Event → Option Term
  | .normalizing term _ | .stepped term _ _ | .simplified term _ _ => some term
  | .settled _ => none

/-- All terms that the events show are accepted. -/
def Event.Bounded (bound : Nat) (events : Array Event) : Prop :=
  ∀ event ∈ events, ∀ term, event.term? = some term → Checked.Accepted bound term

section Reported

variable {limits : Limits} {events : Array Event} {current term : Term}
  {visited : Std.HashSet Term}

private theorem Event.Bounded.push_settled {bound : Nat} (all : Event.Bounded bound events)
    (steps : Nat) : Event.Bounded bound (events.push (.settled steps)) := by
  intro other member shown sameShown
  rcases Array.mem_push.mp member with earlier | rfl
  · exact all other earlier shown sameShown
  · cases sameShown

private theorem Event.Bounded.push_term {bound : Nat} {event : Event}
    (all : Event.Bounded bound events)
    (shows : event.term? = some term) (accepted : Checked.Accepted bound term) :
    Event.Bounded bound (events.push event) := by
  intro other member shown sameShown
  rcases Array.mem_push.mp member with earlier | rfl
  · exact all other earlier shown sameShown
  · rw [shows] at sameShown
    rw [← Option.some.inj sameShown]
    exact accepted

private theorem bounded_empty (bound : Nat) : Event.Bounded bound #[] :=
  fun _ member => absurd member (Array.not_mem_empty _)

private theorem bounded_simplifyFrom (all : Event.Bounded limits.maxSize events) :
    Event.Bounded limits.maxSize (Run.simplifyFrom limits events term).events := by
  unfold Run.simplifyFrom
  split
  · exact all
  · rename_i small
    rw [size_eq_nodeCount, Nat.not_le] at small
    cases ran : term.cleanAll with
    | error failure => exact all
    | ok cleaned =>
        have smaller := nodeCount_of_after?_clean (cleanAll_eq_ok_iff.mp ran).1
        exact all.push_term rfl (Checked.accepted_of_small (by omega))

/-- The term that a step leads to is reported before its size is checked. -/
private theorem bounded_normalizeFrom (small : current.nodeCount < limits.maxSize)
    (all : Event.Bounded limits.maxSize events) :
    Event.Bounded limits.maxSize (Run.normalizeFrom limits visited events current).events := by
  fun_induction Run.normalizeFrom limits visited events current with
  | case1 visited events current full => exact all
  | case2 visited events current room failure fails => exact all
  | case3 visited events current room settles =>
      exact bounded_simplifyFrom (all.push_settled _)
  | case4 visited events current room next moved size reported large =>
      exact all.push_term rfl (Checked.accepted_of_headStep small moved)
  | case5 visited events current room next moved size reported limited met =>
      exact all.push_term rfl (Checked.accepted_of_headStep small moved)
  | case6 visited events current room next moved size reported limited new inductionHypothesis =>
      have limitedNext : next.nodeCount < limits.maxSize := by
        rw [← size_eq_nodeCount]
        exact Nat.not_le.mp limited
      apply inductionHypothesis limitedNext
      exact all.push_term rfl (Checked.accepted_of_headStep small moved)

private theorem bounded_normalize (limits : Limits) (term : Term) :
    Event.Bounded limits.maxSize (Run.normalize limits term).events := by
  unfold Run.normalize
  by_cases large : limits.maxSize ≤ term.size
  · rw [if_pos large]
    exact bounded_empty _
  · rw [if_neg large]
    rw [size_eq_nodeCount, Nat.not_le] at large
    apply bounded_normalizeFrom large
    exact (bounded_empty _).push_term rfl (Checked.accepted_of_small large)

private theorem bounded_evaluate (limits : Limits) (term : Term) :
    Event.Bounded limits.maxSize (Run.evaluate limits term).events := by
  unfold Run.evaluate
  split
  · exact bounded_simplifyFrom (bounded_empty _)
  · exact bounded_normalize limits term

end Reported

/-- On a start whose nodes can be counted and with at most as many nodes allowed as half a word
holds, no evaluation breaks off: all arithmetic stays within its types, and every term that is
stepped, cleaned, substituted, shifted or shown is lower than the bound and smaller than its square.
A step explains why, whatever the limits are. -/
theorem evaluation_within_machine (limits : Limits) (start : Term) :
    (start.nodeCount < UInt64.size → limits.maxSize ≤ UInt32.size →
      Checked.simplify limits start = .ok (Run.simplify limits start) ∧
      Checked.normalize limits start = .ok (Run.normalize limits start) ∧
      Checked.evaluate limits start = .ok (Run.evaluate limits start) ∧
      limits.simplify start ≠ .error .binderOverflow ∧
      limits.normalize start ≠ .error .binderOverflow ∧
      limits.evaluate start ≠ .error .binderOverflow) ∧
    (∀ state next, state.headStep = .ok (some next) → GrowsTo state next) ∧
    (∀ evaluation ∈ [Run.simplify, Run.normalize, Run.evaluate],
      Event.Bounded limits.maxSize (evaluation limits start).events) := by
  refine ⟨?_, fun _ _ => growsTo_of_headStep,
    forall_evaluations (bounded_simplifyFrom (bounded_empty _)) (bounded_normalize limits start)
      (bounded_evaluate limits start)⟩
  intro counted allowed
  have holds := Checked.holds_of_le allowed
  exact ⟨holds.simplify_eq counted, holds.normalize_eq counted, holds.evaluate_eq counted,
    simplify_ne_binderOverflow holds.shallow, normalize_ne_binderOverflow holds.shallow,
    evaluate_ne_binderOverflow holds.shallow⟩

/-- Applied to itself, it leads to itself applied to itself twice. -/
def Term.Sample.triplicator : Term := lambda 1 (applyAll 0 [0, 0])

theorem triplicator_within_machine :
    Checked.normalize .standard (Sample.triplicator.applyAll [Sample.triplicator]) =
        .ok (Run.normalize .standard (Sample.triplicator.applyAll [Sample.triplicator])) ∧
      Limits.standard.normalize (Sample.triplicator.applyAll [Sample.triplicator]) ≠
        .error .binderOverflow ∧
      GrowsTo (Sample.triplicator.applyAll [Sample.triplicator])
        (Sample.triplicator.applyAll [Sample.triplicator, Sample.triplicator]) ∧
      Event.Bounded Limits.standard.maxSize
        (Run.normalize .standard (Sample.triplicator.applyAll [Sample.triplicator])).events := by
  have within :=
    evaluation_within_machine .standard (Sample.triplicator.applyAll [Sample.triplicator])
  have machine := within.1 (by decide) (by decide)
  exact ⟨machine.2.1, machine.2.2.2.2.1, within.2.1 _ _ rfl, within.2.2 Run.normalize (by simp)⟩

end NamelessLambda
