import NamelessLambda.Evaluation.Run
import NamelessLambda.Proofs.Cleaning
import NamelessLambda.Term.Samples

/-!
Contract: the exact outcome of the bounded stepping loop.

The loop meets the terms that the head steps lead to, one after the other, and
its visited set holds those met so far. It leaves in one of six ways, and each
outcome arises from exactly one of them.

Owns:
- `Term.state?`, the successive terms, and `FreshRun`, what the loop has checked
  of those it has met;
- `StepsTo`, the ways in which the loop ends;
- the conditions under which `normalize` succeeds and fails.

Does not own:
- the events, apart from the number of steps they report.
-/

namespace NamelessLambda

open Term

/-- Term after `steps` head steps from `start`, if all of them are made. -/
abbrev Term.state? (start : Term) (steps : Nat) : Option Term := Path.after? headStep steps start

/-- The first `count` terms of a run exist, have fewer than `bound` nodes and differ. -/
structure FreshRun (start : Term) (bound count : Nat) : Prop where
  small : ∀ index < count, ∃ state, start.state? index = some state ∧ state.size < bound
  distinct : ∀ first second, first < second → second < count →
    start.state? first ≠ start.state? second

/-! ## What the loop remembers -/

/-- Memory of the stepping loop when `current` has been reached by `steps` steps. -/
structure Visiting (limits : Limits) (start : Term) (visited : Std.HashSet Term)
    (current : Term) (steps : Nat) : Prop where
  fresh : FreshRun start limits.maxSize (steps + 1)
  reached : start.state? steps = some current
  within : steps = 0 ∨ steps < limits.maxStates
  size_eq : visited.size = steps + 1
  mem_iff : ∀ term, term ∈ visited ↔ ∃ index ≤ steps, start.state? index = some term

private theorem FreshRun.take {start : Term} {bound fewer count : Nat}
    (fresh : FreshRun start bound count) (le : fewer ≤ count) : FreshRun start bound fewer where
  small index lt := fresh.small index (by omega)
  distinct first second order lt := fresh.distinct first second order (by omega)

private theorem FreshRun.append {start next : Term} {bound count : Nat}
    (fresh : FreshRun start bound count) (reached : start.state? count = some next)
    (small : next.size < bound) (new : ∀ index < count, start.state? index ≠ some next) :
    FreshRun start bound (count + 1) where
  small index lt := by
    rcases Nat.lt_succ_iff_lt_or_eq.mp lt with earlier | rfl
    · exact fresh.small index earlier
    · exact ⟨next, reached, small⟩
  distinct first second order lt := by
    rcases Nat.lt_succ_iff_lt_or_eq.mp lt with earlier | rfl
    · exact fresh.distinct first second order earlier
    · rw [reached]
      exact new first order

theorem freshRun_one {start : Term} {bound : Nat} (small : start.size < bound) :
    FreshRun start bound 1 where
  small index lt := ⟨start, by rw [Nat.lt_one_iff.mp lt]; rfl, small⟩
  distinct first second order lt := by omega

theorem visiting_start {limits : Limits} {start : Term} (small : start.size < limits.maxSize) :
    Visiting limits start (Std.HashSet.emptyWithCapacity.insert start) start 0 where
  fresh := freshRun_one small
  reached := rfl
  within := .inl rfl
  size_eq := by simp [Std.HashSet.size_insert]
  mem_iff term := by simp [Path.after?]

theorem Visiting.step {limits : Limits} {start current next : Term} {visited : Std.HashSet Term}
    {steps : Nat} (loop : Visiting limits start visited current steps)
    (room : steps + 1 < limits.maxStates) (moved : current.headStep = .ok (some next))
    (small : next.size < limits.maxSize) (new : next ∉ visited) :
    Visiting limits start (visited.insert next) next (steps + 1) := by
  have reachedNext : start.state? (steps + 1) = some next :=
    Path.after?_succ_of_moves loop.reached moved
  have unmet : ∀ index < steps + 1, start.state? index ≠ some next := by
    intro index lt met
    exact new ((loop.mem_iff next).mpr ⟨index, Nat.le_of_lt_succ lt, met⟩)
  refine ⟨loop.fresh.append reachedNext small unmet, reachedNext, .inr room, ?_, ?_⟩
  · rw [Std.HashSet.size_insert, if_neg new, loop.size_eq]
  · intro term
    rw [Std.HashSet.mem_insert, loop.mem_iff, beq_iff_eq]
    constructor
    · rintro (rfl | ⟨index, le, met⟩)
      · exact ⟨steps + 1, Nat.le_refl _, reachedNext⟩
      · exact ⟨index, Nat.le_succ_of_le le, met⟩
    · rintro ⟨index, le, met⟩
      rcases Nat.le_succ_iff.mp le with earlier | rfl
      · exact .inr ⟨index, earlier, met⟩
      · rw [reachedNext] at met
        exact .inl (Option.some.inj met)

theorem FreshRun.size_lt {start state : Term} {bound count index : Nat}
    (fresh : FreshRun start bound count) (lt : index < count)
    (reached : start.state? index = some state) : state.size < bound := by
  obtain ⟨same, reachedSame, small⟩ := fresh.small index lt
  rw [reached] at reachedSame
  rw [Option.some.inj reachedSame]
  exact small

section Loop

variable {limits : Limits} {start current next : Term} {visited : Std.HashSet Term} {steps : Nat}

theorem Visiting.size_lt (loop : Visiting limits start visited current steps) :
    current.size < limits.maxSize :=
  loop.fresh.size_lt (Nat.lt_succ_self steps) loop.reached

private theorem Visiting.eq_of_reached (loop : Visiting limits start visited current steps)
    {last : Term} (reached : start.state? steps = some last) : last = current := by
  rw [loop.reached] at reached
  exact (Option.some.inj reached).symm

private theorem Visiting.moved_of_reached (loop : Visiting limits start visited current steps)
    (reached : start.state? (steps + 1) = some next) : current.headStep = .ok (some next) := by
  obtain ⟨before, reachedBefore, moved⟩ := Path.after?_succ_eq_some_iff_last.mp reached
  rw [loop.eq_of_reached reachedBefore] at moved
  exact moved

end Loop

/-! ## The ways out of the loop -/

/-- Outcome of stepping from `start` within `limits`, by what the run of head steps is. -/
inductive StepsTo (limits : Limits) (start : Term) : Except Failure Term → Prop where
  /-- The start itself is too large. -/
  | rejected (large : limits.maxSize ≤ start.size) :
      StepsTo limits start (.error (.oversized start.size limits.maxSize))
  /-- No further term may be visited. -/
  | exhausted {steps : Nat} (fresh : FreshRun start limits.maxSize (steps + 1))
      (within : steps = 0 ∨ steps < limits.maxStates) (full : limits.maxStates ≤ steps + 1) :
      StepsTo limits start (.error (.exhausted (steps + 1) limits.maxStates))
  /-- A step fails. -/
  | failed {steps : Nat} {last : Term} {failure : Failure}
      (fresh : FreshRun start limits.maxSize (steps + 1)) (room : steps + 1 < limits.maxStates)
      (reached : start.state? steps = some last) (fails : last.headStep = .error failure) :
      StepsTo limits start (.error failure)
  /-- No step applies, and the last term is cleaned. -/
  | settled {steps : Nat} {last : Term} {outcome : Except Failure Term}
      (fresh : FreshRun start limits.maxSize (steps + 1)) (room : steps + 1 < limits.maxStates)
      (reached : start.state? steps = some last) (settles : last.headStep = .ok none)
      (cleans : Cleaned.term <$> last.cleanAll = outcome) : StepsTo limits start outcome
  /-- A step leads to a term that is too large. -/
  | outgrown {steps : Nat} {next : Term} (fresh : FreshRun start limits.maxSize (steps + 1))
      (room : steps + 1 < limits.maxStates) (reached : start.state? (steps + 1) = some next)
      (large : limits.maxSize ≤ next.size) :
      StepsTo limits start (.error (.oversized next.size limits.maxSize))
  /-- A step leads to a term met before. -/
  | repeated {steps index : Nat} {next : Term}
      (fresh : FreshRun start limits.maxSize (steps + 1)) (room : steps + 1 < limits.maxStates)
      (reached : start.state? (steps + 1) = some next) (le : index ≤ steps)
      (earlier : start.state? index = some next) :
      StepsTo limits start (.error (.cyclic (steps + 1)))

theorem outcome_simplifyFrom (limits : Limits) (events : Array Event) (term : Term) :
    (Run.simplifyFrom limits events term).outcome =
      if limits.maxSize ≤ term.size then .error (.oversized term.size limits.maxSize)
      else Cleaned.term <$> term.cleanAll := by
  unfold Run.simplifyFrom
  split
  · rfl
  · cases term.cleanAll <;> rfl

/-- The loop ends in one of these ways, whatever it has reported so far. -/
private theorem Visiting.stepsTo {limits : Limits} {start current : Term}
    {visited : Std.HashSet Term}
    {steps : Nat} (loop : Visiting limits start visited current steps) (events : Array Event) :
    StepsTo limits start (Run.normalizeFrom limits visited events current).outcome := by
  -- One case for each exit of the loop body, and the last one for the next round.
  fun_induction Run.normalizeFrom limits visited events current generalizing steps with
  | case1 visited events current full =>
      rw [loop.size_eq] at full ⊢
      exact .exhausted loop.fresh loop.within full
  | case2 visited events current room failure fails =>
      rw [loop.size_eq, Nat.not_le] at room
      exact .failed loop.fresh room loop.reached fails
  | case3 visited events current room settles =>
      rw [loop.size_eq, Nat.not_le] at room
      rw [outcome_simplifyFrom, if_neg (Nat.not_le.mpr loop.size_lt)]
      exact .settled loop.fresh room loop.reached settles rfl
  | case4 visited events current room next moved size reported =>
      rename_i large
      rw [loop.size_eq, Nat.not_le] at room
      exact .outgrown loop.fresh room (Path.after?_succ_of_moves loop.reached moved) large
  | case5 visited events current room next moved size reported small =>
      rename_i met
      rw [loop.size_eq, Nat.not_le] at room
      obtain ⟨index, le, earlier⟩ := (loop.mem_iff next).mp met
      rw [loop.size_eq]
      exact .repeated loop.fresh room (Path.after?_succ_of_moves loop.reached moved) le earlier
  | case6 visited events current room next moved size reported small new =>
      rename_i inductionHypothesis
      rw [loop.size_eq, Nat.not_le] at room
      exact inductionHypothesis (loop.step room moved (Nat.not_le.mp small) new)

theorem normalize_stepsTo (limits : Limits) (start : Term) :
    StepsTo limits start (limits.normalize start) := by
  unfold Limits.normalize Run.normalize
  by_cases large : limits.maxSize ≤ start.size
  · rw [if_pos large]
    exact .rejected large
  · rw [if_neg large]
    exact (visiting_start (Nat.not_le.mp large)).stepsTo _

/-! ## Each exit is taken -/

/-- The loop gets as far as the run is fresh and the limit on visited terms allows. -/
private theorem exists_visiting {limits : Limits} {start : Term} {steps : Nat}
    (fresh : FreshRun start limits.maxSize (steps + 1))
    (within : steps = 0 ∨ steps < limits.maxStates) :
    ∃ visited events current, Visiting limits start visited current steps ∧
      limits.normalize start = (Run.normalizeFrom limits visited events current).outcome := by
  induction steps with
  | zero =>
      obtain ⟨_, reached, small⟩ := fresh.small 0 Nat.one_pos
      rw [Path.after?_zero_eq_some_iff.mp reached] at small
      refine ⟨_, #[.normalizing start start.size], _, visiting_start small, ?_⟩
      unfold Limits.normalize Run.normalize
      rw [if_neg (Nat.not_le.mpr small)]
  | succ steps inductionHypothesis =>
      have room : steps + 1 < limits.maxStates := by omega
      obtain ⟨visited, events, current, loop, same⟩ :=
        inductionHypothesis (fresh.take (Nat.le_succ _)) (.inr (by omega))
      obtain ⟨next, reached, small⟩ := fresh.small (steps + 1) (Nat.lt_succ_self _)
      have moved := loop.moved_of_reached reached
      have new : next ∉ visited := by
        intro met
        obtain ⟨index, le, earlier⟩ := (loop.mem_iff next).mp met
        apply fresh.distinct index (steps + 1) (by omega) (by omega)
        rw [earlier, reached]
      refine ⟨_, events.push (.stepped next visited.size next.size), _,
        loop.step room moved small new, ?_⟩
      rw [same, Run.normalizeFrom, if_neg (by rw [loop.size_eq]; omega), moved]
      simp only [if_neg (Nat.not_le.mpr small), if_neg new]

theorem normalize_of_stepsTo {limits : Limits} {start : Term} {outcome : Except Failure Term}
    (exit : StepsTo limits start outcome) : limits.normalize start = outcome := by
  cases exit with
  | rejected large =>
      unfold Limits.normalize Run.normalize
      rw [if_pos large]
  | exhausted fresh within full =>
      obtain ⟨visited, events, current, loop, same⟩ := exists_visiting fresh within
      rw [same, Run.normalizeFrom, loop.size_eq, if_pos full]
  | failed fresh room reached fails =>
      obtain ⟨visited, events, current, loop, same⟩ := exists_visiting fresh (.inr (by omega))
      rw [loop.eq_of_reached reached] at fails
      rw [same, Run.normalizeFrom, loop.size_eq, if_neg (Nat.not_le.mpr room), fails]
  | settled fresh room reached settles cleans =>
      obtain ⟨visited, events, current, loop, same⟩ := exists_visiting fresh (.inr (by omega))
      rw [loop.eq_of_reached reached] at settles cleans
      rw [same, Run.normalizeFrom, loop.size_eq, if_neg (Nat.not_le.mpr room), settles]
      simp only [outcome_simplifyFrom, if_neg (Nat.not_le.mpr loop.size_lt), cleans]
  | outgrown fresh room reached large =>
      obtain ⟨visited, events, current, loop, same⟩ := exists_visiting fresh (.inr (by omega))
      rw [same, Run.normalizeFrom, loop.size_eq, if_neg (Nat.not_le.mpr room),
        loop.moved_of_reached reached]
      simp only [if_pos large]
  | @repeated steps index next fresh room reached le earlier =>
      obtain ⟨visited, events, current, loop, same⟩ := exists_visiting fresh (.inr (by omega))
      have met : next ∈ visited := (loop.mem_iff next).mpr ⟨index, le, earlier⟩
      have small : next.size < limits.maxSize := fresh.size_lt (Nat.lt_succ_of_le le) earlier
      rw [same, Run.normalizeFrom, loop.size_eq, if_neg (Nat.not_le.mpr room),
        loop.moved_of_reached reached]
      simp only [if_neg (Nat.not_le.mpr small), if_pos met]

/-! ## Outcomes -/

/-- Failure that a limit or a repetition of the stepping loop causes. -/
def Failure.isGuard : Failure → Bool
  | .oversized _ _ | .exhausted _ _ | .cyclic _ => true
  | _ => false

theorem Failure.OfBinding.isGuard {binders : Int} {failure : Failure}
    (cause : failure.OfBinding binders) : failure.isGuard = false := by
  rcases cause with rfl | ⟨rfl, _⟩ <;> rfl

theorem isGuard_of_headStep {term : Term} {failure : Failure}
    (failed : term.headStep = .error failure) : failure.isGuard = false := by
  rcases cause_of_headStep failed with ⟨_, _, _, _, rfl⟩ | binding
  · rfl
  · exact binding.isGuard

private theorem isGuard_of_cleanAll {term : Term} {failure : Failure}
    (failed : Cleaned.term <$> term.cleanAll = .error failure) : failure.isGuard = false :=
  (ofBinding_of_cleanAll (Failure.map_eq_error_iff.mp failed)).isGuard

/-- A run that stops has met no term twice. -/
theorem freshRun_of_stopped {start last : Term} {bound steps : Nat}
    (reached : start.state? steps = some last) (stopped : Path.Stopped headStep last)
    (small : ∀ index ≤ steps, ∀ state, start.state? index = some state → state.size < bound) :
    FreshRun start bound (steps + 1) where
  small index lt := by
    obtain ⟨state, reachedState⟩ := Path.exists_after?_of_le (Nat.le_of_lt_succ lt) reached
    exact ⟨state, reachedState, small index (Nat.le_of_lt_succ lt) state reachedState⟩
  distinct first second order lt :=
    Path.after?_ne_of_stopped reached stopped order (Nat.le_of_lt_succ lt)

/-- Success needs no more than small terms up to the one without a step. -/
theorem normalize_eq_ok_iff {limits : Limits} {start result : Term} :
    limits.normalize start = .ok result ↔
      ∃ steps last, steps + 2 ≤ limits.maxStates ∧ start.state? steps = some last ∧
        last.headStep = .ok none ∧
        (∀ index ≤ steps, ∀ state, start.state? index = some state →
          state.size < limits.maxSize) ∧
        ∃ passes, Path.after? clean passes last = some result ∧ result.clean = .ok none := by
  constructor
  · intro ran
    have exit := normalize_stepsTo limits start
    rw [ran] at exit
    cases exit with
    | @settled steps last _ fresh room reached settles cleans =>
        obtain ⟨cleaned, ranClean, rfl⟩ := Failure.map_eq_ok_iff.mp cleans
        obtain ⟨passes, nothingLeft⟩ := cleanAll_eq_ok_iff.mp ranClean
        refine ⟨steps, last, room, reached, settles, ?_, cleaned.passes, passes, nothingLeft⟩
        intro index le state reachedState
        exact fresh.size_lt (Nat.lt_succ_of_le le) reachedState
  · rintro ⟨steps, last, room, reached, settles, small, passes, reachedResult, nothingLeft⟩
    have ranClean : last.cleanAll = .ok ⟨result, passes⟩ :=
      cleanAll_eq_ok_iff.mpr ⟨reachedResult, nothingLeft⟩
    apply normalize_of_stepsTo
    have fresh := freshRun_of_stopped reached (Path.stopped_of_settled settles) small
    apply StepsTo.settled fresh room reached settles
    rw [ranClean]
    rfl

/-- A result is also that of every term that is stepped to its origin, once the limits admit the
terms in between. -/
theorem normalize_of_state? {limits looser : Limits} {start origin result : Term} {first : Nat}
    (reached : start.state? first = some origin)
    (small : ∀ index < first, ∀ state, start.state? index = some state →
      state.size < looser.maxSize)
    (size_le : limits.maxSize ≤ looser.maxSize)
    (states_le : limits.maxStates + first ≤ looser.maxStates)
    (ran : limits.normalize origin = .ok result) : looser.normalize start = .ok result := by
  obtain ⟨steps, last, room, reachedLast, settles, smallLater, passes⟩ :=
    normalize_eq_ok_iff.mp ran
  have goesOn := Path.after?_add_of_after? reached
  refine normalize_eq_ok_iff.mpr
    ⟨first + steps, last, by omega, (goesOn steps).trans reachedLast, settles, ?_, passes⟩
  intro index le state reachedState
  rcases Nat.lt_or_ge index first with before | after
  · exact small index before state reachedState
  · obtain ⟨more, rfl⟩ := Nat.exists_eq_add_of_le after
    have reachedLater := (goesOn more).symm.trans reachedState
    exact Nat.lt_of_lt_of_le (smallLater more (by omega) state reachedLater) size_le

/-- Success after a single step to a term that neither a step nor a pass changes. -/
theorem normalize_of_single_step {limits : Limits} {start result : Term}
    (room : 3 ≤ limits.maxStates) (small : start.nodeCount < limits.maxSize)
    (moved : start.headStep = .ok (some result)) (smallResult : result.nodeCount < limits.maxSize)
    (settles : result.headStep = .ok none) (nothingLeft : result.clean = .ok none) :
    limits.normalize start = .ok result := by
  have reached : start.state? 1 = some result := Path.after?_succ_of_moves rfl moved
  refine normalize_eq_ok_iff.mpr ⟨1, result, room, reached, settles, ?_, 0, rfl, nothingLeft⟩
  intro index le state reachedState
  rw [size_eq_nodeCount]
  rcases Nat.le_one_iff_eq_zero_or_eq_one.mp le with rfl | rfl
  · rw [Path.after?_zero_eq_some_iff.mp reachedState]
    exact small
  · rw [reached] at reachedState
    rw [← Option.some.inj reachedState]
    exact smallResult

theorem normalize_eq_cyclic_iff {limits : Limits} {start : Term} {steps : Nat} :
    limits.normalize start = .error (.cyclic steps) ↔
      FreshRun start limits.maxSize steps ∧ steps < limits.maxStates ∧
        ∃ index < steps, ∃ state,
          start.state? index = some state ∧ start.state? steps = some state := by
  constructor
  · intro failed
    have exit := normalize_stepsTo limits start
    rw [failed] at exit
    cases exit with
    | failed _ _ _ fails => cases isGuard_of_headStep fails
    | settled _ _ _ _ cleans => cases isGuard_of_cleanAll cleans
    | @repeated _ index next fresh room reached le earlier =>
        exact ⟨fresh, room, index, Nat.lt_succ_of_le le, next, earlier, reached⟩
  · rintro ⟨fresh, room, index, lt, state, earlier, reached⟩
    obtain ⟨before, rfl⟩ := Nat.exists_eq_succ_of_ne_zero (Nat.ne_zero_of_lt lt)
    exact normalize_of_stepsTo (.repeated fresh room reached (Nat.le_of_lt_succ lt) earlier)

theorem normalize_eq_exhausted_iff {limits : Limits} {start : Term} {visited limit : Nat} :
    limits.normalize start = .error (.exhausted visited limit) ↔
      limit = limits.maxStates ∧ visited = max limits.maxStates 1 ∧
        FreshRun start limits.maxSize visited := by
  constructor
  · intro failed
    have exit := normalize_stepsTo limits start
    rw [failed] at exit
    cases exit with
    | failed _ _ _ fails => cases isGuard_of_headStep fails
    | settled _ _ _ _ cleans => cases isGuard_of_cleanAll cleans
    | exhausted fresh within full => exact ⟨rfl, by omega, fresh⟩
  · rintro ⟨rfl, same, fresh⟩
    obtain ⟨steps, rfl⟩ := Nat.exists_eq_succ_of_ne_zero (n := visited) (by omega)
    exact normalize_of_stepsTo (.exhausted fresh (by omega) (by omega))

theorem normalize_eq_oversized_iff {limits : Limits} {start : Term} {size limit : Nat} :
    limits.normalize start = .error (.oversized size limit) ↔
      limit = limits.maxSize ∧ limits.maxSize ≤ size ∧
        ∃ index state, start.state? index = some state ∧ state.size = size ∧
          (0 < index → index < limits.maxStates) ∧ FreshRun start limits.maxSize index := by
  constructor
  · intro failed
    have exit := normalize_stepsTo limits start
    rw [failed] at exit
    cases exit with
    | rejected large =>
        refine ⟨rfl, large, 0, start, rfl, rfl, fun positive => absurd positive (by omega), ?_⟩
        exact ⟨fun index lt => absurd lt (by omega), fun first second order lt => by omega⟩
    | failed _ _ _ fails => cases isGuard_of_headStep fails
    | settled _ _ _ _ cleans => cases isGuard_of_cleanAll cleans
    | @outgrown steps next fresh room reached large =>
        exact ⟨rfl, large, steps + 1, next, reached, rfl, fun _ => room, fresh⟩
  · rintro ⟨rfl, large, index, state, reached, rfl, within, fresh⟩
    apply normalize_of_stepsTo
    cases index with
    | zero =>
        rw [Path.after?_zero_eq_some_iff.mp reached] at large ⊢
        exact .rejected large
    | succ steps => exact .outgrown fresh (within (Nat.succ_pos steps)) reached large

/-- Any other failure is one of a step, or of cleaning the term without a step. -/
theorem normalize_eq_error_iff {limits : Limits} {start : Term} {failure : Failure}
    (other : failure.isGuard = false) :
    limits.normalize start = .error failure ↔
      ∃ steps last, steps + 2 ≤ limits.maxStates ∧ FreshRun start limits.maxSize (steps + 1) ∧
        start.state? steps = some last ∧
        (last.headStep = .error failure ∨
          (last.headStep = .ok none ∧ last.cleanAll = .error failure)) := by
  constructor
  · intro failed
    have exit := normalize_stepsTo limits start
    rw [failed] at exit
    cases exit with
    | rejected _ | exhausted _ _ _ | outgrown _ _ _ _ | repeated _ _ _ _ _ => cases other
    | @failed steps last _ fresh room reached fails =>
        exact ⟨steps, last, room, fresh, reached, .inl fails⟩
    | @settled steps last _ fresh room reached settles cleans =>
        exact ⟨steps, last, room, fresh, reached,
          .inr ⟨settles, Failure.map_eq_error_iff.mp cleans⟩⟩
  · rintro ⟨steps, last, room, fresh, reached, fails | ⟨settles, failsCleaning⟩⟩
    · exact normalize_of_stepsTo (.failed fresh room reached fails)
    · apply normalize_of_stepsTo
      apply StepsTo.settled fresh room reached settles
      rw [failsCleaning]
      rfl

/-- A run that repeats a term goes on from every term that it meets. -/
theorem exists_next_of_cyclic {limits : Limits} {start last : Term} {steps count : Nat}
    (cyclic : limits.normalize start = .error (.cyclic steps))
    (reached : start.state? count = some last) : ∃ next, last.headStep = .ok (some next) := by
  rcases Path.stopped_or_moves headStep last with stopped | moves
  · obtain ⟨_, _, index, lt, state, earlier, again⟩ := normalize_eq_cyclic_iff.mp cyclic
    have within : steps ≤ count := by
      rw [← Nat.not_lt]
      intro beyond
      cases again.symm.trans (Path.after?_eq_none_of_stopped reached stopped beyond)
    have distinct := Path.after?_ne_of_stopped reached stopped lt within
    exact absurd (earlier.trans again.symm) distinct
  · exact moves

/-- What holds of each evaluation holds of all of them. -/
theorem forall_evaluations {holds : (Limits → Term → Run) → Prop} (simplify : holds Run.simplify)
    (normalize : holds Run.normalize) (evaluate : holds Run.evaluate) :
    ∀ evaluation ∈ [Run.simplify, Run.normalize, Run.evaluate], holds evaluation :=
  List.forall_mem_cons.mpr
    ⟨simplify, List.forall_mem_cons.mpr ⟨normalize, List.forall_mem_singleton.mpr evaluate⟩⟩

/-! ## Number of steps -/

/-- Number of steps among the events. -/
def Event.stepCount (events : Array Event) : Nat :=
  events.countP fun event => event.severity = .trace

private theorem Event.stepCount_push_stepped (events : Array Event) (term : Term)
    (step size : Nat) : stepCount (events.push (.stepped term step size)) = stepCount events + 1 :=
  Array.countP_push

private theorem Event.stepCount_push_settled (events : Array Event) (steps : Nat) :
    stepCount (events.push (.settled steps)) = stepCount events :=
  Array.countP_push

private theorem Event.stepCount_push_simplified (events : Array Event) (term : Term)
    (passes size : Nat) :
    stepCount (events.push (.simplified term passes size)) = stepCount events :=
  Array.countP_push

private theorem stepCount_simplifyFrom (limits : Limits) (events : Array Event) (term : Term) :
    Event.stepCount (Run.simplifyFrom limits events term).events = Event.stepCount events := by
  unfold Run.simplifyFrom
  split
  · rfl
  · split
    · rfl
    · exact Event.stepCount_push_simplified _ _ _ _

/-- The visited terms are one more than the steps reported, and never more than allowed. -/
private theorem stepCount_normalizeFrom_lt {limits : Limits} {visited : Std.HashSet Term}
    {events : Array Event} {current : Term} (counted : Event.stepCount events + 1 = visited.size)
    (allowed : visited.size ≤ max limits.maxStates 1) :
    Event.stepCount (Run.normalizeFrom limits visited events current).events <
      max limits.maxStates 1 := by
  fun_induction Run.normalizeFrom limits visited events current with
  | case1 visited events current full =>
      show Event.stepCount events < _
      omega
  | case2 visited events current room failure fails =>
      show Event.stepCount events < _
      omega
  | case3 visited events current room settles =>
      rw [stepCount_simplifyFrom, Event.stepCount_push_settled]
      omega
  | case4 visited events current room next moved size reported =>
      show Event.stepCount (events.push (.stepped next visited.size size)) < _
      rw [Event.stepCount_push_stepped]
      omega
  | case5 visited events current room next moved size reported =>
      show Event.stepCount (events.push (.stepped next visited.size size)) < _
      rw [Event.stepCount_push_stepped]
      omega
  | case6 visited events current room next moved size reported small new =>
      rename_i inductionHypothesis
      have grown : (visited.insert next).size = visited.size + 1 := by
        rw [Std.HashSet.size_insert, if_neg new]
      have counted' : Event.stepCount reported = Event.stepCount events + 1 :=
        Event.stepCount_push_stepped events next visited.size size
      exact inductionHypothesis (by omega) (by omega)

private theorem stepCount_normalize_lt (limits : Limits) (start : Term) :
    Event.stepCount (Run.normalize limits start).events < max limits.maxStates 1 := by
  unfold Run.normalize
  by_cases large : limits.maxSize ≤ start.size
  · rw [if_pos large]
    exact Nat.lt_of_lt_of_le Nat.one_pos (Nat.le_max_right _ _)
  · rw [if_neg large]
    have single : (Std.HashSet.emptyWithCapacity.insert start : Std.HashSet Term).size = 1 := by
      simp [Std.HashSet.size_insert]
    apply stepCount_normalizeFrom_lt
    · rw [single]
      rfl
    · rw [single]
      exact Nat.le_max_right _ _

/-! ## Exact outcome -/

/-- Every outcome of `normalize` arises from exactly one kind of run, and after fewer steps than
terms may be visited. A repetition shows that no limits would lead to a result. -/
theorem normalize_outcomes (limits : Limits) (start : Term) :
    Event.stepCount (Run.normalize limits start).events ≤ max limits.maxStates 1 - 1 ∧
    (∀ result, limits.normalize start = .ok result ↔
      ∃ steps last, steps + 2 ≤ limits.maxStates ∧ start.state? steps = some last ∧
        last.headStep = .ok none ∧
        (∀ index ≤ steps, ∀ state, start.state? index = some state →
          state.size < limits.maxSize) ∧
        ∃ passes, Path.after? clean passes last = some result ∧ result.clean = .ok none) ∧
    (∀ steps, limits.normalize start = .error (.cyclic steps) ↔
      FreshRun start limits.maxSize steps ∧ steps < limits.maxStates ∧
        ∃ index < steps, ∃ state,
          start.state? index = some state ∧ start.state? steps = some state) ∧
    (∀ steps, limits.normalize start = .error (.cyclic steps) →
      ∀ (other : Limits) (result : Term), other.normalize start ≠ .ok result) ∧
    (∀ visited limit, limits.normalize start = .error (.exhausted visited limit) ↔
      limit = limits.maxStates ∧ visited = max limits.maxStates 1 ∧
        FreshRun start limits.maxSize visited) ∧
    (∀ size limit, limits.normalize start = .error (.oversized size limit) ↔
      limit = limits.maxSize ∧ limits.maxSize ≤ size ∧
        ∃ index state, start.state? index = some state ∧ state.size = size ∧
          (0 < index → index < limits.maxStates) ∧ FreshRun start limits.maxSize index) ∧
    (∀ failure, failure.isGuard = false →
      (limits.normalize start = .error failure ↔
        ∃ steps last, steps + 2 ≤ limits.maxStates ∧ FreshRun start limits.maxSize (steps + 1) ∧
          start.state? steps = some last ∧
          (last.headStep = .error failure ∨
            (last.headStep = .ok none ∧ last.cleanAll = .error failure)))) := by
  refine ⟨Nat.le_sub_one_of_lt (stepCount_normalize_lt limits start), fun _ => normalize_eq_ok_iff,
    fun _ => normalize_eq_cyclic_iff, ?_, fun _ _ => normalize_eq_exhausted_iff,
    fun _ _ => normalize_eq_oversized_iff, fun _ other => normalize_eq_error_iff other⟩
  intro steps cyclic other result ran
  obtain ⟨count, last, _, reached, settles, _⟩ := normalize_eq_ok_iff.mp ran
  obtain ⟨next, moved⟩ := exists_next_of_cyclic cyclic reached
  rw [settles] at moved
  cases moved

theorem normalize_omega_cyclic :
    Limits.standard.normalize Sample.omega = .error (.cyclic 1) ∧
      ∀ (other : Limits) (result : Term), other.normalize Sample.omega ≠ .ok result := by
  have fresh : FreshRun Sample.omega Limits.standard.maxSize 1 :=
    freshRun_one (by rw [size_eq_nodeCount]; decide)
  have cyclic := ((normalize_outcomes .standard Sample.omega).2.2.1 1).mpr
    ⟨fresh, by decide, 0, Nat.one_pos, Sample.omega, rfl, by decide⟩
  exact ⟨cyclic, (normalize_outcomes .standard Sample.omega).2.2.2.1 1 cyclic⟩

end NamelessLambda
