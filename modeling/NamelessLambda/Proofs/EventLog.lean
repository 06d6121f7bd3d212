import NamelessLambda.Proofs.Simplification

/-!
Contract: the events of an evaluation agree with its run and its outcome.

The stepping loop reports each step before it checks the new term, and a run can
end at any of these checks. Whichever it is, the events up to there are those of
the steps made, numbered from one, and what follows them depends on the way out.

Owns:
- `Event.stepReports`, the reports of a number of steps;
- `Run.Closes`, what each way out of the loop reports;
- `Run.Reports`, the agreement of events and outcome;
- `Event.shown`, the texts and measurements, from which the same can be read.

Does not own:
- how far a text determines the term that it shows.
-/

namespace NamelessLambda

open Term

/-- Reports of the first `count` steps from `start`. -/
def Event.stepReports (start : Term) (count : Nat) : List Event :=
  (Path.follow headStep count start).terms.mapIdx fun index state =>
    .stepped state (index + 1) state.nodeCount

/-- Report that comes after all steps. -/
def Event.isClosing : Event → Bool
  | .settled _ | .simplified .. => true
  | _ => false

/-- What a subscriber is shown of an event. -/
def Event.shown (event : Event) : Severity × String × List (String × Nat) :=
  (event.severity, event.message, event.measurements)

namespace Run

/-- Number of steps that a run reports. -/
def steps (run : Run) : Nat := Event.stepCount run.events

/-- Reports after those of the `steps` steps to `last`, by the outcome of the loop there. -/
inductive Closes (limits : Limits) (last : Term) (steps : Nat) :
    List Event → Except Failure Term → Prop where
  | exhausted : Closes limits last steps [] (.error (.exhausted (steps + 1) limits.maxStates))
  | failed {failure : Failure} (fails : last.headStep = .error failure) :
      Closes limits last steps [] (.error failure)
  | uncleaned {failure : Failure} (settles : last.headStep = .ok none)
      (fails : last.cleanAll = .error failure) :
      Closes limits last steps [.settled steps] (.error failure)
  | cleaned {cleaned : Cleaned} (settles : last.headStep = .ok none)
      (ran : last.cleanAll = .ok cleaned) :
      Closes limits last steps
        [.settled steps, .simplified cleaned.term cleaned.passes cleaned.term.size]
        (.ok cleaned.term)
  | outgrown (moved : 0 < steps) :
      Closes limits last steps [] (.error (.oversized last.size limits.maxSize))
  | repeated (moved : 0 < steps) : Closes limits last steps [] (.error (.cyclic steps))

/-- What the cause of a failure says about the events of the run. -/
def FailsWith (start : Term) (run : Run) : Failure → Prop
  | .cyclic count => count = run.steps
  | .exhausted visited _ => visited = run.steps + 1
  -- The start was too large, or the term that the last event carries.
  | .oversized size _ => (run.events.toList = [] ∧ size = start.nodeCount) ∨
      ∃ state, run.events.toList.getLast? = some (.stepped state run.steps size)
  | .divergent _ => ∀ count, .settled count ∉ run.events.toList
  | .unshiftable _ | .binderOverflow => True

/-- The events of a run agree with the steps from `start` and with the outcome. -/
structure Reports (start : Term) (run : Run) : Prop where
  /-- The trace events report the steps made: their numbers, terms and node counts. -/
  stepped : run.events.toList.filter (fun event => event.severity = .trace) =
    Event.stepReports start run.steps
  /-- There are as many of them as steps. -/
  made : (Event.stepReports start run.steps).length = run.steps
  /-- They follow one report of the start, and only closing reports follow them. -/
  ordered : ∃ opening closing,
    run.events.toList = opening ++ Event.stepReports start run.steps ++ closing ∧
      (opening = [.normalizing start start.nodeCount] ∨ (opening = [] ∧ run.steps = 0)) ∧
      ∀ event ∈ closing, event.isClosing = true
  /-- A result is what the last event carries, with its size and the passes made. -/
  result_iff : ∀ result, run.outcome = .ok result ↔
    ∃ last passes, start.state? run.steps = some last ∧
      Path.after? clean passes last = some result ∧ result.clean = .ok none ∧
      run.events.toList.getLast? = some (.simplified result passes result.nodeCount)
  /-- A failure agrees with the events, and none of them carries a result. -/
  failed : ∀ failure, run.outcome = .error failure → run.FailsWith start failure ∧
    ∀ term passes size, .simplified term passes size ∉ run.events.toList

end Run

/-! ## Reports of steps -/

namespace Event

variable {start last : Term} {count : Nat}

private theorem stepReports_succ (reached : start.state? (count + 1) = some last) :
    stepReports start (count + 1) =
      stepReports start count ++ [.stepped last (count + 1) last.nodeCount] := by
  obtain ⟨before, reachedBefore, _⟩ := Path.after?_succ_eq_some_iff_last.mp reached
  unfold stepReports
  rw [Path.terms_follow_succ reached, List.mapIdx_concat, Path.length_terms_follow reachedBefore]

private theorem length_stepReports (reached : start.state? count = some last) :
    (stepReports start count).length = count := by
  rw [stepReports, List.length_mapIdx, Path.length_terms_follow reached]

private theorem exists_of_mem_stepReports {event : Event}
    (member : event ∈ stepReports start count) :
    ∃ state step size, event = .stepped state step size := by
  obtain ⟨index, _, same⟩ := List.mem_mapIdx.mp member
  exact ⟨_, _, _, same.symm⟩

private theorem filter_stepReports (start : Term) (count : Nat) :
    (stepReports start count).filter (fun event => event.severity = .trace) =
      stepReports start count := by
  apply List.filter_eq_self.mpr
  intro event member
  obtain ⟨_, _, _, rfl⟩ := exists_of_mem_stepReports member
  rfl

private theorem filter_of_isClosing {closing : List Event}
    (all : ∀ event ∈ closing, event.isClosing = true) :
    closing.filter (fun event => event.severity = .trace) = [] := by
  apply List.filter_eq_nil_iff.mpr
  intro event member
  have closes := all event member
  cases event with
  | normalizing term size => cases closes
  | stepped term step size => cases closes
  | settled steps => simp [severity]
  | simplified term passes size => simp [severity]

end Event

/-! ## The loop -/

section Loop

variable {limits : Limits} {start current next : Term} {visited : Std.HashSet Term}
  {events : Array Event} {steps : Nat}

/-- Start of a log when `steps` steps have been made. -/
def Event.Logged (start : Term) (steps : Nat) (events : Array Event) : Prop :=
  events.toList = .normalizing start start.nodeCount :: Event.stepReports start steps

private theorem Event.logged_start (start : Term) :
    Event.Logged start 0 #[.normalizing start start.size] := by
  rw [Event.Logged, size_eq_nodeCount]
  rfl

private theorem Visiting.logged_step (loop : Visiting limits start visited current steps)
    (logged : Event.Logged start steps events) (moved : current.headStep = .ok (some next)) :
    Event.Logged start (steps + 1) (events.push (.stepped next visited.size next.size)) := by
  have reached : start.state? (steps + 1) = some next :=
    Path.after?_succ_of_moves loop.reached moved
  rw [Event.Logged, Array.toList_push, logged, Event.stepReports_succ reached, loop.size_eq,
    size_eq_nodeCount, List.cons_append]

/-- Cleaning reports its result, and nothing if it fails. -/
private theorem closes_simplifyFrom (settles : current.headStep = .ok none)
    (small : current.size < limits.maxSize) (steps : Nat) (events : Array Event) :
    ∃ closing, (Run.simplifyFrom limits (events.push (.settled steps)) current).events.toList =
        events.toList ++ closing ∧
      Run.Closes limits current steps closing
        (Run.simplifyFrom limits (events.push (.settled steps)) current).outcome := by
  unfold Run.simplifyFrom
  rw [if_neg (Nat.not_le.mpr small)]
  cases ran : current.cleanAll with
  | error failure =>
      exact ⟨[.settled steps], Array.toList_push, .uncleaned settles ran⟩
  | ok cleaned =>
      refine ⟨_, ?_, .cleaned settles ran⟩
      simp only [Array.toList_push, List.append_assoc, List.singleton_append]

/-- The log of the loop is that of the steps made so far, the later steps and a closing. -/
private theorem Visiting.exists_closes (loop : Visiting limits start visited current steps)
    (logged : Event.Logged start steps events) :
    ∃ count last closing, start.state? count = some last ∧
      (Run.normalizeFrom limits visited events current).events.toList =
        .normalizing start start.nodeCount :: Event.stepReports start count ++ closing ∧
      Run.Closes limits last count closing
        (Run.normalizeFrom limits visited events current).outcome := by
  fun_induction Run.normalizeFrom limits visited events current generalizing steps with
  | case1 visited events current full =>
      refine ⟨steps, current, [], loop.reached, logged.trans (List.append_nil _).symm, ?_⟩
      rw [loop.size_eq]
      exact .exhausted
  | case2 visited events current room failure fails =>
      exact ⟨steps, current, [], loop.reached, logged.trans (List.append_nil _).symm, .failed fails⟩
  | case3 visited events current room settles =>
      rw [loop.size_eq, Nat.add_sub_cancel]
      obtain ⟨closing, same, closes⟩ := closes_simplifyFrom settles loop.size_lt steps events
      exact ⟨steps, current, closing, loop.reached, by rw [same, logged], closes⟩
  | case4 visited events current room next moved size reported =>
      refine ⟨steps + 1, next, [], Path.after?_succ_of_moves loop.reached moved, ?_,
        .outgrown (Nat.succ_pos steps)⟩
      exact (loop.logged_step logged moved).trans (List.append_nil _).symm
  | case5 visited events current room next moved size reported =>
      refine ⟨steps + 1, next, [], Path.after?_succ_of_moves loop.reached moved, ?_, ?_⟩
      · exact (loop.logged_step logged moved).trans (List.append_nil _).symm
      · rw [loop.size_eq]
        exact .repeated (Nat.succ_pos steps)
  | case6 visited events current room next moved size reported small new =>
      rename_i inductionHypothesis
      rw [loop.size_eq, Nat.not_le] at room
      exact inductionHypothesis (loop.step room moved (Nat.not_le.mp small) new)
        (loop.logged_step logged moved)

end Loop

/-! ## Agreement -/

/-- Log of a run that made `count` steps from `start`. -/
structure Run.Logs (start : Term) (count : Nat) (opening closing : List Event) (run : Run) :
    Prop where
  reached : (start.state? count).isSome
  log : run.events.toList = opening ++ Event.stepReports start count ++ closing
  opens : opening = [.normalizing start start.nodeCount] ∨ (opening = [] ∧ count = 0)
  closes : ∀ event ∈ closing, event.isClosing = true

namespace Run.Logs

variable {start last result : Term} {count passes : Nat} {opening closing : List Event} {run : Run}
  {failure : Failure}

private theorem filter_eq (logs : Run.Logs start count opening closing run) :
    run.events.toList.filter (fun event => event.severity = .trace) =
      Event.stepReports start count := by
  have opens : opening.filter (fun event => event.severity = .trace) = [] := by
    rcases logs.opens with rfl | ⟨rfl, _⟩
    · rfl
    · rfl
  rw [logs.log, List.filter_append, List.filter_append, opens, Event.filter_stepReports,
    Event.filter_of_isClosing logs.closes, List.nil_append, List.append_nil]

private theorem length_eq (logs : Run.Logs start count opening closing run) :
    (Event.stepReports start count).length = count := by
  obtain ⟨last, reached⟩ := Option.isSome_iff_exists.mp logs.reached
  exact Event.length_stepReports reached

private theorem steps_eq (logs : Run.Logs start count opening closing run) : run.steps = count := by
  rw [Run.steps, Event.stepCount, ← Array.countP_toList, List.countP_eq_length_filter,
    logs.filter_eq, logs.length_eq]

/-- A closing report is made after the steps. -/
private theorem mem_closing (logs : Run.Logs start count opening closing run) {event : Event}
    (isClosing : event.isClosing = true) (member : event ∈ run.events.toList) :
    event ∈ closing := by
  rw [logs.log, List.mem_append, List.mem_append] at member
  rcases member with (first | step) | last
  · rcases logs.opens with rfl | ⟨rfl, _⟩
    · rw [List.mem_singleton.mp first] at isClosing
      cases isClosing
    · cases first
  · obtain ⟨_, _, _, rfl⟩ := Event.exists_of_mem_stepReports step
    cases isClosing
  · exact last

/-- The log accounts for the steps; the outcome remains to be compared with it. -/
private theorem reports (logs : Run.Logs start count opening closing run)
    (result_iff : ∀ result, run.outcome = .ok result ↔
      ∃ last passes, start.state? count = some last ∧
        Path.after? clean passes last = some result ∧ result.clean = .ok none ∧
        run.events.toList.getLast? = some (.simplified result passes result.nodeCount))
    (failed : ∀ failure, run.outcome = .error failure → run.FailsWith start failure ∧
      ∀ term passes size, .simplified term passes size ∉ run.events.toList) :
    run.Reports start where
  stepped := by rw [logs.steps_eq, logs.filter_eq]
  made := by rw [logs.steps_eq, logs.length_eq]
  ordered := by
    rw [logs.steps_eq]
    exact ⟨opening, closing, logs.log, logs.opens, logs.closes⟩
  result_iff := by
    rw [logs.steps_eq]
    exact result_iff
  failed := failed

private theorem reports_of_ok (logs : Run.Logs start count opening closing run)
    (ran : run.outcome = .ok result) (reached : start.state? count = some last)
    (cleaned : Path.after? clean passes last = some result) (nothingLeft : result.clean = .ok none)
    (final : run.events.toList.getLast? = some (.simplified result passes result.nodeCount)) :
    run.Reports start := by
  apply logs.reports
  · intro other
    rw [ran, final]
    constructor
    · intro same
      cases same
      exact ⟨last, passes, reached, cleaned, nothingLeft, rfl⟩
    · rintro ⟨_, _, _, _, _, same⟩
      cases same
      rfl
  · intro failure failed
    rw [ran] at failed
    cases failed

private theorem reports_of_error (logs : Run.Logs start count opening closing run)
    (failed : run.outcome = .error failure) (agrees : run.FailsWith start failure)
    (absent : ∀ term passes size, .simplified term passes size ∉ closing) :
    run.Reports start := by
  apply logs.reports
  · intro result
    rw [failed]
    constructor
    · intro impossible
      cases impossible
    · rintro ⟨_, _, _, _, _, final⟩
      exact absurd (logs.mem_closing rfl (List.mem_of_getLast? final)) (absent _ _ _)
  · intro cause same
    rw [failed] at same
    cases same
    exact ⟨agrees, fun _ _ _ member => absent _ _ _ (logs.mem_closing rfl member)⟩

end Run.Logs

section Evaluations

variable {limits : Limits} {start last : Term} {count : Nat} {closing : List Event}
  {outcome : Except Failure Term} {failure : Failure} {run : Run}

private theorem Run.Closes.isClosing (closes : Run.Closes limits last count closing outcome) :
    ∀ event ∈ closing, event.isClosing = true := by
  cases closes with
  | exhausted | failed _ | outgrown _ | repeated _ => exact fun event member => nomatch member
  | uncleaned _ _ =>
      intro event member
      rw [List.mem_singleton.mp member]
      rfl
  | cleaned _ _ =>
      intro event member
      rcases List.mem_cons.mp member with rfl | last
      · rfl
      · rw [List.mem_singleton.mp last]
        rfl

/-- A failure that no limit and no repetition causes agrees with the events of the run, unless it
is divergent after no step was available. -/
private theorem Run.failsWith_of_isGuard (other : failure.isGuard = false)
    (unsettled : ∀ code, failure = .divergent code →
      ∀ count, .settled count ∉ run.events.toList) : run.FailsWith start failure := by
  cases failure with
  | divergent code => exact unsettled code rfl
  | unshiftable level => trivial
  | binderOverflow => trivial
  | oversized size limit => cases other
  | exhausted visited limit => cases other
  | cyclic steps => cases other

private theorem Run.Logs.reports_of_closes
    (logs : Run.Logs start count [.normalizing start start.nodeCount] closing run)
    (reached : start.state? count = some last)
    (closes : Run.Closes limits last count closing run.outcome) : run.Reports start := by
  generalize ended : run.outcome = outcome at closes
  have log := logs.log
  cases closes with
  | exhausted =>
      apply logs.reports_of_error ended _ (fun _ _ _ member => nomatch member)
      rw [Run.FailsWith, logs.steps_eq]
  | failed fails =>
      apply logs.reports_of_error ended _ (fun _ _ _ member => nomatch member)
      apply Run.failsWith_of_isGuard (isGuard_of_headStep fails)
      intro code _ steps member
      cases logs.mem_closing rfl member
  | uncleaned settles fails =>
      apply logs.reports_of_error ended
      · have cause := ofBinding_of_cleanAll fails
        apply Run.failsWith_of_isGuard cause.isGuard
        intro code same
        exact absurd same (cause.ne_divergent code)
      · intro term passes size member
        cases List.mem_singleton.mp member
  | @cleaned cleaned settles ran =>
      obtain ⟨reachedResult, nothingLeft⟩ := cleanAll_eq_ok_iff.mp ran
      apply logs.reports_of_ok ended reached reachedResult nothingLeft
      rw [log, List.getLast?_append, size_eq_nodeCount]
      rfl
  | outgrown moved =>
      apply logs.reports_of_error ended _ (fun _ _ _ member => nomatch member)
      obtain ⟨steps, rfl⟩ := Nat.exists_eq_succ_of_ne_zero (Nat.ne_of_gt moved)
      rw [Event.stepReports_succ reached, List.append_nil, ← List.append_assoc] at log
      refine .inr ⟨last, ?_⟩
      rw [log, List.getLast?_concat, logs.steps_eq, size_eq_nodeCount]
  | repeated moved =>
      apply logs.reports_of_error ended _ (fun _ _ _ member => nomatch member)
      rw [Run.FailsWith, logs.steps_eq]

/-- Log of a run that makes no step and reports no start. -/
private theorem Run.logs_of_unstepped (closing : List Event) (log : run.events.toList = closing)
    (closes : ∀ event ∈ closing, event.isClosing = true) : Run.Logs start 0 [] closing run where
  reached := rfl
  log := log
  opens := .inr ⟨rfl, rfl⟩
  closes := closes

/-- A start that is too large is rejected without any report. -/
private theorem Run.reports_of_rejected (limit : Nat) :
    Run.Reports start ⟨#[], .error (.oversized start.size limit)⟩ := by
  apply (Run.logs_of_unstepped [] rfl (List.forall_mem_nil _)).reports_of_error rfl
  · exact .inl ⟨rfl, size_eq_nodeCount start⟩
  · exact fun _ _ _ member => nomatch member

theorem reports_simplify (limits : Limits) (start : Term) :
    (Run.simplify limits start).Reports start := by
  rcases Nat.lt_or_ge start.size limits.maxSize with small | large
  · cases ran : start.cleanAll with
    | error failure =>
        rw [simplify_of_uncleaned small ran]
        apply (Run.logs_of_unstepped [] rfl (List.forall_mem_nil _)).reports_of_error rfl
        · apply Run.failsWith_of_isGuard (ofBinding_of_cleanAll ran).isGuard
          exact fun _ _ _ member => nomatch member
        · exact fun _ _ _ member => nomatch member
    | ok cleaned =>
        rw [simplify_of_cleaned small ran]
        obtain ⟨reached, nothingLeft⟩ := cleanAll_eq_ok_iff.mp ran
        apply Run.Logs.reports_of_ok
          (Run.logs_of_unstepped [.simplified cleaned.term cleaned.passes cleaned.term.size] rfl
            (List.forall_mem_singleton.mpr rfl)) rfl rfl reached nothingLeft
        rw [size_eq_nodeCount]
        rfl
  · rw [simplify_of_large large]
    exact Run.reports_of_rejected limits.maxSize

private theorem normalize_of_large (large : limits.maxSize ≤ start.size) :
    Run.normalize limits start = ⟨#[], .error (.oversized start.size limits.maxSize)⟩ := by
  unfold Run.normalize
  rw [if_pos large]

/-- The log of stepping from a start of allowed size. -/
private theorem exists_closes_normalize (small : start.size < limits.maxSize) :
    ∃ count last closing, start.state? count = some last ∧
      Run.Logs start count [.normalizing start start.nodeCount] closing
        (Run.normalize limits start) ∧
      Run.Closes limits last count closing (Run.normalize limits start).outcome := by
  unfold Run.normalize
  rw [if_neg (Nat.not_le.mpr small)]
  obtain ⟨count, last, closing, reached, log, closes⟩ :=
    (visiting_start small).exists_closes (Event.logged_start start)
  exact ⟨count, last, closing, reached,
    ⟨Option.isSome_of_eq_some reached, log, .inl rfl, closes.isClosing⟩, closes⟩

theorem reports_normalize (limits : Limits) (start : Term) :
    (Run.normalize limits start).Reports start := by
  rcases Nat.lt_or_ge start.size limits.maxSize with small | large
  · obtain ⟨count, last, closing, reached, logs, closes⟩ :=
      exists_closes_normalize small
    exact logs.reports_of_closes reached closes
  · rw [normalize_of_large large]
    exact Run.reports_of_rejected limits.maxSize

theorem reports_evaluate (limits : Limits) (start : Term) :
    (Run.evaluate limits start).Reports start := by
  unfold Run.evaluate
  split
  · exact reports_simplify limits start
  · exact reports_normalize limits start

private theorem exists_log_of_small (small : start.size < limits.maxSize) :
    ∃ closing, (Run.normalize limits start).events.toList =
      .normalizing start start.nodeCount ::
        Event.stepReports start (Run.normalize limits start).steps ++ closing := by
  obtain ⟨count, last, closing, _, logs, _⟩ := exists_closes_normalize small
  rw [logs.steps_eq]
  exact ⟨closing, logs.log⟩

/-- Stepping that ends in a result reports, just before it, that no step was available. -/
private theorem exists_settled_of_normalize {result : Term}
    (ran : limits.normalize start = .ok result) :
    ∃ earlier passes, (Run.normalize limits start).events.toList =
      earlier ++ [.settled (Run.normalize limits start).steps,
        .simplified result passes result.nodeCount] := by
  rcases Nat.lt_or_ge start.size limits.maxSize with small | large
  · obtain ⟨count, last, closing, _, logs, closes⟩ := exists_closes_normalize small
    have steps := logs.steps_eq
    have log := logs.log
    rw [show (Run.normalize limits start).outcome = .ok result from ran] at closes
    cases closes with
    | @cleaned cleaned _ _ =>
        rw [size_eq_nodeCount] at log
        rw [steps]
        exact ⟨_, cleaned.passes, log⟩
  · rw [Limits.normalize, normalize_of_large large] at ran
    cases ran

end Evaluations

/-! ## What is shown -/

private theorem Event.map_shown_stepReports (start : Term) (count : Nat) :
    (stepReports start count).map shown =
      (Path.follow headStep count start).terms.mapIdx fun index state =>
        (.trace, state.render, [("step", index + 1), ("size", state.nodeCount)]) := by
  apply List.ext_getElem?
  intro index
  rw [stepReports, List.getElem?_map, List.getElem?_mapIdx, List.getElem?_mapIdx, Option.map_map]
  rfl

/-- The labels of its measurements tell a report of a result from the others. -/
private theorem Event.exists_of_shown {event : Event} {severity : Severity} {text : String}
    {passes size : Nat}
    (same : event.shown =
      (severity, "simplified to " ++ text, [("passes", passes), ("size", size)])) :
    ∃ term, event = .simplified term passes size ∧ term.render = text := by
  obtain ⟨_, sameMessage, sameMeasurements⟩ := Prod.ext_iff.mp same |>.imp_right Prod.ext_iff.mp
  cases event with
  | normalizing term own => simp [shown, measurements] at sameMeasurements
  | stepped term step own => simp [shown, measurements] at sameMeasurements
  | settled steps => simp [shown, measurements] at sameMeasurements
  | simplified term own ownSize =>
      simp only [shown, message, measurements, List.cons.injEq, Prod.mk.injEq, true_and,
        and_true] at sameMessage sameMeasurements
      obtain ⟨rfl, rfl⟩ := sameMeasurements
      exact ⟨term, rfl, (String.append_right_inj _).mp sameMessage⟩

/-- A run is shown to end in a text exactly if it ends in a term that is rendered so. -/
theorem Run.Reports.shown_iff {start : Term} {run : Run} (reports : run.Reports start)
    (text : String) (passes size : Nat) :
    run.events.toList.getLast?.map Event.shown =
        some (.debug, "simplified to " ++ text, [("passes", passes), ("size", size)]) ↔
      ∃ result last, run.outcome = .ok result ∧ result.render = text ∧ result.nodeCount = size ∧
        start.state? run.steps = some last ∧ Path.after? clean passes last = some result := by
  constructor
  · intro same
    obtain ⟨event, final, shown⟩ := Option.map_eq_some_iff.mp same
    obtain ⟨term, rfl, rendered⟩ := Event.exists_of_shown shown
    cases ended : run.outcome with
    | error failure =>
        exact absurd (List.mem_of_getLast? final) ((reports.failed failure ended).2 _ _ _)
    | ok result =>
        obtain ⟨last, made, reached, cleaned, _, finalResult⟩ :=
          (reports.result_iff result).mp ended
        rw [final] at finalResult
        cases finalResult
        exact ⟨term, last, rfl, rendered, rfl, reached, cleaned⟩
  · rintro ⟨result, last, ended, rendered, measured, reached, cleaned⟩
    obtain ⟨other, made, reachedOther, cleanedOther, nothingLeft, final⟩ :=
      (reports.result_iff result).mp ended
    rw [reached] at reachedOther
    cases reachedOther
    obtain ⟨rfl, _⟩ := Path.stopped_unique cleaned cleanedOther
      (Path.stopped_of_settled nothingLeft) (Path.stopped_of_settled nothingLeft)
    rw [final, ← rendered, ← measured]
    rfl

/-- Whatever way an evaluation ends, its events report the steps made and its outcome. -/
theorem events_report_run (limits : Limits) (start : Term) :
    (∀ evaluation ∈ [Run.simplify, Run.normalize, Run.evaluate],
      (evaluation limits start).Reports start ∧
      ((evaluation limits start).events.toList.filter
          (fun event => event.severity = .trace)).map Event.shown =
        (Path.follow headStep (evaluation limits start).steps start).terms.mapIdx
          (fun index state =>
            (.trace, state.render, [("step", index + 1), ("size", state.nodeCount)])) ∧
      ∀ text passes size,
        (evaluation limits start).events.toList.getLast?.map Event.shown =
            some (.debug, "simplified to " ++ text, [("passes", passes), ("size", size)]) ↔
          ∃ result last, (evaluation limits start).outcome = .ok result ∧ result.render = text ∧
            result.nodeCount = size ∧
            start.state? (evaluation limits start).steps = some last ∧
            Path.after? clean passes last = some result) ∧
    (start.size < limits.maxSize →
      ∃ closing, (Run.normalize limits start).events.toList =
        .normalizing start start.nodeCount ::
          Event.stepReports start (Run.normalize limits start).steps ++ closing) ∧
    (∀ result, limits.normalize start = .ok result →
      ∃ earlier passes, (Run.normalize limits start).events.toList =
        earlier ++ [.settled (Run.normalize limits start).steps,
          .simplified result passes result.nodeCount]) := by
  refine ⟨?_, exists_log_of_small, fun _ => exists_settled_of_normalize⟩
  have all : ∀ evaluation ∈ [Run.simplify, Run.normalize, Run.evaluate],
      (evaluation limits start).Reports start :=
    forall_evaluations (reports_simplify limits start) (reports_normalize limits start)
      (reports_evaluate limits start)
  intro evaluation member
  have reports := all evaluation member
  refine ⟨reports, ?_, reports.shown_iff⟩
  rw [reports.stepped, Event.map_shown_stepReports]

/-- The identity applied to itself makes one step, to a term that no pass changes. -/
theorem applied_identity_reported :
    (Run.normalize .standard (Sample.identity.applyAll [Sample.identity])).Reports
        (Sample.identity.applyAll [Sample.identity]) ∧
      (∃ closing,
        (Run.normalize .standard (Sample.identity.applyAll [Sample.identity])).events.toList =
          .normalizing (Sample.identity.applyAll [Sample.identity]) 5 ::
            Event.stepReports (Sample.identity.applyAll [Sample.identity])
              (Run.normalize .standard (Sample.identity.applyAll [Sample.identity])).steps ++
            closing) ∧
      ∃ earlier passes,
        (Run.normalize .standard (Sample.identity.applyAll [Sample.identity])).events.toList =
          earlier ++ [
            .settled (Run.normalize .standard (Sample.identity.applyAll [Sample.identity])).steps,
            .simplified Sample.identity passes 2] := by
  have small : (Sample.identity.applyAll [Sample.identity]).size < Limits.standard.maxSize := by
    rw [size_eq_nodeCount]
    decide
  have ran : Limits.standard.normalize (Sample.identity.applyAll [Sample.identity]) =
      .ok Sample.identity :=
    normalize_of_single_step (by decide) (by decide) rfl (by decide) rfl rfl
  have reported := events_report_run .standard (Sample.identity.applyAll [Sample.identity])
  exact ⟨(reported.1 Run.normalize (by simp)).1, reported.2.1 small,
    reported.2.2 Sample.identity ran⟩

end NamelessLambda
