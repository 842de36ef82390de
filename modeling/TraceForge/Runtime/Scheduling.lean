import TraceForge.Runtime.Invariant

/-! What the invariants say about the scheduler over every run, each statement instantiated
under the spec's mock Strategy, which always prefers the lowest runnable task. -/
namespace TraceForge.Runtime

/-- The spec's mock Strategy: always the lowest runnable task. -/
def lowestFirst : Strategy Unit :=
  ⟨fun m runnable _ => (m, runnable.head?.map Prod.fst), fun _ tid => tid.val⟩

theorem lowestFirst_picks : lowestFirst.Picks := by
  intro m runnable last tid _ chosen
  cases runnable with
  | nil => simp [lowestFirst] at chosen
  | cons first rest =>
    simp only [lowestFirst, List.head?_cons, Option.map_some', Option.some.injEq] at chosen
    simp [← chosen]

def mainRunning : Execution Unit :=
  ⟨⟨[Task.fromClosure ⟨0⟩ (some "main-thread-0")], .some ⟨0⟩, .none, (), false,
    [.asked [(⟨0⟩, 0)] none (some ⟨0⟩)], [.some ⟨0⟩]⟩, .running ⟨0⟩, [⟨0⟩]⟩

theorem mainRunning_reachable : mainRunning.Reachable lowestFirst := ⟨(), "0", [.step], rfl⟩

/-- Main after its resume returned finished, and after it blocked itself and yielded. -/
def mainReturned : Execution Unit :=
  { mainRunning with
    state := { mainRunning.state with tasks := [(Task.fromClosure ⟨0⟩ (some "main-thread-0")).finish] }
    phase := .idle }

def mainBlocked : Execution Unit :=
  { mainRunning with
    state := { mainRunning.state with tasks := [(Task.fromClosure ⟨0⟩ (some "main-thread-0")).block] }
    phase := .idle }

theorem mainReturned_reachable : mainReturned.Reachable lowestFirst :=
  ⟨(), "0", [.step, .returned], rfl⟩

theorem mainBlocked_reachable : mainBlocked.Reachable lowestFirst :=
  ⟨(), "0", [.step, .block ⟨0⟩, .yielded], rfl⟩

/-- Main spawns a second task, blocks itself and calls `maybe_yield`: `lowestFirst` picks the
second task, main yields, and the choice waits in `next_task` for the next `step`, which
resumes the second task. -/
def secondPending : Execution Unit :=
  ⟨⟨[(Task.fromClosure ⟨0⟩ (some "main-thread-0")).block, Task.fromClosure ⟨1⟩ none], .some ⟨0⟩,
    .some ⟨1⟩, (), false,
    [.asked [(⟨0⟩, 0)] none (some ⟨0⟩), .asked [(⟨1⟩, 0)] (some ⟨0⟩) (some ⟨1⟩)], [.some ⟨0⟩]⟩,
    .idle, [⟨0⟩]⟩

def secondRunning : Execution Unit :=
  { secondPending with
    state := { secondPending.state with
      currentTask := .some ⟨1⟩, nextTask := .none, advanced := [.some ⟨0⟩, .some ⟨1⟩] }
    phase := .running ⟨1⟩
    resumed := [⟨0⟩, ⟨1⟩] }

theorem secondPending_reachable : secondPending.Reachable lowestFirst :=
  ⟨(), "0", [.step, .spawn none, .block ⟨0⟩, .maybeYield], rfl⟩

theorem secondRunning_reachable : secondRunning.Reachable lowestFirst :=
  ⟨(), "0", [.step, .spawn none, .block ⟨0⟩, .maybeYield, .step], rfl⟩

namespace Execution

open ExecutionState

variable {σ : Type} {S : Strategy σ} {e e' : Execution σ}

/-- Replay fidelity: the values advanced into `current_task` are the decisions in order,
each taken once, with only the pending choice not yet taken; `current_task` is the last
value advanced, never `None` after an advance, so phase A never takes its
"no task was scheduled" branch. Holds for every Strategy. -/
theorem decisions_taken_in_order (reach : e.Reachable S) :
    e.state.decisions.map Decision.choice = e.state.advanced ++ e.state.nextTask.pending ∧
    e.state.currentTask = e.state.advanced.getLastD .none ∧
    (∀ x ∈ e.state.advanced, x ≠ .none) ∧
    ∀ next s, e.state.stepChoose S = some (next, s) → s.currentTask ≠ .none := by
  obtain ⟨-, ⟨taken, current⟩, -⟩ := reach.invariant
  refine ⟨taken, current, fun x mem => ?_, fun next s chosen => ?_⟩
  · obtain ⟨d, -, rfl⟩ := List.mem_map.mp (taken ▸ List.mem_append_left _ mem)
    exact d.choice_ne_none
  · simpa [stepChoose_state S chosen] using scheduled_nextTask_ne_none

theorem decisions_taken_in_order_after_switch : secondPending.Reachable lowestFirst ∧
    secondPending.state.nextTask = .some ⟨1⟩ ∧
    secondPending.state.decisions.map Decision.choice =
      secondPending.state.advanced ++ secondPending.state.nextTask.pending ∧
    secondPending.state.currentTask = secondPending.state.advanced.getLastD .none ∧
    (∀ x ∈ secondPending.state.advanced, x ≠ .none) ∧
    ∀ next s, secondPending.state.stepChoose lowestFirst = some (next, s) →
      s.currentTask ≠ .none :=
  ⟨secondPending_reachable, rfl, decisions_taken_in_order secondPending_reachable⟩

/-- Under the Strategy's contract, every continuation `step` resumes belongs to an
unfinished task carrying the id the Strategy chose, and the decision that selected it,
whether made by this step or earlier by `maybe_yield`, offered that id as runnable. -/
theorem exec_step_resumes_selected_unfinished (picks : S.Picks) (reach : e.Reachable S)
    (h : e.exec S .step = some e') {tid : TaskId} (resumes : e'.phase = .running tid) :
    (∃ t, e'.state.tasks[tid.val]? = some t ∧ t.id = tid ∧ t.finished = false) ∧
    ∃ runnable last, e'.state.decisions.getLast? = some (.asked runnable last (some tid)) ∧
      tid ∈ runnable.map Prod.fst := by
  have reach' := reach.exec h
  have inv := reach'.invariant
  obtain ⟨t, found, unfinished⟩ := (reach'.selected picks).running tid resumes
  obtain ⟨runnable, last, chosen⟩ := inv.last_decision resumes
  refine ⟨⟨t, found, inv.dense _ _ found, unfinished⟩, runnable, last, chosen, ?_⟩
  exact (reach'.selected picks).valid _ (List.mem_of_getLast?_eq_some chosen)

theorem exec_step_resumes_main_task : lowestFirst.Picks ∧
    (Execution.start () "0").Reachable lowestFirst ∧
    (Execution.start () "0").exec lowestFirst .step = some mainRunning ∧
    mainRunning.phase = .running ⟨0⟩ ∧
    (∃ t, mainRunning.state.tasks[0]? = some t ∧ t.id = ⟨0⟩ ∧ t.finished = false) ∧
    ∃ runnable last, mainRunning.state.decisions.getLast? =
      some (.asked runnable last (some ⟨0⟩)) ∧ ⟨0⟩ ∈ runnable.map Prod.fst :=
  ⟨lowestFirst_picks, ⟨(), "0", [], rfl⟩, rfl, rfl,
    exec_step_resumes_selected_unfinished lowestFirst_picks ⟨(), "0", [], rfl⟩ rfl rfl⟩

/-- While a task runs, `current_task` stays `Some(tid)` for a registered `tid`: a resume
that returns finished marks exactly that task, and one that panics reports its name and
position, so the `unwrap` of `failure_info` never fails. Every Strategy call is told the
most recently resumed task, `None` only before the first resume. -/
theorem currentTask_stable_across_resume (reach : e.Reachable S) :
    (∀ tid, e.phase = .running tid →
      e.state.currentTask = .some tid ∧ tid.val < e.state.tasks.length ∧
      ∃ t, e.state.tasks[tid.val]? = some t ∧
        e.exec S .returned = some { e with
          state := { e.state with tasks := e.state.tasks.set tid.val t.finish }, phase := .idle } ∧
        e.exec S .panicked = some { e with phase := (.failed
          (t.name.getD ("task-" ++ toString tid.val)) (some (e.state.position S t))) }) ∧
    ∀ a e', e.exec S a = some e' → ∃ new, e'.state.decisions = e.state.decisions ++ new ∧
      ∀ runnable last answer, .asked runnable last answer ∈ new → last = e.resumed.getLast? := by
  have inv := reach.invariant
  refine ⟨fun tid running => ?_, fun a e' h => ?_⟩
  · obtain ⟨current, bound, -, -⟩ := inv.running running
    obtain ⟨t, found⟩ : ∃ t, e.state.tasks[tid.val]? = some t := ⟨_, List.getElem?_eq_getElem bound⟩
    refine ⟨current, bound, t, found, ?_, ?_⟩
    · simp [Execution.exec, running, updateCurrent, current, ScheduledTask.id, updateTask,
        tryGet, found]
    · simp [Execution.exec, running, failureInfo, tryCurrent, current, ScheduledTask.id, tryGet,
        found, inv.dense _ _ found]
  · have told (live : e.phase = .idle ∨ ∃ tid, e.phase = .running tid) :
        e.state.currentTask.id = e.resumed.getLast? := by
      rw [inv.current_eq_lastResumed live, lastResumed_id]
    obtain ⟨new, grown, last⟩ := scheduled_decisions (S := S) e.state
    cases exec_moves h with
    | step idle h => exact ⟨new, by simp [(exec_step idle h).1, grown],
        fun r l x mem => (last r l x mem).trans (told (.inl idle))⟩
    | task _ frame _ => exact ⟨[], by simp [frame.decisions], by simp⟩
    | fast running _ | yield running _ =>
      exact ⟨new, by simp [grown],
        fun r l x mem => (last r l x mem).trans (told (.inr ⟨_, running⟩))⟩
    | finish _ finished =>
      exact ⟨[], by simp [(frame_updateCurrent finished Task.finish_id).decisions], by simp⟩
    | yielded | panicked => exact ⟨[], by simp, by simp⟩

theorem currentTask_stable_after_switch : secondRunning.Reachable lowestFirst ∧
    secondRunning.phase = .running ⟨1⟩ ∧
    (∀ tid, secondRunning.phase = .running tid →
      secondRunning.state.currentTask = .some tid ∧ tid.val < secondRunning.state.tasks.length ∧
      ∃ t, secondRunning.state.tasks[tid.val]? = some t ∧
        secondRunning.exec lowestFirst .returned = some { secondRunning with
          state := { secondRunning.state with
            tasks := secondRunning.state.tasks.set tid.val t.finish }, phase := .idle } ∧
        secondRunning.exec lowestFirst .panicked = some { secondRunning with phase := (.failed
          (t.name.getD ("task-" ++ toString tid.val))
          (some (secondRunning.state.position lowestFirst t))) }) ∧
    ∀ a e', secondRunning.exec lowestFirst a = some e' → ∃ new,
      e'.state.decisions = secondRunning.state.decisions ++ new ∧
      ∀ runnable last answer, .asked runnable last answer ∈ new →
        last = secondRunning.resumed.getLast? :=
  ⟨secondRunning_reachable, rfl, currentTask_stable_across_resume secondRunning_reachable⟩

/-- The exit discipline of the loop at `e`. While the loop runs, `current_task` is neither
`Stopped` nor `Finished`. The `step` that makes it so returns false exactly when it is
`Stopped`, or `Finished` with every task finished; otherwise it raises the deadlock failure,
whose entries are the name and id of each unfinished task, in registry order. No action
follows an exit or a failure, and after a normal exit both assertions of `cleanup` hold. -/
structure ExitsCleanly (S : Strategy σ) (e : Execution σ) : Prop where
  live : (e.phase = .idle ∨ ∃ tid, e.phase = .running tid) →
    e.state.currentTask ≠ .stopped ∧ e.state.currentTask ≠ .finished
  exits : e.phase = .idle → ∀ e', e.exec S .step = some e' →
    (e'.phase = .exited ↔ e'.state.currentTask = .stopped ∨
      (e'.state.currentTask = .finished ∧ ∀ t ∈ e'.state.tasks, t.finished = true))
  deadlock : e.phase = .idle → ∀ e', e.exec S .step = some e' →
    e'.state.currentTask = .finished → (∃ t ∈ e'.state.tasks, t.finished = false) →
    e'.phase = .failed ("deadlock! blocked tasks: [" ++ ", ".intercalate
      ((e'.state.tasks.filter fun t => !t.finished).map fun t =>
        t.name.getD "<unknown>" ++ " (task " ++ toString t.id.val ++ ")") ++ "]") none
  absorbing : (e.phase = .exited ∨ ∃ msg pos, e.phase = .failed msg pos) → ∀ a, e.exec S a = none
  cleaned : e.phase = .exited → ∃ s, e.state.cleanup = .ok s

/-- The loop ends exactly at the absorbing states, in every run under every Strategy. -/
theorem loop_exits_cleanly (reach : e.Reachable S) : ExitsCleanly S e := by
  have inv := reach.invariant
  have stepped {e' : Execution σ} (idle : e.phase = .idle) (h : e.exec S .step = some e') :
      (e'.phase = .exited ↔ e'.state.currentTask = .stopped ∨
        (e'.state.currentTask = .finished ∧ ∀ t ∈ e'.state.tasks, t.finished = true)) ∧
      (e'.state.currentTask = .finished → (∃ t ∈ e'.state.tasks, t.finished = false) →
        e'.phase = .failed (deadlockMessage e'.state.tasks) none) := by
    obtain ⟨state, facts⟩ := exec_step idle h
    rw [state]
    split at facts
    · simp_all
    · rename_i next
      obtain ⟨-, phase⟩ := facts
      simp only [advanceToNextTask_currentTask, advanceToNextTask_tasks, scheduled_tasks, next,
        phase]
      by_cases blocked : e.state.tasks.any (fun t => !t.finished) <;> simp_all
    · simp_all
    · exact facts.elim
  refine ⟨fun live => ?_, fun idle e' h => (stepped idle h).1, fun idle e' h => (stepped idle h).2,
    ?_, fun exited => ?_⟩
  · rw [inv.current_eq_lastResumed live, lastResumed]
    cases e.resumed.getLast? <;> simp
  · refine fun halted a => Option.eq_none_iff_forall_not_mem.mpr fun e' h => ?_
    rcases (exec_moves h).live with live | ⟨tid, live⟩ <;>
      rcases halted with halted | ⟨msg, pos, halted⟩ <;> simp [live] at halted
  · have facts : e.state.currentTask = .stopped ∨ (e.state.currentTask = .finished ∧
        ∀ t ∈ e.state.tasks, t.finished = true) := by simpa [PhaseFacts, exited] using inv.phase
    rcases facts with stopped | ⟨finished, all⟩ <;> simp_all [cleanup]

theorem loop_exits_cleanly_at_exit_and_deadlock :
    (mainReturned.Reachable lowestFirst ∧
      (mainReturned.exec lowestFirst .step).map phase = some .exited ∧
      ExitsCleanly lowestFirst mainReturned) ∧
    (mainBlocked.Reachable lowestFirst ∧
      (mainBlocked.exec lowestFirst .step).map phase =
        some (.failed "deadlock! blocked tasks: [main-thread-0 (task 0)]" none) ∧
      ExitsCleanly lowestFirst mainBlocked) :=
  ⟨⟨mainReturned_reachable, rfl, loop_exits_cleanly mainReturned_reachable⟩,
    ⟨mainBlocked_reachable, rfl, loop_exits_cleanly mainBlocked_reachable⟩⟩

/-- Under the Strategy's contract, from every reachable execution between two steps, `step`
does not panic in `get(tid)`: it resumes a task, returns false, or reports the deadlock,
never "no task was scheduled". -/
theorem exec_step_never_panics (picks : S.Picks) (reach : e.Reachable S) (idle : e.phase = .idle) :
    ∃ e', e.exec S .step = some e' ∧ ((∃ tid, e'.phase = .running tid) ∨ e'.phase = .exited ∨
      e'.phase = .failed (deadlockMessage e'.state.tasks) none) := by
  cases next : (e.state.scheduled S).nextTask with
  | some tid =>
    obtain ⟨t, found, -⟩ :=
      scheduled_unfinished picks reach.invariant.dense (reach.selected picks).pending next
    simp [exec, idle, stepChoose_eq, next, tryGet, found, proceed]
  | none => exact absurd next scheduled_nextTask_ne_none
  | stopped => simp [exec, idle, stepChoose_eq, next, proceed]
  | finished =>
    simp only [exec, idle, stepChoose_eq, next, advanceToNextTask_currentTask, Option.map_some',
      Option.some.injEq, exists_eq_left']
    split <;> simp [proceed, failureInfo, tryCurrent, ScheduledTask.id, next]

theorem exec_step_never_panics_at_deadlock : lowestFirst.Picks ∧
    mainBlocked.Reachable lowestFirst ∧ mainBlocked.phase = .idle ∧
    ∃ e', mainBlocked.exec lowestFirst .step = some e' ∧
      ((∃ tid, e'.phase = .running tid) ∨ e'.phase = .exited ∨
        e'.phase = .failed (deadlockMessage e'.state.tasks) none) :=
  ⟨lowestFirst_picks, mainBlocked_reachable, rfl,
    exec_step_never_panics lowestFirst_picks mainBlocked_reachable rfl⟩

end Execution

namespace ExecutionState

variable {σ : Type} {S : Strategy σ}

def maybeYieldPlain (S : Strategy σ) (s : ExecutionState σ) : Bool × ExecutionState σ :=
  match s.schedule S with
  | .error _ => (true, s)
  | .ok s => (true, s)

/-- The same-task fast path of `maybe_yield` agrees with the plain path. When the Strategy
chooses the running task, advancing at once reaches the very state that yielding and then
`step` (which skips scheduling, advances and resumes the task) reach, after one Strategy
call with the same arguments; otherwise both paths yield with the same state. -/
theorem maybeYield_fast_path_agrees (s : ExecutionState σ) {tid : TaskId}
    (current : s.currentTask = .some tid) (idle : s.nextTask = .none)
    (registered : tid.val < s.tasks.length) :
    s.maybeYield S = s.maybeYieldPlain S ∨
    ((s.maybeYield S).1 = false ∧
      (s.maybeYieldPlain S).2.stepChoose S = some (.task tid, (s.maybeYield S).2) ∧
      (s.maybeYield S).2.decisions = s.decisions ++ [.asked s.runnable (some tid) (some tid)]) := by
  have plain : s.maybeYieldPlain S = (true, s.scheduled S) := by
    simp [maybeYieldPlain, schedule_eq]
  rw [maybeYield_eq, plain]
  split
  · rename_i same
    have chosen : (s.scheduled S).nextTask = .some tid := by simpa [current] using same.symm
    obtain ⟨next, decisions⟩ := scheduled_of_none (S := S) idle
    obtain ⟨runnable, last, asked⟩ := Decision.choice_eq_some (next ▸ chosen)
    have made : (s.decision S).1 = .asked s.runnable (some tid) (some tid) := by
      by_cases empty : s.runnable = []
      · simp [decision, empty] at asked
      · rw [decision_fst_of_ne_nil empty] at asked ⊢
        simp only [Decision.asked.injEq, current, ScheduledTask.id] at asked ⊢
        simp [asked.2.2]
    refine .inr ⟨rfl, ?_, by simp [decisions, made]⟩
    rw [stepChoose_eq, scheduled_of_pending (by simp [chosen])]
    simp [chosen, tryGet, List.getElem?_eq_getElem registered]
  · exact .inl rfl

theorem maybeYield_fast_path_in_main :
    mainRunning.state.currentTask = .some ⟨0⟩ ∧ mainRunning.state.nextTask = .none ∧
    0 < mainRunning.state.tasks.length ∧
    (mainRunning.state.maybeYield lowestFirst = mainRunning.state.maybeYieldPlain lowestFirst ∨
    ((mainRunning.state.maybeYield lowestFirst).1 = false ∧
      (mainRunning.state.maybeYieldPlain lowestFirst).2.stepChoose lowestFirst =
        some (.task ⟨0⟩, (mainRunning.state.maybeYield lowestFirst).2) ∧
      (mainRunning.state.maybeYield lowestFirst).2.decisions = mainRunning.state.decisions ++
        [.asked mainRunning.state.runnable (some ⟨0⟩) (some ⟨0⟩)])) :=
  ⟨rfl, rfl, by decide, maybeYield_fast_path_agrees mainRunning.state rfl rfl (by decide)⟩

end ExecutionState

end TraceForge.Runtime
