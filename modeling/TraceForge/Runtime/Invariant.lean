import TraceForge.Runtime.Execution

/-! The invariants of every run of `Execution::run`. The scheduling ledger and the phase facts
hold for every Strategy; that the tasks the scheduler selects are unfinished needs the
Strategy's contract. -/
namespace TraceForge.Runtime

namespace ExecutionState

variable {σ : Type} {S : Strategy σ} {s s' : ExecutionState σ}

/-- The decisions are the values advanced into `current_task` followed by the pending
choice, and `current_task` is the last value advanced. -/
structure Ledger (s : ExecutionState σ) : Prop where
  taken : s.decisions.map Decision.choice = s.advanced ++ s.nextTask.pending
  current : s.currentTask = s.advanced.getLastD .none

theorem Ledger.scheduled (ledger : s.Ledger) : (s.scheduled S).Ledger := by
  by_cases none : s.nextTask = .none
  · obtain ⟨next, decisions⟩ := scheduled_of_none (S := S) none
    refine ⟨?_, by simpa using ledger.current⟩
    simp [decisions, next, ledger.taken, none,
      ScheduledTask.pending_of_ne_none (Decision.choice_ne_none _)]
  · rwa [scheduled_of_pending none]

theorem Ledger.advance (ledger : s.Ledger) (next : s.nextTask ≠ .none) :
    s.advanceToNextTask.Ledger :=
  ⟨by simp [ledger.taken, ScheduledTask.pending_of_ne_none next], by simp⟩

def Unfinished (s : ExecutionState σ) (tid : TaskId) : Prop :=
  ∃ t, s.tasks[tid.val]? = some t ∧ t.finished = false

/-- What an action of the running task leaves alone: the scheduler's fields and the ids;
the registry does not shrink. -/
structure Frame (s s' : ExecutionState σ) : Prop where
  currentTask : s'.currentTask = s.currentTask
  nextTask : s'.nextTask = s.nextTask
  decisions : s'.decisions = s.decisions
  advanced : s'.advanced = s.advanced
  dense : s.DenseIds → s'.DenseIds
  length : s.tasks.length ≤ s'.tasks.length

def Keeps (s s' : ExecutionState σ) : Prop := ∀ tid, s.Unfinished tid → s'.Unfinished tid

theorem Frame.ledger (frame : s.Frame s') (ledger : s.Ledger) : s'.Ledger := by
  obtain ⟨taken, current⟩ := ledger
  exact ⟨by rw [frame.decisions, frame.advanced, frame.nextTask, taken],
    by rw [frame.currentTask, frame.advanced, current]⟩

theorem frame_spawn (name : Option String) : s.Frame (s.spawnThread name).2 :=
  ⟨rfl, rfl, rfl, rfl, fun dense => dense.spawn name, by simp [spawnThread]⟩

theorem keeps_spawn (name : Option String) : s.Keeps (s.spawnThread name).2 := by
  rintro tid ⟨t, found, unfinished⟩
  exact ⟨t, by simp [spawnThread, List.getElem?_append_left (List.getElem?_eq_some_iff.mp found).1,
    found], unfinished⟩

theorem frame_updateTask {tid : TaskId} {f : Task → Task} (h : s.updateTask tid f = some s')
    (id : ∀ t, (f t).id = t.id) : s.Frame s' := by
  obtain ⟨t, found, rfl⟩ := updateTask_eq_some h
  exact ⟨rfl, rfl, rfl, rfl, fun dense => dense.set ((id t).trans (dense _ _ found)), by simp⟩

theorem keeps_updateTask {tid : TaskId} {f : Task → Task} (h : s.updateTask tid f = some s')
    (finished : ∀ t, (f t).finished = t.finished) : s.Keeps s' := by
  obtain ⟨t, found, rfl⟩ := updateTask_eq_some h
  rintro other ⟨u, there, unfinished⟩
  show ∃ t', (s.tasks.set tid.val (f t))[other.val]? = some t' ∧ t'.finished = false
  rw [List.getElem?_set]
  split
  · rename_i same
    simp only [(List.getElem?_eq_some_iff.mp found).1, if_true]
    rw [← same, found] at there
    obtain rfl : t = u := Option.some.inj there
    exact ⟨f t, rfl, (finished t).trans unfinished⟩
  · exact ⟨u, there, unfinished⟩

theorem updateCurrent_eq_some {f : Task → Task} (h : s.updateCurrent f = some s') :
    ∃ tid, s.currentTask.id = some tid ∧ s.updateTask tid f = some s' :=
  Option.bind_eq_some.mp h

theorem frame_updateCurrent {f : Task → Task} (h : s.updateCurrent f = some s')
    (id : ∀ t, (f t).id = t.id) : s.Frame s' :=
  let ⟨_, _, h⟩ := updateCurrent_eq_some h
  frame_updateTask h id

theorem keeps_updateCurrent {f : Task → Task} (h : s.updateCurrent f = some s')
    (finished : ∀ t, (f t).finished = t.finished) : s.Keeps s' :=
  let ⟨_, _, h⟩ := updateCurrent_eq_some h
  keeps_updateTask h finished

theorem nextPos_eq_some {ev : Event} (h : s.nextPos S = some (ev, s')) :
    s.updateCurrent (fun t => { t with instructions := t.instructions + 1 }) = some s' := by
  simp only [nextPos, Option.bind_eq_bind, Option.bind_eq_some, Option.pure_def,
    Option.some.injEq, Prod.mk.injEq] at h
  obtain ⟨u, updated, -, -, -, rfl⟩ := h
  exact updated

theorem prevPos_eq_some {ev : Event} (h : s.prevPos S = some (ev, s')) :
    s.updateCurrent (fun t => { t with instructions := t.instructions - 1 }) = some s' := by
  unfold prevPos at h
  cases current : s.tryCurrent with
  | none => simp [current] at h
  | some t =>
    by_cases zero : t.instructions = 0
    · simp [current, zero] at h
    · simp only [current, zero, if_false, Option.bind_eq_bind, Option.bind_eq_some,
        Option.some_bind, Option.pure_def, Option.some.injEq, Prod.mk.injEq] at h
      obtain ⟨u, updated, -, -, -, rfl⟩ := h
      exact updated

theorem decision_unfinished (picks : S.Picks) (dense : s.DenseIds) {tid : TaskId}
    (chosen : (s.decision S).1.choice = .some tid) : s.Unfinished tid := by
  by_cases empty : s.runnable = []
  · simp [decision, empty, Decision.choice] at chosen
  · rw [decision_fst_of_ne_nil empty] at chosen
    have answer : (S.nextTask s.must s.runnable s.currentTask.id).2 = some tid := by
      cases h : (S.nextTask s.must s.runnable s.currentTask.id).2 <;>
        simp_all [Decision.choice]
    obtain ⟨t, mem, runnable, rfl⟩ := mem_runnable_ids (picks _ _ _ _ empty answer)
    exact ⟨t, dense.tryGet_id mem, Task.finished_eq_false_of_runnable runnable⟩

theorem scheduled_unfinished (picks : S.Picks) (dense : s.DenseIds)
    (pending : ∀ tid, s.nextTask = .some tid → s.Unfinished tid) {tid : TaskId}
    (chosen : (s.scheduled S).nextTask = .some tid) : s.Unfinished tid := by
  by_cases none : s.nextTask = .none
  · exact decision_unfinished picks dense ((scheduled_of_none none).1 ▸ chosen)
  · exact pending tid (scheduled_of_pending none ▸ chosen)

end ExecutionState

namespace Execution

open ExecutionState

variable {σ : Type} {S : Strategy σ} {e e' : Execution σ} {a : Action}

/-- Phase A of `step`: the state is scheduled and advanced; the chosen task is resumed, or
the loop ends, on a deadlock with the message listing the unfinished tasks. -/
theorem exec_step (idle : e.phase = .idle) (h : e.exec S .step = some e') :
    e'.state = (e.state.scheduled S).advanceToNextTask ∧
    match (e.state.scheduled S).nextTask with
    | .some tid => tid.val < e.state.tasks.length ∧ e'.phase = .running tid ∧
        e'.resumed = e.resumed ++ [tid]
    | .finished => e'.resumed = e.resumed ∧
        e'.phase = if e.state.tasks.any (fun t => !t.finished)
          then .failed (deadlockMessage e.state.tasks) none else .exited
    | .stopped => e'.resumed = e.resumed ∧ e'.phase = .exited
    | .none => False := by
  simp only [exec, idle, stepChoose_eq, advanceToNextTask_currentTask] at h
  have chosen := scheduled_nextTask_ne_none (S := S) (s := e.state)
  cases next : (e.state.scheduled S).nextTask with
  | some tid =>
    simp only [next, Option.map_map, Option.map_eq_some', Function.comp_def] at h
    obtain ⟨t, found, rfl⟩ := h
    simp only [tryGet, advanceToNextTask_tasks, scheduled_tasks] at found
    exact ⟨rfl, (List.getElem?_eq_some_iff.mp found).1, rfl, rfl⟩
  | finished =>
    simp only [next] at h
    cases Option.some.inj h
    simp only [scheduled_tasks]
    split <;> simp [proceed, failureInfo, tryCurrent, ScheduledTask.id, next]
  | stopped =>
    simp only [next] at h
    cases Option.some.inj h
    simp [proceed]
  | none => exact absurd next chosen

/-- Everything one action can do: phase A of `step`; a task action changing the state
within a frame; `maybe_yield` taking its fast path or making the task yield; the resume
returning finished, yielded or panicked. -/
inductive Moves (S : Strategy σ) (e : Execution σ) : Execution σ → Prop
  | step {e'} : e.phase = .idle → e.exec S .step = some e' → Moves S e e'
  | task {tid s'} : e.phase = .running tid → e.state.Frame s' → e.state.Keeps s' →
      Moves S e { e with state := s' }
  | fast {tid} : e.phase = .running tid →
      (e.state.scheduled S).currentTask = (e.state.scheduled S).nextTask →
      Moves S e { e with state := (e.state.scheduled S).advanceToNextTask }
  | yield {tid} : e.phase = .running tid →
      (e.state.scheduled S).currentTask ≠ (e.state.scheduled S).nextTask →
      Moves S e { e with state := e.state.scheduled S, phase := .idle }
  | finish {tid s'} : e.phase = .running tid → e.state.updateCurrent Task.finish = some s' →
      Moves S e { e with state := s', phase := .idle }
  | yielded {tid} : e.phase = .running tid → Moves S e { e with phase := .idle }
  | panicked {tid msg pos} : e.phase = .running tid → Moves S e { e with phase := .failed msg pos }

theorem exec_moves (h : e.exec S a = some e') : Moves S e e' := by
  rcases e with ⟨s, phase, resumed⟩
  cases phase with
  | idle =>
    cases a
    case step => exact .step rfl h
    all_goals simp [Execution.exec] at h
  | running tid =>
    cases a with
    | step => simp [Execution.exec] at h
    | spawn name =>
      cases Option.some.inj h
      exact .task rfl (frame_spawn name) (keeps_spawn name)
    | block t | unblock t =>
      obtain ⟨s', updated, rfl⟩ := Option.map_eq_some'.mp h
      exact .task rfl (frame_updateTask updated (by simp)) (keeps_updateTask updated (by simp))
    | nextPos =>
      obtain ⟨⟨_, s'⟩, moved, rfl⟩ := Option.map_eq_some'.mp h
      exact .task rfl (frame_updateCurrent (nextPos_eq_some moved) fun _ => rfl)
        (keeps_updateCurrent (nextPos_eq_some moved) fun _ => rfl)
    | prevPos =>
      obtain ⟨⟨_, s'⟩, moved, rfl⟩ := Option.map_eq_some'.mp h
      exact .task rfl (frame_updateCurrent (prevPos_eq_some moved) fun _ => rfl)
        (keeps_updateCurrent (prevPos_eq_some moved) fun _ => rfl)
    | maybeYield =>
      cases Option.some.inj h
      simp only [maybeYield_eq]
      split
      · exact .fast rfl ‹_›
      · exact .yield rfl ‹_›
    | returned =>
      obtain ⟨s', finished, rfl⟩ := Option.map_eq_some'.mp h
      exact .finish rfl finished
    | yielded =>
      cases Option.some.inj h
      exact .yielded rfl
    | panicked =>
      obtain ⟨_, -, rfl⟩ := Option.map_eq_some'.mp h
      exact .panicked rfl
  | exited => cases a <;> simp [Execution.exec] at h
  | failed msg pos => cases a <;> simp [Execution.exec] at h

theorem Moves.live (m : Moves S e e') : e.phase = .idle ∨ ∃ tid, e.phase = .running tid := by
  cases m with
  | step idle _ => exact .inl idle
  | task running _ _ | fast running _ | yield running _ | finish running _ | yielded running
  | panicked running => exact .inr ⟨_, running⟩

theorem run_append (acts acts' : List Action) (e : Execution σ) :
    e.run S (acts ++ acts') = (e.run S acts).bind (run S acts') := by
  induction acts generalizing e with
  | nil => rfl
  | cons a acts ih => simp [run, ih, Option.bind_assoc]

theorem run_invariant {P : Execution σ → Prop}
    (preserves : ∀ {e e' : Execution σ} {a : Action}, P e → e.exec S a = some e' → P e')
    {acts : List Action} (h : e.run S acts = some e') (initial : P e) : P e' := by
  induction acts generalizing e with
  | nil => cases h; exact initial
  | cons a acts ih =>
    obtain ⟨v, stepped, rest⟩ := Option.bind_eq_some.mp h
    exact ih rest (preserves initial stepped)

theorem Reachable.exec (reach : e.Reachable S) (h : e.exec S a = some e') : e'.Reachable S :=
  let ⟨must, thread, acts, ran⟩ := reach
  ⟨must, thread, acts ++ [a], by simp [run_append, ran, run, h]⟩

def lastResumed (e : Execution σ) : ScheduledTask :=
  (e.resumed.getLast?.map ScheduledTask.some).getD .none

/-- What each phase of the loop knows of the state. -/
def PhaseFacts (e : Execution σ) : Prop :=
  match e.phase with
  | .idle => e.state.currentTask = e.lastResumed
  | .running tid => e.state.currentTask = .some tid ∧ tid.val < e.state.tasks.length ∧
      e.state.nextTask = .none ∧ e.resumed.getLast? = some tid
  | .exited => e.state.currentTask = .stopped ∨
      (e.state.currentTask = .finished ∧ ∀ t ∈ e.state.tasks, t.finished = true)
  | .failed _ _ => True

/-- The invariant of every run, under any Strategy. -/
structure Invariant (e : Execution σ) : Prop where
  dense : e.state.DenseIds
  ledger : e.state.Ledger
  phase : e.PhaseFacts

theorem invariant_start (must : σ) (thread : String) : (start must thread).Invariant :=
  ⟨DenseIds.spawn (fun _ _ found => by simp [ExecutionState.new] at found) _, ⟨rfl, rfl⟩, rfl⟩

theorem Invariant.running {tid : TaskId} (inv : e.Invariant) (running : e.phase = .running tid) :
    e.state.currentTask = .some tid ∧ tid.val < e.state.tasks.length ∧
      e.state.nextTask = .none ∧ e.resumed.getLast? = some tid := by
  simpa [PhaseFacts, running] using inv.phase

theorem Invariant.current_eq_lastResumed (inv : e.Invariant)
    (live : e.phase = .idle ∨ ∃ tid, e.phase = .running tid) :
    e.state.currentTask = e.lastResumed := by
  rcases live with idle | ⟨tid, running⟩
  · simpa [PhaseFacts, idle] using inv.phase
  · obtain ⟨current, -, -, last⟩ := inv.running running
    simp [current, lastResumed, last]

@[simp] theorem lastResumed_id (e : Execution σ) : e.lastResumed.id = e.resumed.getLast? := by
  cases last : e.resumed.getLast? <;> simp [lastResumed, last, ScheduledTask.id]

theorem Invariant.last_decision {tid : TaskId} (inv : e.Invariant) (running : e.phase = .running tid) :
    ∃ runnable last, e.state.decisions.getLast? = some (.asked runnable last (some tid)) := by
  obtain ⟨current, -, next, -⟩ := inv.running running
  have taken := congrArg List.getLast? inv.ledger.taken
  have chosen := inv.ledger.current
  rw [next, ScheduledTask.pending_none, List.append_nil, List.getLast?_map] at taken
  rw [current, List.getLastD_eq_getLast?] at chosen
  cases last : e.state.advanced.getLast? with
  | none => simp [last] at chosen
  | some x =>
    simp only [last, Option.getD_some] at taken chosen
    obtain ⟨d, found, same⟩ := Option.map_eq_some'.mp taken
    obtain ⟨runnable, last, rfl⟩ := Decision.choice_eq_some (same.trans chosen.symm)
    exact ⟨runnable, last, found⟩

theorem Invariant.step (inv : e.Invariant) (idle : e.phase = .idle)
    (h : e.exec S .step = some e') : e'.Invariant := by
  obtain ⟨state, facts⟩ := exec_step idle h
  have ledger := inv.ledger.scheduled (S := S) |>.advance scheduled_nextTask_ne_none
  refine ⟨by simpa [state, DenseIds] using inv.dense, state ▸ ledger, ?_⟩
  split at facts
  · rename_i tid next
    obtain ⟨bound, phase, resumed⟩ := facts
    simp [PhaseFacts, phase, state, next, bound, resumed]
  · rename_i next
    obtain ⟨-, phase⟩ := facts
    split at phase
    · simp [PhaseFacts, phase]
    · rename_i none
      simpa [PhaseFacts, phase, state, next] using none
  · rename_i stopped
    simp [PhaseFacts, facts.2, state, stopped]
  · exact facts.elim

theorem Invariant.exec (inv : e.Invariant) (h : e.exec S a = some e') : e'.Invariant := by
  cases exec_moves h with
  | step idle h => exact inv.step idle h
  | task running frame _ =>
    obtain ⟨current, bound, next, last⟩ := inv.running running
    refine ⟨frame.dense inv.dense, frame.ledger inv.ledger, ?_⟩
    simp only [PhaseFacts, running, frame.currentTask, frame.nextTask]
    exact ⟨current, bound.trans_le frame.length, next, last⟩
  | fast running same =>
    obtain ⟨current, bound, -, last⟩ := inv.running running
    refine ⟨by simpa [DenseIds] using inv.dense,
      inv.ledger.scheduled.advance scheduled_nextTask_ne_none, ?_⟩
    simp only [PhaseFacts, running]
    exact ⟨by simpa [← same] using current, by simpa using bound, rfl, last⟩
  | yield running _ =>
    obtain ⟨current, -, -, last⟩ := inv.running running
    exact ⟨by simpa [DenseIds] using inv.dense, inv.ledger.scheduled,
      by simpa [PhaseFacts, lastResumed, last] using current⟩
  | finish running finished =>
    obtain ⟨current, -, -, last⟩ := inv.running running
    have frame := frame_updateCurrent finished Task.finish_id
    exact ⟨frame.dense inv.dense, frame.ledger inv.ledger,
      by simpa [PhaseFacts, frame.currentTask, lastResumed, last] using current⟩
  | yielded running =>
    obtain ⟨current, -, -, last⟩ := inv.running running
    exact ⟨inv.dense, inv.ledger, by simpa [PhaseFacts, lastResumed, last] using current⟩
  | panicked => exact ⟨inv.dense, inv.ledger, trivial⟩

theorem Reachable.invariant (reach : e.Reachable S) : e.Invariant :=
  let ⟨must, thread, _, h⟩ := reach
  run_invariant Invariant.exec h (invariant_start must thread)

/-- Under the Strategy's contract: every decision is valid, and the choice waiting in
`next_task` and the running task are unfinished tasks. -/
structure Selected (e : Execution σ) : Prop where
  valid : ∀ d ∈ e.state.decisions, d.Valid
  pending : ∀ tid, e.state.nextTask = .some tid → e.state.Unfinished tid
  running : ∀ tid, e.phase = .running tid → e.state.Unfinished tid

section Picks

variable (picks : S.Picks)
include picks

theorem valid_scheduled {s : ExecutionState σ} (valid : ∀ d ∈ s.decisions, d.Valid) :
    ∀ d ∈ (s.scheduled S).decisions, d.Valid := by
  by_cases none : s.nextTask = .none
  · simp only [(scheduled_of_none (S := S) none).2, List.mem_append, List.mem_singleton]
    rintro d (mem | rfl)
    exacts [valid d mem, decision_valid picks s]
  · rwa [scheduled_of_pending none]

theorem Selected.step (inv : e.Invariant) (sel : e.Selected) (idle : e.phase = .idle)
    (h : e.exec S .step = some e') : e'.Selected := by
  obtain ⟨state, facts⟩ := exec_step idle h
  refine ⟨by simpa [state] using valid_scheduled picks sel.valid, by simp [state], ?_⟩
  intro tid running
  split at facts
  · rename_i chosen next
    cases running.symm.trans facts.2.1
    simpa [state, Unfinished] using scheduled_unfinished picks inv.dense sel.pending next
  · obtain ⟨-, phase⟩ := facts
    rw [running] at phase
    split at phase <;> cases phase
  · cases running.symm.trans facts.2
  · exact facts.elim

theorem Selected.exec (inv : e.Invariant) (sel : e.Selected) (h : e.exec S a = some e') :
    e'.Selected := by
  cases exec_moves h with
  | step idle h => exact sel.step picks inv idle h
  | task _ frame keeps =>
    exact ⟨frame.decisions ▸ sel.valid, fun t next => keeps t (sel.pending t (frame.nextTask ▸ next)),
      fun t phase => keeps t (sel.running t phase)⟩
  | fast running _ =>
    exact ⟨by simpa using valid_scheduled picks sel.valid, by simp, fun t phase => by
      simpa [Unfinished] using sel.running t phase⟩
  | yield running _ =>
    exact ⟨valid_scheduled picks sel.valid, fun t chosen => by
      simpa [Unfinished] using scheduled_unfinished picks inv.dense sel.pending chosen,
      fun _ phase => by cases phase⟩
  | finish running finished =>
    have frame := frame_updateCurrent finished Task.finish_id
    exact ⟨frame.decisions ▸ sel.valid, fun _ chosen => by
      simp [frame.nextTask, (inv.running running).2.2.1] at chosen, fun _ phase => by cases phase⟩
  | yielded running =>
    exact ⟨sel.valid, fun _ chosen => by simp [(inv.running running).2.2.1] at chosen,
      fun _ phase => by cases phase⟩
  | panicked => exact ⟨sel.valid, sel.pending, fun _ phase => by cases phase⟩

theorem Reachable.selected (reach : e.Reachable S) : e.Selected := by
  obtain ⟨must, thread, _, h⟩ := reach
  refine (run_invariant (P := fun e => e.Invariant ∧ e.Selected)
    (fun ⟨inv, sel⟩ stepped => ⟨inv.exec stepped, sel.exec picks inv stepped⟩) h
    ⟨invariant_start must thread, ?_, ?_, ?_⟩).2 <;>
    simp [start, ExecutionState.new, ExecutionState.spawnThread]

end Picks

end Execution

end TraceForge.Runtime
