import TraceForge.Runtime.ExecutionState

/-! `Execution::step` and the loop of `Execution::run` as a transition system. What a resumed
task does until its resume returns is any sequence of task actions, ended by one of the three
results of `resume` that phase C classifies. -/
namespace TraceForge.Runtime

inductive NextStep
  | task (tid : TaskId)
  | failure (msg : String)
  | finished
  deriving DecidableEq, Repr

def blockedTasks (tasks : List Task) : List String :=
  (tasks.filter fun t => !t.finished).map fun t =>
    t.name.getD "<unknown>" ++ " (task " ++ toString t.id.val ++ ")"

def deadlockMessage (tasks : List Task) : String :=
  "deadlock! blocked tasks: [" ++ ", ".intercalate (blockedTasks tasks) ++ "]"

namespace ExecutionState

variable {σ : Type} (S : Strategy σ)

/-- Phase A of `step`, inside `ExecutionState::with`. -/
def stepChoose (s : ExecutionState σ) : Option (NextStep × ExecutionState σ) :=
  match s.schedule S with
  | .error msg => some (.failure msg, s)
  | .ok s =>
    let s := s.advanceToNextTask
    match s.currentTask with
    | .some tid => (s.tryGet tid).map fun _ => (.task tid, s)
    | .finished =>
      some (if s.tasks.any fun t => !t.finished then .failure (deadlockMessage s.tasks)
        else .finished, s)
    | .stopped => some (.finished, s)
    | .none => some (.failure "no task was scheduled", s)

theorem stepChoose_eq (s : ExecutionState σ) : s.stepChoose S =
    match (s.scheduled S).advanceToNextTask.currentTask with
    | .some tid => ((s.scheduled S).advanceToNextTask.tryGet tid).map
        fun _ => (.task tid, (s.scheduled S).advanceToNextTask)
    | .finished =>
      some (if (s.scheduled S).tasks.any (fun t => !t.finished)
        then .failure (deadlockMessage (s.scheduled S).tasks) else .finished,
        (s.scheduled S).advanceToNextTask)
    | .stopped => some (.finished, (s.scheduled S).advanceToNextTask)
    | .none => some (.failure "no task was scheduled", (s.scheduled S).advanceToNextTask) := by
  simp only [stepChoose, schedule_eq, advanceToNextTask_tasks]

theorem stepChoose_state {s s' : ExecutionState σ} {next : NextStep}
    (h : s.stepChoose S = some (next, s')) : s' = (s.scheduled S).advanceToNextTask := by
  rw [stepChoose_eq] at h
  split at h
  · obtain ⟨_, -, same⟩ := Option.map_eq_some'.mp h
    exact (Prod.mk.inj same).2.symm
  all_goals exact (Prod.mk.inj (Option.some.inj h)).2.symm

end ExecutionState

/-- Where the loop of `Execution::run` stands: before a call of `step`, inside the resume
of a task, after `step` returned false, or after `step` raised a panic with the message
and position it handed to `persist_task_failure`. -/
inductive Phase
  | idle
  | running (tid : TaskId)
  | exited
  | failed (msg : String) (pos : Option Event)
  deriving DecidableEq, Repr

/-- One action of a run: the loop calls `step`, the running task acts, or its resume
returns finished, yielded or panicked. -/
inductive Action
  | step
  | spawn (name : Option String)
  | block (tid : TaskId)
  | unblock (tid : TaskId)
  | nextPos
  | prevPos
  | maybeYield
  | returned
  | yielded
  | panicked
  deriving DecidableEq, Repr

/-- An execution of `Execution::run`: the state, the loop's phase, and the history of the
tasks whose continuation `step` resumed. -/
structure Execution (σ : Type) where
  state : ExecutionState σ
  phase : Phase
  resumed : List TaskId

namespace Execution

variable {σ : Type} (S : Strategy σ)

def start (must : σ) (thread : String) : Execution σ :=
  ⟨((ExecutionState.new must).spawnThread (some ("main-thread-" ++ thread))).2, .idle, []⟩

def proceed (e : Execution σ) : NextStep → ExecutionState σ → Execution σ
  | .task tid, s => ⟨s, .running tid, e.resumed ++ [tid]⟩
  | .failure msg, s => ⟨s, .failed msg ((s.failureInfo S).map Prod.snd), e.resumed⟩
  | .finished, s => ⟨s, .exited, e.resumed⟩

/-- One action; `none` when the action is not possible in the phase, or the engine panics
in an `unwrap`. -/
def exec (a : Action) (e : Execution σ) : Option (Execution σ) :=
  match e.phase, a with
  | .idle, .step => (e.state.stepChoose S).map fun next => e.proceed S next.1 next.2
  | .running _, .spawn name => some { e with state := (e.state.spawnThread name).2 }
  | .running _, .block tid =>
    (e.state.updateTask tid Task.block).map fun s => { e with state := s }
  | .running _, .unblock tid =>
    (e.state.updateTask tid Task.unblock).map fun s => { e with state := s }
  | .running _, .nextPos => (e.state.nextPos S).map fun (_, s) => { e with state := s }
  | .running _, .prevPos => (e.state.prevPos S).map fun (_, s) => { e with state := s }
  | .running tid, .maybeYield =>
    some { e with state := (e.state.maybeYield S).2
                  phase := if (e.state.maybeYield S).1 then .idle else .running tid }
  | .running _, .returned =>
    (e.state.updateCurrent Task.finish).map fun s => { e with state := s, phase := .idle }
  | .running _, .yielded => some { e with phase := .idle }
  | .running _, .panicked =>
    (e.state.failureInfo S).map fun (name, pos) => { e with phase := .failed name (some pos) }
  | _, _ => none

def run : List Action → Execution σ → Option (Execution σ)
  | [], e => some e
  | a :: acts, e => (e.exec S a).bind (run acts)

def Reachable (e : Execution σ) : Prop :=
  ∃ must thread acts, (start must thread).run S acts = some e

end Execution

end TraceForge.Runtime
