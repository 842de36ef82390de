import TraceForge.Runtime.Task

/-! The per-execution state of `runtime/execution.rs` and the operations the driver and the
running task perform on it. The Strategy (`Must`) is a parameter with a state of its own; a
`none` result of an operation is a panic of the code, an `unwrap` on `None`. -/
namespace TraceForge.Runtime

/-- `ScheduledTask`. The field comment of `current_task` asks `Stopped` and `Finished` to be
absorbing. -/
inductive ScheduledTask
  | none
  | some (tid : TaskId)
  | stopped
  | finished
  deriving DecidableEq, Repr

namespace ScheduledTask

def id : ScheduledTask → Option TaskId
  | .some tid => Option.some tid
  | _ => Option.none

def pending : ScheduledTask → List ScheduledTask
  | .none => []
  | x => [x]

@[simp] theorem pending_none : ScheduledTask.none.pending = [] := rfl

theorem pending_of_ne_none {x : ScheduledTask} (h : x ≠ .none) : x.pending = [x] := by
  cases x <;> simp_all [pending]

end ScheduledTask

/-- A decision of `schedule`: the Strategy's answer to `next_task(runnable, last)`, or no
runnable task at all. -/
inductive Decision
  | noneRunnable
  | asked (runnable : List (TaskId × Nat)) (last : Option TaskId) (answer : Option TaskId)
  deriving DecidableEq, Repr

namespace Decision

def choice : Decision → ScheduledTask
  | .noneRunnable => .finished
  | .asked _ _ answer => (answer.map ScheduledTask.some).getD .stopped

def Valid : Decision → Prop
  | .asked runnable _ (Option.some tid) => tid ∈ runnable.map Prod.fst
  | _ => True

theorem choice_ne_none (d : Decision) : d.choice ≠ .none := by
  cases d with
  | noneRunnable => simp [choice]
  | asked runnable last answer => cases answer <;> simp [choice]

theorem choice_eq_some {d : Decision} {tid : TaskId} (chosen : d.choice = .some tid) :
    ∃ runnable last, d = .asked runnable last (Option.some tid) := by
  cases d with
  | noneRunnable => simp [choice] at chosen
  | asked runnable last answer => cases answer <;> simp_all [choice]

end Decision

/-- The Strategy (`Must`) as the engine calls it, over its own state `σ`. -/
structure Strategy (σ : Type) where
  nextTask : σ → List (TaskId × Nat) → Option TaskId → σ × Option TaskId
  toThreadId : σ → TaskId → Nat

/-- The contract of `next_task`: a member of the nonempty runnable list, or `None`. -/
def Strategy.Picks {σ : Type} (S : Strategy σ) : Prop :=
  ∀ m runnable last tid, runnable ≠ [] → (S.nextTask m runnable last).2 = some tid →
    tid ∈ runnable.map Prod.fst

/-- `ExecutionState`, with two history variables that no operation reads. -/
structure ExecutionState (σ : Type) where
  tasks : List Task
  currentTask : ScheduledTask
  nextTask : ScheduledTask
  must : σ
  hasCleanedUp : Bool
  /-- Every decision `schedule` stored into `next_task`, in order. -/
  decisions : List Decision
  /-- Every value `advance_to_next_task` moved into `current_task`, in order. -/
  advanced : List ScheduledTask

namespace ExecutionState

variable {σ : Type} (S : Strategy σ)

def new (must : σ) : ExecutionState σ := ⟨[], .none, .none, must, false, [], []⟩

/-- `try_get`; `get` and `get_mut` unwrap it. -/
def tryGet (s : ExecutionState σ) (id : TaskId) : Option Task := s.tasks[id.val]?

def tryCurrent (s : ExecutionState σ) : Option Task := s.currentTask.id.bind s.tryGet

/-- `get_mut(tid)` followed by a change of the task in place. -/
def updateTask (tid : TaskId) (f : Task → Task) (s : ExecutionState σ) :
    Option (ExecutionState σ) :=
  (s.tryGet tid).map fun t => { s with tasks := s.tasks.set tid.val (f t) }

def updateCurrent (f : Task → Task) (s : ExecutionState σ) : Option (ExecutionState σ) :=
  s.currentTask.id.bind fun tid => s.updateTask tid f

/-- `spawn_thread`: the new task's id is the length of the registry. -/
def spawnThread (name : Option String) (s : ExecutionState σ) : TaskId × ExecutionState σ :=
  let taskId : TaskId := ⟨s.tasks.length⟩
  (taskId, { s with tasks := s.tasks ++ [Task.fromClosure taskId name] })

def runnable (s : ExecutionState σ) : List (TaskId × Nat) :=
  (s.tasks.filter Task.runnable).map fun t => (t.id, t.instructions)

def schedule (s : ExecutionState σ) : Except String (ExecutionState σ) :=
  if s.nextTask ≠ .none then .ok s
  else if s.runnable.isEmpty then
    .ok { s with nextTask := .finished, decisions := s.decisions ++ [.noneRunnable] }
  else
    let (must, answer) := S.nextTask s.must s.runnable s.currentTask.id
    .ok { s with
      nextTask := (answer.map ScheduledTask.some).getD .stopped
      must := must
      decisions := s.decisions ++ [.asked s.runnable s.currentTask.id answer] }

def advanceToNextTask (s : ExecutionState σ) : ExecutionState σ :=
  { s with currentTask := s.nextTask, nextTask := .none, advanced := s.advanced ++ [s.nextTask] }

def maybeYield (s : ExecutionState σ) : Bool × ExecutionState σ :=
  match s.schedule S with
  | .error _ => (true, s)
  | .ok s => if s.currentTask = s.nextTask then (false, s.advanceToNextTask) else (true, s)

def position (s : ExecutionState σ) (t : Task) : Event :=
  ⟨S.toThreadId s.must t.id, UInt32.ofNat t.instructions⟩

def currPos (s : ExecutionState σ) : Option Event := s.tryCurrent.map (s.position S)

def nextPos (s : ExecutionState σ) : Option (Event × ExecutionState σ) := do
  let s ← s.updateCurrent fun t => { t with instructions := t.instructions + 1 }
  let e ← s.currPos S
  pure (e, s)

/-- `prev_pos`; `instructions -= 1` overflows (a panic) at zero. -/
def prevPos (s : ExecutionState σ) : Option (Event × ExecutionState σ) := do
  let t ← s.tryCurrent
  let s ← if t.instructions = 0 then Option.none
    else s.updateCurrent fun t => { t with instructions := t.instructions - 1 }
  let e ← s.currPos S
  pure (e, s)

/-- `failure_info`: the current task's name (or `task-<id>`) and position. -/
def failureInfo (s : ExecutionState σ) : Option (String × Event) :=
  s.tryCurrent.map fun task => (task.name.getD ("task-" ++ toString task.id.val), s.position S task)

/-- `cleanup`, with its two assertions. The third, that each continuation is no longer
shared, is about reference counts and is not modelled. -/
def cleanup (s : ExecutionState σ) : Except String (ExecutionState σ) :=
  if s.currentTask = .stopped ∨ s.currentTask = .finished then
    if s.tasks.all fun t => decide (s.currentTask = .stopped) || t.finished then
      .ok { s with tasks := [], hasCleanedUp := true }
    else .error "execution finished but task is not"
  else .error "assertion failed: state.current_task == ScheduledTask::Stopped || state.current_task == ScheduledTask::Finished"

/-- The decision `schedule` takes when no choice is pending, and the Strategy's state after it. -/
def decision (s : ExecutionState σ) : Decision × σ :=
  if s.runnable.isEmpty then (.noneRunnable, s.must)
  else (.asked s.runnable s.currentTask.id (S.nextTask s.must s.runnable s.currentTask.id).2,
    (S.nextTask s.must s.runnable s.currentTask.id).1)

/-- The state `schedule` leaves: a pending choice is kept, otherwise a decision is stored. -/
def scheduled (s : ExecutionState σ) : ExecutionState σ :=
  if s.nextTask = .none then
    { s with nextTask := (s.decision S).1.choice, must := (s.decision S).2
             decisions := s.decisions ++ [(s.decision S).1] }
  else s

def DenseIds (s : ExecutionState σ) : Prop := ∀ (i : Nat) (t : Task), s.tasks[i]? = some t → t.id = ⟨i⟩

section Lemmas

variable {S} {s s' : ExecutionState σ}

theorem schedule_eq (s : ExecutionState σ) : s.schedule S = .ok (s.scheduled S) := by
  unfold schedule scheduled decision
  by_cases pending : s.nextTask = .none
  · by_cases empty : s.runnable.isEmpty <;> simp [pending, empty, Decision.choice]
  · simp [pending]

@[simp] theorem scheduled_tasks : (s.scheduled S).tasks = s.tasks := by
  unfold scheduled; split <;> rfl

@[simp] theorem scheduled_currentTask : (s.scheduled S).currentTask = s.currentTask := by
  unfold scheduled; split <;> rfl

@[simp] theorem scheduled_advanced : (s.scheduled S).advanced = s.advanced := by
  unfold scheduled; split <;> rfl

theorem scheduled_of_pending (pending : s.nextTask ≠ .none) : s.scheduled S = s := by
  simp [scheduled, pending]

theorem scheduled_of_none (none : s.nextTask = .none) :
    (s.scheduled S).nextTask = (s.decision S).1.choice ∧
      (s.scheduled S).decisions = s.decisions ++ [(s.decision S).1] := by
  simp [scheduled, none]

theorem scheduled_nextTask_ne_none : (s.scheduled S).nextTask ≠ .none := by
  by_cases none : s.nextTask = .none
  · simpa [(scheduled_of_none none).1] using Decision.choice_ne_none _
  · simpa [scheduled_of_pending none] using none

@[simp] theorem advanceToNextTask_tasks : s.advanceToNextTask.tasks = s.tasks := rfl
@[simp] theorem advanceToNextTask_currentTask : s.advanceToNextTask.currentTask = s.nextTask := rfl
@[simp] theorem advanceToNextTask_nextTask : s.advanceToNextTask.nextTask = .none := rfl
@[simp] theorem advanceToNextTask_decisions : s.advanceToNextTask.decisions = s.decisions := rfl
@[simp] theorem advanceToNextTask_advanced :
    s.advanceToNextTask.advanced = s.advanced ++ [s.nextTask] := rfl

theorem maybeYield_eq (s : ExecutionState σ) : s.maybeYield S =
    if (s.scheduled S).currentTask = (s.scheduled S).nextTask
    then (false, (s.scheduled S).advanceToNextTask) else (true, s.scheduled S) := by
  simp only [maybeYield, schedule_eq]

theorem scheduled_decisions (s : ExecutionState σ) : ∃ new, (s.scheduled S).decisions =
    s.decisions ++ new ∧ ∀ runnable last answer, .asked runnable last answer ∈ new →
      last = s.currentTask.id := by
  by_cases none : s.nextTask = .none
  · refine ⟨[(s.decision S).1], (scheduled_of_none none).2, ?_⟩
    unfold decision
    split <;> simp_all
  · exact ⟨[], by simp [scheduled_of_pending none], by simp⟩

theorem decision_fst_of_ne_nil (ne : s.runnable ≠ []) : (s.decision S).1 =
    .asked s.runnable s.currentTask.id (S.nextTask s.must s.runnable s.currentTask.id).2 := by
  simp [decision, ne]

theorem decision_valid (picks : S.Picks) (s : ExecutionState σ) : (s.decision S).1.Valid := by
  by_cases empty : s.runnable = []
  · simp [decision, empty, Decision.Valid]
  · rw [decision_fst_of_ne_nil empty]
    cases answer : (S.nextTask s.must s.runnable s.currentTask.id).2 with
    | none => trivial
    | some tid => exact picks _ _ _ _ empty answer

theorem mem_runnable_ids {tid : TaskId} (mem : tid ∈ s.runnable.map Prod.fst) :
    ∃ t ∈ s.tasks, t.runnable = true ∧ t.id = tid := by
  simpa [runnable, and_assoc] using mem

theorem updateTask_eq_some {tid : TaskId} {f : Task → Task} (h : s.updateTask tid f = some s') :
    ∃ t, s.tasks[tid.val]? = some t ∧ s' = { s with tasks := s.tasks.set tid.val (f t) } := by
  simp only [updateTask, tryGet, Option.map_eq_some'] at h
  obtain ⟨t, found, rfl⟩ := h
  exact ⟨t, found, rfl⟩

theorem DenseIds.tryGet_id (dense : s.DenseIds) {t : Task} (mem : t ∈ s.tasks) :
    s.tryGet t.id = some t := by
  obtain ⟨i, found⟩ := List.getElem?_of_mem mem
  simp [tryGet, dense i t found, found]

theorem DenseIds.set (dense : s.DenseIds) {i : Nat} {t : Task} (same : t.id = ⟨i⟩) :
    (⟨s.tasks.set i t, s.currentTask, s.nextTask, s.must, s.hasCleanedUp, s.decisions,
      s.advanced⟩ : ExecutionState σ).DenseIds := by
  intro j u found
  rw [List.getElem?_set] at found
  split at found
  · split at found
    · cases found; subst j; exact same
    · cases found
  · exact dense j u found

theorem DenseIds.spawn (dense : s.DenseIds) (name : Option String) :
    (s.spawnThread name).2.DenseIds := by
  intro j u found
  simp only [spawnThread, List.getElem?_append] at found
  split at found
  · exact dense j u found
  · obtain ⟨small, rfl⟩ : j - s.tasks.length < 1 ∧ Task.fromClosure _ name = u := by
      simpa [List.getElem?_eq_some_iff] using found
    simp [Task.fromClosure]
    omega

end Lemmas

end ExecutionState

end TraceForge.Runtime
