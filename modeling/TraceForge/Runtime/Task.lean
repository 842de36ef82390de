import Mathlib.Data.List.Basic

/-! Tasks of one execution. `runtime/task.rs` is not among the sources: the task record
follows the spec (a task is runnable iff it is neither finished nor blocked, and finishing
is terminal), and the engine reaches it only through the operations below. -/
namespace TraceForge.Runtime

/-- `TaskId(usize)`: the identity of a task and its index in the registry. -/
structure TaskId where
  val : Nat
  deriving DecidableEq, Repr

/-- `Event::new(thread, icount)`: a position, as the Strategy's thread id and a `u32` count. -/
structure Event where
  thread : Nat
  icount : UInt32
  deriving DecidableEq, Repr

/-- Modelled from the spec: the scheduling state of a task of `runtime/task.rs`. -/
inductive TaskState
  | runnable
  | blocked
  | finished
  deriving DecidableEq, Repr

/-- Modelled from the spec: the task record of `runtime/task.rs`. Its continuation is not
a field; what the task's code does is the choice of actions in `Execution.exec`. -/
structure Task where
  id : TaskId
  name : Option String
  instructions : Nat
  state : TaskState
  deriving DecidableEq, Repr

namespace Task

def fromClosure (id : TaskId) (name : Option String) : Task := ⟨id, name, 0, .runnable⟩

def runnable (t : Task) : Bool := decide (t.state = .runnable)

def finished (t : Task) : Bool := decide (t.state = .finished)

def finish (t : Task) : Task := { t with state := .finished }

/-- Modelled from the spec: a sync primitive blocks a task, and `unblock` makes it runnable
again; a finished task stays finished. The assertions `runtime/task.rs` makes on these calls
are not modelled. -/
def block (t : Task) : Task := if t.finished then t else { t with state := .blocked }

def unblock (t : Task) : Task := if t.finished then t else { t with state := .runnable }

@[simp] theorem finish_id (t : Task) : t.finish.id = t.id := rfl

@[simp] theorem finished_finish (t : Task) : t.finish.finished = true := rfl

@[simp] theorem block_id (t : Task) : t.block.id = t.id := by
  unfold block; split <;> rfl

@[simp] theorem unblock_id (t : Task) : t.unblock.id = t.id := by
  unfold unblock; split <;> rfl

@[simp] theorem finish_instructions (t : Task) : t.finish.instructions = t.instructions := rfl

@[simp] theorem block_instructions (t : Task) : t.block.instructions = t.instructions := by
  unfold block; split <;> rfl

@[simp] theorem unblock_instructions (t : Task) : t.unblock.instructions = t.instructions := by
  unfold unblock; split <;> rfl

@[simp] theorem block_finished (t : Task) : t.block.finished = t.finished := by
  unfold block; split <;> simp_all [finished]

@[simp] theorem unblock_finished (t : Task) : t.unblock.finished = t.finished := by
  unfold unblock; split <;> simp_all [finished]

theorem finished_eq_false_of_runnable {t : Task} (h : t.runnable = true) : t.finished = false := by
  simp_all [runnable, finished]

end Task

end TraceForge.Runtime
