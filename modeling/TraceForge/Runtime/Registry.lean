import TraceForge.Runtime.Scheduling

/-! The task registry under any sequence of the operations a run makes on the
`ExecutionState`. Only `spawn_thread` changes the ids, so they are `0..n` in spawn order. -/
namespace TraceForge.Runtime

/-- One operation of the driver or of the running task on the `ExecutionState`. -/
inductive Call
  | spawn (name : Option String)
  | schedule
  | advance
  | maybeYield
  | finish
  | block (tid : TaskId)
  | unblock (tid : TaskId)
  | nextPos
  | prevPos
  deriving DecidableEq, Repr

def Call.spawns : Call → Bool
  | .spawn _ => true
  | _ => false

namespace ExecutionState

variable {σ : Type} (S : Strategy σ)

def call (c : Call) (s : ExecutionState σ) : Option (ExecutionState σ) :=
  match c with
  | .spawn name => some (s.spawnThread name).2
  | .schedule => (s.schedule S).toOption
  | .advance => some s.advanceToNextTask
  | .maybeYield => some (s.maybeYield S).2
  | .finish => s.updateCurrent Task.finish
  | .block tid => s.updateTask tid Task.block
  | .unblock tid => s.updateTask tid Task.unblock
  | .nextPos => (s.nextPos S).map Prod.snd
  | .prevPos => (s.prevPos S).map Prod.snd

def calls : List Call → ExecutionState σ → Option (ExecutionState σ)
  | [], s => some s
  | c :: cs, s => (s.call S c).bind (calls cs)

variable {S} {s s' : ExecutionState σ}

theorem ids_set {l : List Task} {i : Nat} {t u : Task} (found : l[i]? = some t)
    (same : u.id = t.id) : (l.set i u).map Task.id = l.map Task.id := by
  apply List.ext_getElem?
  intro j
  rw [List.getElem?_map, List.getElem?_map, List.getElem?_set]
  split
  · subst j
    simp [(List.getElem?_eq_some_iff.mp found).1, found, same]
  · rfl

theorem updateTask_ids {tid : TaskId} {f : Task → Task} (h : s.updateTask tid f = some s')
    (id : ∀ t, (f t).id = t.id) : s'.tasks.map Task.id = s.tasks.map Task.id := by
  obtain ⟨t, found, rfl⟩ := updateTask_eq_some h
  exact ids_set found (id t)

theorem updateCurrent_ids {f : Task → Task} (h : s.updateCurrent f = some s')
    (id : ∀ t, (f t).id = t.id) : s'.tasks.map Task.id = s.tasks.map Task.id :=
  let ⟨_, _, h⟩ := updateCurrent_eq_some h
  updateTask_ids h id

/-- A call keeps the ids of the registry; a spawn appends the registry's length. -/
theorem call_ids {c : Call} (h : s.call S c = some s') :
    s'.tasks.map Task.id = s.tasks.map Task.id ++ if c.spawns then [⟨s.tasks.length⟩] else [] := by
  cases c with
  | spawn name => cases h; simp [spawnThread, Call.spawns, Task.fromClosure]
  | schedule =>
    simp only [call, schedule_eq, Except.toOption, Option.some.injEq] at h
    simp [← h, Call.spawns]
  | advance => cases h; simp [Call.spawns]
  | maybeYield =>
    cases h
    rw [maybeYield_eq]
    split <;> simp [Call.spawns]
  | finish => simpa [Call.spawns] using updateCurrent_ids h Task.finish_id
  | block tid => simpa [Call.spawns] using updateTask_ids h Task.block_id
  | unblock tid => simpa [Call.spawns] using updateTask_ids h Task.unblock_id
  | nextPos =>
    obtain ⟨⟨ev, s''⟩, moved, rfl⟩ := Option.map_eq_some'.mp h
    simpa [Call.spawns] using updateCurrent_ids (nextPos_eq_some moved) fun _ => rfl
  | prevPos =>
    obtain ⟨⟨ev, s''⟩, moved, rfl⟩ := Option.map_eq_some'.mp h
    simpa [Call.spawns] using updateCurrent_ids (prevPos_eq_some moved) fun _ => rfl

/-- Along any sequence of calls the ids grow by the spawns, numbered on from the length. -/
theorem calls_ids {cs : List Call} (h : s.calls S cs = some s') :
    s'.tasks.map Task.id =
      s.tasks.map Task.id ++ (List.range' s.tasks.length (cs.countP Call.spawns)).map TaskId.mk := by
  induction cs generalizing s with
  | nil => cases h; simp
  | cons c cs ih =>
    obtain ⟨v, called, rest⟩ := Option.bind_eq_some.mp h
    have ids := call_ids called
    have length := congrArg List.length ids
    simp only [List.length_map, List.length_append] at length
    rw [ih rest, ids, List.countP_cons, length]
    cases c.spawns <;> simp [List.range'_succ]

theorem ids_from_new {must : σ} {cs : List Call} (h : (new must).calls S cs = some s) :
    s.tasks.map Task.id = (List.range (cs.countP Call.spawns)).map TaskId.mk := by
  simpa [new, List.range_eq_range'] using calls_ids h

theorem dense_of_ids {n : Nat} (ids : s.tasks.map Task.id = (List.range n).map TaskId.mk) :
    s.DenseIds := by
  intro i t found
  have lt : i < n := by
    have length := congrArg List.length ids
    simp only [List.length_map, List.length_range] at length
    exact length ▸ (List.getElem?_eq_some_iff.mp found).1
  have same := congrArg (·[i]?) ids
  simpa [List.getElem?_map, found, List.getElem?_range lt] using same

/-- From `ExecutionState::new`, along any sequence of calls, `tasks[i].id = TaskId(i)`: the
ids are `0..n` in spawn order and the next `spawn_thread` returns `n`, the number of spawns
so far. So the runnable list `schedule` hands to the Strategy is strictly increasing in id,
and `try_get` (which `get` unwraps) and `get_mut` on an id of that list reach the task
carrying that id. -/
theorem task_ids_are_indices {must : σ} {cs : List Call} (h : (new must).calls S cs = some s) :
    s.tasks.map Task.id = (List.range (cs.countP Call.spawns)).map TaskId.mk ∧
    (∀ i (lt : i < s.tasks.length), s.tasks[i].id = ⟨i⟩) ∧
    (∀ name, (s.spawnThread name).1 = ⟨cs.countP Call.spawns⟩) ∧
    (s.runnable.map fun p => p.1.val).Pairwise (· < ·) ∧
    ∀ p ∈ s.runnable, ∃ t, s.tryGet p.1 = some t ∧ t.id = p.1 ∧ t.runnable = true ∧
      t.instructions = p.2 ∧
      ∀ f, s.updateTask p.1 f = some { s with tasks := s.tasks.set p.1.val (f t) } := by
  have ids := ids_from_new h
  have length : s.tasks.length = cs.countP Call.spawns := by
    simpa using congrArg List.length ids
  have dense := dense_of_ids ids
  refine ⟨ids, fun i lt => dense i _ (List.getElem?_eq_getElem lt),
    fun name => by simp [spawnThread, length], ?_, fun p mem => ?_⟩
  · have vals : s.tasks.map (fun t => t.id.val) = List.range (cs.countP Call.spawns) := by
      simpa [List.map_map, Function.comp_def] using congrArg (List.map TaskId.val) ids
    have sub : (s.runnable.map fun p => p.1.val).Sublist (s.tasks.map fun t => t.id.val) := by
      simpa [runnable, List.map_map, Function.comp_def] using
        (List.filter_sublist (p := Task.runnable) s.tasks).map fun t => t.id.val
    exact (vals ▸ List.pairwise_lt_range _).sublist sub
  · obtain ⟨t, ⟨listed, running⟩, rfl⟩ : ∃ t, (t ∈ s.tasks ∧ t.runnable = true) ∧
        (t.id, t.instructions) = p := by simpa [runnable] using mem
    have found := dense.tryGet_id listed
    exact ⟨t, found, rfl, running, rfl, fun f => by simp [updateTask, found]⟩

theorem task_ids_after_second_spawn : ∃ s,
    (new ()).calls lowestFirst [.spawn (some "main"), .schedule, .advance, .spawn none] = some s ∧
    (s.tasks.map Task.id = (List.range 2).map TaskId.mk ∧
    (∀ i (lt : i < s.tasks.length), s.tasks[i].id = ⟨i⟩) ∧
    (∀ name, (s.spawnThread name).1 = ⟨2⟩) ∧
    (s.runnable.map fun p => p.1.val).Pairwise (· < ·) ∧
    ∀ p ∈ s.runnable, ∃ t, s.tryGet p.1 = some t ∧ t.id = p.1 ∧ t.runnable = true ∧
      t.instructions = p.2 ∧
      ∀ f, s.updateTask p.1 f = some { s with tasks := s.tasks.set p.1.val (f t) }) := by
  obtain ⟨s, run⟩ : ∃ s, (new ()).calls lowestFirst
      [.spawn (some "main"), .schedule, .advance, .spawn none] = some s := ⟨_, rfl⟩
  exact ⟨s, run, task_ids_are_indices run⟩

end ExecutionState

end TraceForge.Runtime
