import Mathlib.Algebra.Group.Nat.Basic
import TraceForge.Runtime.Scheduling

/-! Positions of the running task. `next_pos` and `prev_pos` move the task's `instructions`
counter, which is exact and is what `schedule` hands to the Strategy; the `Event` they and
`curr_pos` return holds that counter `as u32`, so it is exact only below `2^32`. -/
namespace TraceForge.Runtime

/-- A position call of the running task: `next_pos`, `prev_pos` or `curr_pos`. -/
inductive PosCall
  | next
  | prev
  | curr
  deriving DecidableEq, Repr

def PosCall.step : PosCall → Nat → Nat
  | .next, n => n + 1
  | .prev, n => n - 1
  | .curr, n => n

namespace ExecutionState

variable {σ : Type} (S : Strategy σ)

def posCall (c : PosCall) (s : ExecutionState σ) : Option (Event × ExecutionState σ) :=
  match c with
  | .next => s.nextPos S
  | .prev => s.prevPos S
  | .curr => (s.currPos S).map fun ev => (ev, s)

def positions : List PosCall → ExecutionState σ → Option (List Event × ExecutionState σ)
  | [], s => some ([], s)
  | c :: cs, s => (s.posCall S c).bind fun (ev, s) =>
    (positions cs s).map fun (evs, s) => (ev :: evs, s)

variable {S} {s : ExecutionState σ} {tid : TaskId} {t : Task}

theorem set_self {l : List Task} {i : Nat} (found : l[i]? = some t) : l.set i t = l := by
  apply List.ext_getElem?
  intro j
  rw [List.getElem?_set]
  split
  · subst j
    simp [(List.getElem?_eq_some_iff.mp found).1, found]
  · rfl

theorem posCall_eq (current : s.currentTask = .some tid) (found : s.tasks[tid.val]? = some t)
    {c : PosCall} (valid : c = .prev → 0 < t.instructions) :
    s.posCall S c = some (⟨S.toThreadId s.must t.id, UInt32.ofNat (c.step t.instructions)⟩,
      { s with tasks := s.tasks.set tid.val { t with instructions := c.step t.instructions } }) := by
  have bound : tid.val < s.tasks.length := (List.getElem?_eq_some_iff.mp found).1
  cases c with
  | next =>
    simp [posCall, nextPos, updateCurrent, updateTask, currPos, tryCurrent, tryGet, position,
      current, ScheduledTask.id, found, bound, PosCall.step]
  | prev =>
    have positive := valid rfl
    simp [posCall, prevPos, updateCurrent, updateTask, currPos, tryCurrent, tryGet, position,
      current, ScheduledTask.id, found, bound, PosCall.step, Nat.pos_iff_ne_zero.mp positive]
  | curr =>
    have running : s.tryCurrent = some t := by
      simp [tryCurrent, tryGet, current, ScheduledTask.id, found]
    simp only [posCall, currPos, running, Option.map_some', position, PosCall.step, set_self found]

theorem step_count (c : PosCall) (l : List PosCall) (n : Nat)
    (first : [c].count .prev ≤ n + [c].count .next)
    (rest : (c :: l).count .prev ≤ n + (c :: l).count .next) :
    c.step n + l.count .next - l.count .prev = n + (c :: l).count .next - (c :: l).count .prev := by
  cases c <;> simp [PosCall.step, List.count_cons] at first rest ⊢ <;> omega

/-- A sequence of position calls in which no prefix has more `prev_pos` than the counter
and the `next_pos` calls allow: the `k`-th `Event` holds the exact count after `k + 1`
calls `as u32`, and the task is left with the exact final count. -/
theorem positions_eq (current : s.currentTask = .some tid) (found : s.tasks[tid.val]? = some t)
    {cs : List PosCall}
    (balanced : ∀ k, (cs.take k).count .prev ≤ t.instructions + (cs.take k).count .next) :
    s.positions S cs = some ((List.range cs.length).map fun k =>
        ⟨S.toThreadId s.must t.id, UInt32.ofNat
          (t.instructions + (cs.take (k + 1)).count .next - (cs.take (k + 1)).count .prev)⟩,
      { s with tasks := (s.tasks.set tid.val
          { t with instructions := t.instructions + cs.count .next - cs.count .prev }) }) := by
  induction cs generalizing s t with
  | nil => simp [positions, set_self found]
  | cons c cs ih =>
    have first := balanced 1
    simp only [List.take_succ_cons, List.take_zero] at first
    have valid : c = .prev → 0 < t.instructions := by
      rintro rfl
      simpa using first
    have bound : tid.val < s.tasks.length := (List.getElem?_eq_some_iff.mp found).1
    have later : ∀ k, (cs.take k).count .prev ≤ c.step t.instructions + (cs.take k).count .next :=
      fun k => by
        have := balanced (k + 1)
        cases c <;> simp [PosCall.step, List.take_succ_cons, List.count_cons] at this first ⊢ <;>
          omega
    have moved : ({ s with tasks := (s.tasks.set tid.val
        { t with instructions := c.step t.instructions }) } : ExecutionState σ).tasks[tid.val]? =
        some { t with instructions := c.step t.instructions } := List.getElem?_set_self bound
    rw [positions, posCall_eq current found valid, Option.some_bind]
    dsimp only
    rw [ih (s := { s with tasks := (s.tasks.set tid.val
      { t with instructions := c.step t.instructions }) }) current moved later]
    simp only [Option.map_some', List.length_cons, List.range_succ_eq_map, List.map_cons,
      List.map_map, List.set_set, Option.some.injEq, Prod.mk.injEq, List.cons.injEq]
    refine ⟨⟨?_, ?_⟩, ?_⟩
    · simp only [Nat.zero_add, List.take_succ_cons, List.take_zero]
      rw [← step_count c [] t.instructions first first]
      simp
    · congr 1
      funext k
      simp only [Function.comp_apply, Nat.succ_eq_add_one, List.take_succ_cons]
      rw [step_count c _ _ first (by simpa [List.take_succ_cons] using balanced (k + 2))]
    · rw [step_count c _ _ first (by simpa using balanced (cs.length + 1))]

/-- Each `Event` of a sequence of position calls with no underflowing prefix names the
task's thread and holds the exact count modulo `2^32`; the task keeps the exact count, the
one `schedule` hands to the Strategy. -/
theorem event_count_mod_u32 (current : s.currentTask = .some tid)
    (found : s.tasks[tid.val]? = some t) {cs : List PosCall}
    (balanced : ∀ k, (cs.take k).count .prev ≤ t.instructions + (cs.take k).count .next) :
    ∃ evs s', s.positions S cs = some (evs, s') ∧ evs.length = cs.length ∧
      (∀ k (lt : k < evs.length), evs[k].thread = S.toThreadId s.must t.id ∧
        evs[k].icount.toNat = (t.instructions + (cs.take (k + 1)).count .next -
          (cs.take (k + 1)).count .prev) % 2 ^ 32) ∧
      s'.tryGet tid = some { t with instructions := (t.instructions + cs.count .next -
        cs.count .prev) } := by
  have bound : tid.val < s.tasks.length := (List.getElem?_eq_some_iff.mp found).1
  refine ⟨_, _, positions_eq current found balanced, by simp, fun k lt => ⟨by simp, ?_⟩,
    by simp [tryGet, bound]⟩
  simp only [List.getElem_map, List.getElem_range]
  rfl

theorem event_count_mod_u32_in_main : mainRunning.state.currentTask = .some ⟨0⟩ ∧
    mainRunning.state.tasks[(⟨0⟩ : TaskId).val]? =
      some (Task.fromClosure ⟨0⟩ (some "main-thread-0")) ∧
    (∀ k, (([.next, .next, .prev, .curr] : List PosCall).take k).count .prev ≤
      (Task.fromClosure ⟨0⟩ (some "main-thread-0")).instructions +
        (([.next, .next, .prev, .curr] : List PosCall).take k).count .next) ∧
    ∃ evs s', mainRunning.state.positions lowestFirst [.next, .next, .prev, .curr] =
        some (evs, s') ∧ evs.length = 4 ∧
      (∀ k (lt : k < evs.length), evs[k].thread = lowestFirst.toThreadId () ⟨0⟩ ∧
        evs[k].icount.toNat = ((Task.fromClosure ⟨0⟩ (some "main-thread-0")).instructions +
          (([.next, .next, .prev, .curr] : List PosCall).take (k + 1)).count .next -
          (([.next, .next, .prev, .curr] : List PosCall).take (k + 1)).count .prev) % 2 ^ 32) ∧
      s'.tryGet ⟨0⟩ = some { Task.fromClosure ⟨0⟩ (some "main-thread-0") with instructions :=
        ((Task.fromClosure ⟨0⟩ (some "main-thread-0")).instructions +
          ([.next, .next, .prev, .curr] : List PosCall).count .next -
          ([.next, .next, .prev, .curr] : List PosCall).count .prev) } := by
  have balanced : ∀ k, (([.next, .next, .prev, .curr] : List PosCall).take k).count .prev ≤
      (Task.fromClosure ⟨0⟩ (some "main-thread-0")).instructions +
        (([.next, .next, .prev, .curr] : List PosCall).take k).count .next := by
    intro k
    rcases k with _ | _ | _ | _ | k <;> simp [List.count_cons, Task.fromClosure]
  have current : mainRunning.state.currentTask = .some ⟨0⟩ := rfl
  have found : mainRunning.state.tasks[(⟨0⟩ : TaskId).val]? =
      some (Task.fromClosure ⟨0⟩ (some "main-thread-0")) := rfl
  exact ⟨current, found, balanced, event_count_mod_u32 current found balanced⟩

/-- `next_pos` called `2^32 + 1` times on a fresh task: the count `as u32` wraps, so the
first and the last call return the same `Event`, holding 1, while `schedule` hands the
Strategy the count `2^32 + 1`. -/
theorem nextPos_repeats_after_u32_wrap :
    ∃ evs s, mainRunning.state.positions lowestFirst (List.replicate (2 ^ 32 + 1) .next) =
      some (evs, s) ∧ evs[0]? = evs[2 ^ 32]? ∧ evs[2 ^ 32]?.map Event.icount = some 1 ∧
      s.runnable = [(⟨0⟩, 2 ^ 32 + 1)] := by
  have current : mainRunning.state.currentTask = .some ⟨0⟩ := rfl
  have found : mainRunning.state.tasks[(⟨0⟩ : TaskId).val]? =
      some (Task.fromClosure ⟨0⟩ (some "main-thread-0")) := rfl
  have balanced : ∀ k, ((List.replicate (2 ^ 32 + 1) PosCall.next).take k).count .prev ≤
      (Task.fromClosure ⟨0⟩ (some "main-thread-0")).instructions +
        ((List.replicate (2 ^ 32 + 1) PosCall.next).take k).count .next := by
    intro k
    simp only [List.take_replicate, List.count_replicate]
    simp
  refine ⟨_, _, positions_eq current found balanced, ?_, ?_, ?_⟩
  all_goals simp only [List.length_replicate, List.getElem?_map,
    List.getElem?_range (Nat.succ_pos (2 ^ 32)),
    List.getElem?_range (Nat.lt_succ_self (2 ^ 32)), List.take_replicate,
    List.count_replicate, Option.map_some']
  all_goals decide

end ExecutionState

def Action.shift : Action → Int
  | .nextPos => 1
  | .prevPos => -1
  | _ => 0

namespace Execution

open ExecutionState

variable {σ : Type} (S : Strategy σ)

def count (e : Execution σ) (i : Nat) : Int :=
  (e.state.tasks[i]?.map fun t => (t.instructions : Int)).getD 0

/-- The `next_pos` calls minus the `prev_pos` calls task `tid` makes along a run. -/
def moves (tid : TaskId) : List Action → Execution σ → Int
  | [], _ => 0
  | a :: acts, e => (if e.phase = .running tid then a.shift else 0) +
    ((e.exec S a).map (moves tid acts)).getD 0

variable {S} {e e' : Execution σ} {a : Action}

theorem count_of_tasks (same : e'.state.tasks = e.state.tasks) (i : Nat) : count e' i = count e i := by
  simp [count, same]

theorem count_set {t u : Task} {j : Nat} {s : ExecutionState σ} {phase : Phase}
    {resumed : List TaskId} (found : e.state.tasks[j]? = some t)
    (same : s.tasks = e.state.tasks.set j u) (i : Nat) :
    count ⟨s, phase, resumed⟩ i =
      count e i + if j = i then (u.instructions - t.instructions : Int) else 0 := by
  rw [count, count, same, List.getElem?_set]
  split
  · subst i
    simp only [found, (List.getElem?_eq_some_iff.mp found).1, if_true, Option.map_some',
      Option.getD_some]
    omega
  · simp

theorem exec_count (inv : e.Invariant) (h : e.exec S a = some e') (i : Nat) :
    count e' i = count e i + if e.phase = .running ⟨i⟩ then a.shift else 0 := by
  cases phase : e.phase with
  | idle =>
    cases a
    case step =>
      have same : e'.state.tasks = e.state.tasks := by simp [(exec_step phase h).1]
      simp [count_of_tasks same i]
    all_goals simp [exec, phase] at h
  | running tid =>
    have current := (inv.running phase).1
    have moved {f : Task → Task} {s' : ExecutionState σ} (updated : e.state.updateCurrent f = some s') :
        ∃ u, e.state.tasks[tid.val]? = some u ∧ s'.tasks = e.state.tasks.set tid.val (f u) := by
      obtain ⟨tid', same, updated⟩ := updateCurrent_eq_some updated
      simp only [current, ScheduledTask.id, Option.some.injEq] at same
      subst same
      obtain ⟨u, found, rfl⟩ := updateTask_eq_some updated
      exact ⟨u, found, rfl⟩
    have self : (Phase.running tid = .running ⟨i⟩) ↔ tid.val = i :=
      ⟨fun same => by cases same; rfl, fun same => by subst same; rfl⟩
    cases a with
    | step => simp [exec, phase] at h
    | maybeYield =>
      simp only [exec, phase, Option.some.injEq] at h
      subst h
      have same : (e.state.maybeYield S).2.tasks = e.state.tasks := by
        rw [maybeYield_eq]; split <;> simp
      simp [count, same, Action.shift]
    | yielded =>
      simp only [exec, phase, Option.some.injEq] at h
      subst h
      simp [count, Action.shift]
    | panicked =>
      simp only [exec, phase] at h
      obtain ⟨_, -, rfl⟩ := Option.map_eq_some'.mp h
      simp [count, Action.shift]
    | spawn name =>
      simp only [exec, phase, Option.some.injEq] at h
      subst h
      rcases Nat.lt_or_ge i e.state.tasks.length with lt | ge
      · simp [count, spawnThread, List.getElem?_append_left lt, Action.shift]
      · simp only [count, spawnThread, List.getElem?_append_right ge, List.getElem?_eq_none ge,
          Option.map_none', Option.getD_none, Action.shift, ite_self, Int.add_zero]
        cases i - e.state.tasks.length <;> rfl
    | block t | unblock t =>
      simp only [exec, phase] at h
      obtain ⟨s', updated, rfl⟩ := Option.map_eq_some'.mp h
      obtain ⟨u, found, same⟩ := updateTask_eq_some updated
      simp [count_set found (congrArg ExecutionState.tasks same) i, Action.shift]
    | nextPos =>
      simp only [exec, phase] at h
      obtain ⟨⟨ev, s'⟩, next, rfl⟩ := Option.map_eq_some'.mp h
      obtain ⟨u, found, same⟩ := moved (nextPos_eq_some next)
      simp only [count_set found same i, Action.shift, self]
      split <;> omega
    | prevPos =>
      simp only [exec, phase] at h
      obtain ⟨⟨ev, s'⟩, next, rfl⟩ := Option.map_eq_some'.mp h
      obtain ⟨u, found, same⟩ := moved (prevPos_eq_some next)
      have positive : u.instructions ≠ 0 := fun zero => by
        simp [prevPos, tryCurrent, tryGet, current, ScheduledTask.id, found, zero] at next
      simp only [count_set found same i, Action.shift, self]
      split <;> omega
    | returned =>
      simp only [exec, phase] at h
      obtain ⟨s', finished, rfl⟩ := Option.map_eq_some'.mp h
      obtain ⟨u, found, same⟩ := moved finished
      simp [count_set found same i, Action.shift]
  | exited | failed => cases a <;> simp [exec, phase] at h

theorem run_count {acts : List Action} (inv : e.Invariant) (h : e.run S acts = some e') (i : Nat) :
    count e' i = count e i + moves S ⟨i⟩ acts e := by
  induction acts generalizing e with
  | nil => cases h; simp [moves]
  | cons a acts ih =>
    obtain ⟨v, stepped, rest⟩ := Option.bind_eq_some.mp h
    rw [ih (inv.exec stepped) rest, exec_count inv stepped i, moves, stepped, Option.map_some',
      Option.getD_some]
    omega

/-- Positions are per task and exact over whole runs: in every run, the instruction count of
each task, the one `schedule` reports to the Strategy beside its id, is the number of
`next_pos` calls minus the number of `prev_pos` calls made while that task was running.
A task that does not run keeps its position. -/
theorem instructions_count_own_moves {must : σ} {thread : String} {acts : List Action}
    (h : (start must thread).run S acts = some e) {i : Nat} {t : Task}
    (found : e.state.tasks[i]? = some t) :
    (t.instructions : Int) = moves S ⟨i⟩ acts (start must thread) := by
  have counted := run_count (invariant_start must thread) h i
  have initial : count (start must thread) i = 0 := by
    cases i <;> simp [count, start, ExecutionState.new, spawnThread, Task.fromClosure]
  rw [initial, Int.zero_add] at counted
  simpa [count, found] using counted

theorem instructions_count_own_moves_in_main : ∃ e t,
    (start () "0").run lowestFirst [.step, .nextPos, .nextPos, .prevPos, .spawn none, .maybeYield] =
      some e ∧ e.state.tasks[0]? = some t ∧ t.instructions = 1 ∧
    (t.instructions : Int) = moves lowestFirst ⟨0⟩
      [.step, .nextPos, .nextPos, .prevPos, .spawn none, .maybeYield] (start () "0") := by
  obtain ⟨e, run⟩ : ∃ e, (start () "0").run lowestFirst
      [.step, .nextPos, .nextPos, .prevPos, .spawn none, .maybeYield] = some e := ⟨_, rfl⟩
  have found : ((start () "0").run lowestFirst
      [.step, .nextPos, .nextPos, .prevPos, .spawn none, .maybeYield]).bind
        (fun e => e.state.tasks[0]?) = some ⟨⟨0⟩, some "main-thread-0", 1, .runnable⟩ := rfl
  rw [run, Option.some_bind] at found
  exact ⟨e, _, run, found, rfl, instructions_count_own_moves run found⟩

end Execution

end TraceForge.Runtime
