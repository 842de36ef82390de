import Mathlib.Data.List.Nodup
import TraceForge.Sync.Notify

/-! The `waiters` vector of `Notify` when each `poll_notified` is one atomic step. `waiters`
is a stack, and once the `compare_exchange` and the registration are separate steps the latch
can be set while a waiter is pending. -/
namespace TraceForge.Sync

namespace Notify

/-- The `k`-th `notify_one` after the last registration (counting from 0) pops the `k`-th
latest sender. -/
theorem notifyOne_pops_latest_first (n : Notify) (k : Nat) :
    ((fun m => m.notifyOne.2)^[k] n).notifyOne.1 = n.waiters.reverse[k]? := by
  induction k generalizing n with
  | zero => simp [← List.head?_eq_getElem?]
  | succ k ih =>
    rw [Function.iterate_succ_apply, ih, notifyOne_waiters, ← List.tail_reverse, List.getElem?_tail]

end Notify

/-- Two waiters registered in order, then one `notify_one`: the later waiter receives. -/
theorem notifyOne_wakes_latest_waiter :
    (World.new.run [.notified, .notified, .poll 0, .poll 1, .notifyOne]).map
      (fun w => (w.notify.waiters, w.futures.map Notified.holds)) = some ([0], [false, true]) := by
  decide

def Op.future : Op → Option Nat
  | .poll i | .exchange i | .register i | .pollReceiver i | .drop i => some i
  | .notified | .notifyOne => none

namespace World

variable {w w' : World} {i j : Nat} {l : List Notified} {f g : Notified}

/-- Future `i` is unresolved, outside a poll, and its receiver holds no value: where a
`Notified` stands while its sender is in `waiters`. -/
def Registered (futures : List Notified) (i : Nat) : Prop :=
  ∃ f, futures[i]? = some f ∧ f.receiver = some ⟨none⟩ ∧ f.stage = .idle

theorem Registered.set_ne (registered : Registered l j) (ne : i ≠ j) :
    Registered (l.set i g) j := by
  obtain ⟨f, found, rest⟩ := registered
  exact ⟨f, (List.getElem?_set_ne ne).trans found, rest⟩

theorem Registered.append (registered : Registered l j) (xs : List Notified) :
    Registered (l ++ xs) j := by
  obtain ⟨f, found, rest⟩ := registered
  exact ⟨f, (List.getElem?_append_left (List.getElem?_eq_some_iff.mp found).1).trans found, rest⟩

theorem registered_set (bound : i < l.length) (receiver : g.receiver = some ⟨none⟩)
    (idle : g.stage = .idle) : Registered (l.set i g) i :=
  ⟨g, List.getElem?_set_self bound, receiver, idle⟩

/-- The representation invariant of `waiters` when every `poll_notified` is atomic. -/
structure Paired (w : World) : Prop where
  /-- `state` is a latch. -/
  latch : w.notify.state ≤ 1
  /-- The latch is set only while no sender waits. -/
  empty : w.notify.state = 1 → w.notify.waiters = []
  /-- No future has two senders. -/
  nodup : w.notify.waiters.Nodup
  /-- Each sender belongs to a registered future. -/
  registered : ∀ i ∈ w.notify.waiters, Registered w.futures i

theorem paired_new : Paired new :=
  ⟨by decide, by decide, List.nodup_nil, by simp [new, Notify.new]⟩

theorem Paired.set (paired : Paired w)
    (keeps : i ∈ w.notify.waiters → g.receiver = some ⟨none⟩ ∧ g.stage = .idle) :
    Paired { w with futures := w.futures.set i g } where
  latch := paired.latch
  empty := paired.empty
  nodup := paired.nodup
  registered j mem := by
    by_cases same : i = j
    · subst same
      obtain ⟨f, found, -⟩ := paired.registered i mem
      exact registered_set (List.getElem?_eq_some_iff.mp found).1 (keeps mem).1 (keeps mem).2
    · exact (paired.registered j mem).set_ne same

theorem Paired.of_mem (paired : Paired w) (mem : i ∈ w.notify.waiters)
    (found : w.futures[i]? = some f) : f.receiver = some ⟨none⟩ ∧ f.stage = .idle := by
  obtain ⟨g, found', rest⟩ := paired.registered i mem
  rw [found] at found'
  cases found'
  exact rest

theorem Paired.notified (paired : Paired w) : Paired w.notified where
  latch := paired.latch
  empty := paired.empty
  nodup := paired.nodup
  registered j mem := (paired.registered j mem).append _

theorem Paired.notifyOne (paired : Paired w) : Paired w.notifyOne := by
  rcases List.eq_nil_or_concat w.notify.waiters with empty | ⟨ws, i, popped⟩
  · rw [notifyOne_latch empty]
    exact ⟨le_refl 1, fun _ => empty, empty ▸ List.nodup_nil, by simp [empty]⟩
  · rw [List.concat_eq_append] at popped
    obtain ⟨f, found, -⟩ := paired.registered i (by simp [popped])
    have nodup : (ws ++ [i]).Nodup := popped ▸ paired.nodup
    rw [notifyOne_pop popped found]
    refine ⟨paired.latch, fun latched => absurd (paired.empty latched) (by simp [popped]),
      nodup.of_append_left, fun j mem => ?_⟩
    refine (paired.registered j (by simp [popped, mem])).set_ne ?_
    rintro rfl
    exact (List.nodup_append.mp nodup).2.2 mem (List.mem_singleton_self _)

theorem Paired.pollNotified (paired : Paired w) (h : w.pollNotified i = some w') : Paired w' := by
  obtain ⟨f, found, idle, -, ⟨latched, rfl⟩ | ⟨free, fresh, rfl⟩ | ⟨-, -, rfl⟩⟩ :=
    pollNotified_cases h
  · have empty := paired.empty latched
    exact ⟨by simp, by simp, by simp [empty], by simp [empty]⟩
  · have absent : i ∉ w.notify.waiters := fun mem => by
      simp [(paired.of_mem mem found).1] at fresh
    refine ⟨paired.latch, fun latched => absurd latched free,
      paired.nodup.append (List.nodup_singleton i)
        (fun j old new => absent (List.mem_singleton.mp new ▸ old)), fun j mem => ?_⟩
    rcases List.mem_append.mp mem with old | new
    · exact (paired.registered j old).set_ne (by rintro rfl; exact absent old)
    · rw [List.mem_singleton.mp new]
      exact registered_set (List.getElem?_eq_some_iff.mp found).1 rfl idle
  · exact paired.set fun mem => by
      simp [Notified.holds, paired.of_mem mem found]

theorem Paired.drop (paired : Paired w) (h : w.drop i = some w') : Paired w' := by
  obtain ⟨f, found, -, -, -, rfl⟩ := drop_cases h
  exact paired.set fun mem => paired.of_mem (f := f) mem found

theorem Paired.exec (paired : Paired w) {op : Op} (atomic : op.atomic = true)
    (h : w.exec op = some w') : Paired w' := by
  cases op with
  | notified => cases h; exact paired.notified
  | notifyOne => cases h; exact paired.notifyOne
  | poll i => exact paired.pollNotified h
  | drop i => exact paired.drop h
  | exchange i | register i | pollReceiver i => cases atomic

def oneWaiter : World := ⟨⟨0, [0]⟩, [⟨some ⟨none⟩, .idle, false⟩], 0⟩

theorem oneWaiter_reachable : oneWaiter.AtomicReachable := ⟨[.notified, .poll 0], by decide, rfl⟩

theorem AtomicReachable.paired (reach : w.AtomicReachable) : Paired w := by
  obtain ⟨ops, atomic, h⟩ := reach
  exact (run_invariant (P := fun ops w => Paired w ∧ ∀ op ∈ ops, op.atomic = true)
    (fun ⟨paired, atomic⟩ stepped => ⟨paired.exec (atomic _ (List.mem_cons_self _ _)) stepped,
      fun op mem => atomic op (List.mem_cons_of_mem _ mem)⟩) h ⟨paired_new, atomic⟩).1

/-- When every `poll_notified` is one atomic step, `state` is 0 while a sender waits, no
future has two senders, and every sender belongs to an unresolved `Notified`, outside a poll,
whose receiver holds no value. -/
theorem waiters_registered_when_atomic (reach : w.AtomicReachable) :
    (w.notify.waiters ≠ [] → w.notify.state = 0) ∧ w.notify.waiters.Nodup ∧
    ∀ i ∈ w.notify.waiters, Registered w.futures i := by
  have paired := reach.paired
  refine ⟨fun waiting => ?_, paired.nodup, paired.registered⟩
  have := mt paired.empty waiting
  have := paired.latch
  omega

theorem one_waiter_registered : oneWaiter.AtomicReachable ∧
    ((oneWaiter.notify.waiters ≠ [] → oneWaiter.notify.state = 0) ∧
      oneWaiter.notify.waiters.Nodup ∧ ∀ i ∈ oneWaiter.notify.waiters, Registered oneWaiter.futures i) :=
  ⟨oneWaiter_reachable, waiters_registered_when_atomic oneWaiter_reachable⟩

/-- With the `compare_exchange` and the registration as separate steps, a `notify_one`
between them latches `state` while the waiter goes on to register and stay pending. -/
theorem latch_set_while_waiter_pending :
    (World.new.run [.notified, .exchange 0, .notifyOne, .register 0, .pollReceiver 0]).map
      (fun w => (w.notify, w.futures)) = some (⟨1, [0]⟩, [⟨some ⟨none⟩, .idle, false⟩]) := by
  decide

theorem notifyOne_getElem? (w : World) (i : Nat) :
    w.notifyOne.futures[i]? = w.futures[i]? ∨
      w.notifyOne.futures[i]? = w.futures[i]?.map Notified.deliver := by
  rcases List.eq_nil_or_concat w.notify.waiters with empty | ⟨ws, j, popped⟩
  · simp [notifyOne_latch empty]
  · rw [List.concat_eq_append] at popped
    cases found : w.futures[j]? with
    | none => left; simp [notifyOne, Notify.notifyOne, popped, found]
    | some g =>
      rw [notifyOne_pop popped found]
      by_cases same : j = i
      · subst same; right; simp [found, List.getElem?_set_self (List.getElem?_eq_some_iff.mp found).1]
      · left; exact List.getElem?_set_ne same

theorem pollNotified_of_waiting (found : w.futures[i]? = some f) (idle : f.stage = .idle)
    (waiting : f.waiting = true) :
    ∃ w', w.pollNotified i = some w' ∧ w'.futures[i]? = some { f with stage := .ready } := by
  have bound : i < w.futures.length := (List.getElem?_eq_some_iff.mp found).1
  obtain ⟨alive, held⟩ : f.dropped = false ∧ f.holds = true := by
    simpa [Notified.waiting, idle] using waiting
  obtain ⟨r, received⟩ : ∃ r, f.receiver = some r := Option.ne_none_iff_exists'.mp fun none => by
    simp [Notified.holds, none] at held
  have value : r.value ≠ none := fun none => by simp [Notified.holds, received, none] at held
  by_cases latched : w.notify.state = 1 <;>
    simp [pollNotified, exchange, register, pollReceiver, live, found, idle, alive, latched,
      Notify.compareExchange, bound, received, value, Notified.holds]

theorem exec_futures_set {op : Op} (target : op.future = some j) (h : w.exec op = some w') :
    ∃ g, w'.futures = w.futures.set j g := by
  cases op with
  | notified | notifyOne => cases target
  | poll i =>
    cases target
    obtain ⟨f, -, -, -, ⟨-, rfl⟩ | ⟨-, -, rfl⟩ | ⟨-, -, rfl⟩⟩ := pollNotified_cases h <;>
      exact ⟨_, rfl⟩
  | exchange i =>
    cases target
    obtain ⟨f, -, rfl⟩ := Option.map_eq_some'.mp h
    exact ⟨_, rfl⟩
  | register i =>
    cases target
    obtain ⟨f, -, rfl⟩ := Option.map_eq_some'.mp h
    split <;> exact ⟨_, rfl⟩
  | pollReceiver i =>
    cases target
    obtain ⟨f, -, rfl⟩ := Option.map_eq_some'.mp h
    exact ⟨_, rfl⟩
  | drop i =>
    cases target
    obtain ⟨f, -, -, -, -, rfl⟩ := drop_cases h
    exact ⟨_, rfl⟩

theorem exec_keeps_waiting {op : Op} (h : w.exec op = some w') (other : op.future ≠ some i)
    (found : w.futures[i]? = some f) (idle : f.stage = .idle) (waiting : f.waiting = true) :
    ∃ g, w'.futures[i]? = some g ∧ g.stage = .idle ∧ g.waiting = true := by
  cases target : op.future with
  | some j =>
    obtain ⟨g, futures⟩ := exec_futures_set target h
    have ne : j ≠ i := fun same => other (same ▸ target)
    exact ⟨f, by rw [futures, List.getElem?_set_ne ne, found], idle, waiting⟩
  | none =>
    cases op with
    | notified =>
      cases h
      exact ⟨f, (List.getElem?_append_left (List.getElem?_eq_some_iff.mp found).1).trans found,
        idle, waiting⟩
    | notifyOne =>
      cases h
      rcases notifyOne_getElem? w i with same | delivered
      · exact ⟨f, same.trans found, idle, waiting⟩
      · refine ⟨f.deliver, by simp [delivered, found], ?_⟩
        obtain ⟨⟨_ | ⟨_ | _⟩⟩, stage, dropped⟩ := f <;>
          simp_all [Notified.deliver, Notified.waiting, Notified.holds]
    | _ => cases target

theorem run_keeps_waiting {ops : List Op} (h : w.run ops = some w')
    (other : ∀ op ∈ ops, op.future ≠ some i) (found : w.futures[i]? = some f)
    (idle : f.stage = .idle) (waiting : f.waiting = true) :
    ∃ g, w'.futures[i]? = some g ∧ g.stage = .idle ∧ g.waiting = true := by
  induction ops generalizing w f with
  | nil => cases h; exact ⟨f, found, idle, waiting⟩
  | cons op ops ih =>
    obtain ⟨v, stepped, rest⟩ := Option.bind_eq_some.mp h
    obtain ⟨g, found', idle', waiting'⟩ :=
      exec_keeps_waiting stepped (other op (List.mem_cons_self _ _)) found idle waiting
    exact ih rest (fun op mem => other op (List.mem_cons_of_mem _ mem)) found' idle' waiting'

/-- Under atomic polls, a `notify_one` that pops the sender of a live future delivers a
wakeup that survives every operation on other futures and resolves the future `Ready` at its
next poll. -/
theorem popped_waiter_resolves_at_next_poll (reach : w.AtomicReachable)
    (popped : w.notify.waiters.getLast? = some i) (found : w.futures[i]? = some f)
    (alive : f.dropped = false) {ops : List Op} (other : ∀ op ∈ ops, op.future ≠ some i)
    (h : w.notifyOne.run ops = some w') :
    ∃ w'' g, w'.pollNotified i = some w'' ∧ w''.futures[i]? = some g ∧ g.stage = .ready := by
  have paired := reach.paired
  obtain ⟨registered, idle⟩ := paired.of_mem (List.mem_of_getLast?_eq_some popped) found
  rw [notifyOne_pop (List.dropLast_append_getLast? i popped).symm found] at h
  have bound : i < w.futures.length := (List.getElem?_eq_some_iff.mp found).1
  obtain ⟨g, found', idle', waiting⟩ := run_keeps_waiting h other
    (List.getElem?_set_self (a := f.deliver) bound)
    (by simp [Notified.deliver, alive, idle])
    (by simp [Notified.deliver, Notified.waiting, Notified.holds, alive, idle, registered])
  obtain ⟨w'', polled, resolved⟩ := pollNotified_of_waiting found' idle' waiting
  exact ⟨w'', _, polled, resolved, rfl⟩

theorem popped_waiter_resolves_beside_second_waiter :
    oneWaiter.AtomicReachable ∧
    oneWaiter.notifyOne.run [.notified, .poll 1] =
      some ⟨⟨0, [1]⟩, [⟨some ⟨some true⟩, .idle, false⟩, ⟨some ⟨none⟩, .idle, false⟩], 1⟩ ∧
    ∃ w'' g, World.pollNotified 0
        ⟨⟨0, [1]⟩, [⟨some ⟨some true⟩, .idle, false⟩, ⟨some ⟨none⟩, .idle, false⟩], 1⟩ = some w'' ∧
      w''.futures[0]? = some g ∧ g.stage = .ready :=
  have run : oneWaiter.notifyOne.run [.notified, .poll 1] =
      some ⟨⟨0, [1]⟩, [⟨some ⟨some true⟩, .idle, false⟩, ⟨some ⟨none⟩, .idle, false⟩], 1⟩ := rfl
  ⟨oneWaiter_reachable, run,
    popped_waiter_resolves_at_next_poll oneWaiter_reachable rfl rfl rfl (by decide) run⟩

end World

end TraceForge.Sync
