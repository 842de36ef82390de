import Mathlib.Data.List.Nodup
import TraceForge.Sync.Notify

/-! What holds of a `Notify` in every interleaving, each `poll_notified` cut at its interruption
points and futures dropped at any time, and the window in which a `notify_one` sets the latch
while a waiter registers. -/
namespace TraceForge.Sync

namespace Notify

@[simp] theorem compareExchange_waiters (n : Notify) : n.compareExchange.2.waiters = n.waiters := by
  unfold compareExchange; split <;> rfl

theorem compareExchange_state {n : Notify} (latch : n.state ≤ 1) : n.compareExchange.2.state = 0 := by
  unfold compareExchange; split <;> simp only; omega

end Notify

namespace World

variable {w w' : World} {i j : Nat} {l : List Notified} {f g : Notified}

/-- An atomic `poll_notified` is its steps in a row: the `compare_exchange`, then, when it
failed, the registration and the poll of the receiver. -/
theorem pollNotified_steps (h : w.pollNotified i = some w') :
    ∃ v, w.exchange i = some v ∧
      (w' = v ∨ ∃ u, v.register i = some u ∧ u.pollReceiver i = some w') := by
  obtain ⟨v, exchanged, h⟩ := Option.bind_eq_some.mp h
  refine ⟨v, exchanged, ?_⟩
  split at h
  · exact .inr (Option.bind_eq_some.mp h)
  · exact .inl (Option.some.inj h).symm

/-- Future `i` has a receiver into which nothing was sent. -/
def Unsent (futures : List Notified) (i : Nat) : Prop :=
  ∃ f, futures[i]? = some f ∧ f.receiver = some ⟨none⟩

theorem Unsent.set_ne (unsent : Unsent l j) (ne : i ≠ j) (g : Notified) : Unsent (l.set i g) j :=
  let ⟨h, there, fresh⟩ := unsent
  ⟨h, (List.getElem?_set_ne ne).trans there, fresh⟩

theorem Unsent.set (unsent : Unsent l j) (found : l[i]? = some f)
    (receiver : g.receiver = f.receiver) : Unsent (l.set i g) j := by
  by_cases same : i = j
  · subst same
    obtain ⟨h, there, fresh⟩ := unsent
    rw [found] at there
    cases there
    exact ⟨g, List.getElem?_set_self (List.getElem?_eq_some_iff.mp found).1, receiver.trans fresh⟩
  · exact unsent.set_ne same g

/-- The invariant of every interleaving. -/
structure Senders (w : World) : Prop where
  /-- `state` is a latch. -/
  latch : w.notify.state ≤ 1
  /-- No future has two senders. -/
  nodup : w.notify.waiters.Nodup
  /-- Each sender's receiver has received nothing. -/
  unsent : ∀ i ∈ w.notify.waiters, Unsent w.futures i

theorem senders_new : Senders new := ⟨by decide, List.nodup_nil, by simp [new, Notify.new]⟩

theorem Senders.set (senders : Senders w) (found : w.futures[i]? = some f) {n : Notify}
    (latch : n.state ≤ 1) (waiters : n.waiters = w.notify.waiters) (stage : Stage)
    (dropped : Bool) :
    Senders { w with notify := n
                     futures := w.futures.set i { f with stage := stage, dropped := dropped } } :=
  ⟨latch, waiters ▸ senders.nodup,
    fun j mem => (senders.unsent j (waiters ▸ mem)).set found rfl⟩

theorem Senders.notified (senders : Senders w) : Senders w.notified where
  latch := senders.latch
  nodup := senders.nodup
  unsent j mem := by
    obtain ⟨f, found, fresh⟩ := senders.unsent j mem
    exact ⟨f, (List.getElem?_append_left (List.getElem?_eq_some_iff.mp found).1).trans found, fresh⟩

theorem Senders.notifyOne (senders : Senders w) : Senders w.notifyOne := by
  rcases List.eq_nil_or_concat w.notify.waiters with empty | ⟨ws, i, popped⟩
  · rw [notifyOne_latch empty]
    exact ⟨le_refl 1, empty ▸ List.nodup_nil, by simp [empty]⟩
  · rw [List.concat_eq_append] at popped
    obtain ⟨f, found, -⟩ := senders.unsent i (by simp [popped])
    have nodup : (ws ++ [i]).Nodup := popped ▸ senders.nodup
    rw [notifyOne_pop popped found]
    refine ⟨senders.latch, nodup.of_append_left, fun j mem =>
      (senders.unsent j (by simp [popped, mem])).set_ne (fun same => ?_) _⟩
    subst same
    exact (List.nodup_append.mp nodup).2.2 mem (List.mem_singleton_self _)

theorem Senders.exchange (senders : Senders w) (h : w.exchange i = some w') : Senders w' := by
  obtain ⟨f, live, rfl⟩ := Option.map_eq_some'.mp h
  exact senders.set (live_eq_some.mp live).1
    ((Notify.compareExchange_state senders.latch).trans_le (Nat.zero_le 1))
    (Notify.compareExchange_waiters _) _ _

theorem Senders.register (senders : Senders w) (h : w.register i = some w') : Senders w' := by
  obtain ⟨f, live, rfl⟩ := Option.map_eq_some'.mp h
  have found := (live_eq_some.mp live).1
  have bound := (List.getElem?_eq_some_iff.mp found).1
  split
  · rename_i fresh
    have absent : i ∉ w.notify.waiters := fun mem => by
      obtain ⟨g, there, sent⟩ := senders.unsent i mem
      rw [found] at there
      cases there
      simp [sent] at fresh
    refine ⟨senders.latch, senders.nodup.append (List.nodup_singleton i)
      (fun j old new => absent (List.mem_singleton.mp new ▸ old)), fun j mem => ?_⟩
    rcases List.mem_append.mp mem with old | new
    · exact (senders.unsent j old).set_ne (fun same : i = j => absent (same ▸ old)) _
    · rw [List.mem_singleton.mp new]
      exact ⟨_, List.getElem?_set_self bound, rfl⟩
  · exact senders.set found senders.latch rfl _ _

theorem Senders.pollReceiver (senders : Senders w) (h : w.pollReceiver i = some w') :
    Senders w' := by
  obtain ⟨f, live, rfl⟩ := Option.map_eq_some'.mp h
  exact senders.set (live_eq_some.mp live).1 senders.latch rfl _ _

theorem Senders.pollNotified (senders : Senders w) (h : w.pollNotified i = some w') :
    Senders w' := by
  obtain ⟨v, exchanged, rfl | ⟨u, registered, polled⟩⟩ := pollNotified_steps h
  · exact senders.exchange exchanged
  · exact ((senders.exchange exchanged).register registered).pollReceiver polled

theorem Senders.drop (senders : Senders w) (h : w.drop i = some w') : Senders w' := by
  obtain ⟨f, found, -, -, -, rfl⟩ := drop_cases h
  exact senders.set found senders.latch rfl _ _

theorem Senders.exec (senders : Senders w) {op : Op} (h : w.exec op = some w') : Senders w' := by
  cases op with
  | notified => cases h; exact senders.notified
  | notifyOne => cases h; exact senders.notifyOne
  | poll i => exact senders.pollNotified h
  | exchange i => exact senders.exchange h
  | register i => exact senders.register h
  | pollReceiver i => exact senders.pollReceiver h
  | drop i => exact senders.drop h

theorem Reachable.senders (reach : w.Reachable) : Senders w :=
  let ⟨_, h⟩ := reach
  run_invariant (P := fun _ w => Senders w) (fun senders stepped => senders.exec stepped) h
    senders_new

/-- In every interleaving, polls cut at their interruption points and futures dropped
included, `state` is 0 or 1, no `Notified` has two senders in `waiters`, and the
receiver of each sender there has received nothing: the `notify_one` that pops it sends
the first value that receiver gets. -/
theorem waiters_unsent_in_every_interleaving (reach : w.Reachable) :
    w.notify.state ≤ 1 ∧ w.notify.waiters.Nodup ∧ ∀ i ∈ w.notify.waiters, Unsent w.futures i :=
  ⟨reach.senders.latch, reach.senders.nodup, reach.senders.unsent⟩

def latchRaced : World := ⟨⟨1, [0]⟩, [⟨some ⟨none⟩, .idle, false⟩], 1⟩

theorem latch_raced_unsent : latchRaced.Reachable ∧
    (latchRaced.notify.state ≤ 1 ∧ latchRaced.notify.waiters.Nodup ∧
      ∀ i ∈ latchRaced.notify.waiters, Unsent latchRaced.futures i) :=
  have reach : latchRaced.Reachable :=
    ⟨[.notified, .exchange 0, .notifyOne, .register 0, .pollReceiver 0], rfl⟩
  ⟨reach, waiters_unsent_in_every_interleaving reach⟩

def outsideWindows (w : World) : Bool := w.futures.all fun f => f.stage != .exchanged

/-- Every `notify_one` of the sequence runs while no poll is inside that window. -/
def notifiesOutsideWindows : List Op → World → Bool
  | [], _ => true
  | op :: ops, w => (op != .notifyOne || w.outsideWindows) &&
    (w.exec op).all (notifiesOutsideWindows ops)

/-- The latch is clear while a sender waits, and inside every window. -/
structure Clear (w : World) : Prop where
  latch : w.notify.state ≤ 1
  waiting : w.notify.waiters ≠ [] → w.notify.state = 0
  window : ∀ f ∈ w.futures, f.stage = .exchanged → w.notify.state = 0

theorem clear_of_state (zero : w.notify.state = 0) : Clear w :=
  ⟨zero ▸ Nat.zero_le 1, fun _ => zero, fun _ _ _ => zero⟩

theorem clear_new : Clear new := clear_of_state rfl

theorem Clear.set (clear : Clear w) (outside : g.stage ≠ .exchanged) :
    Clear { w with futures := w.futures.set i g } :=
  ⟨clear.latch, clear.waiting, fun h mem exchanged => by
    rcases List.mem_or_eq_of_mem_set mem with old | rfl
    · exact clear.window h old exchanged
    · exact absurd exchanged outside⟩

theorem Clear.notified (clear : Clear w) : Clear w.notified :=
  ⟨clear.latch, clear.waiting, fun f mem exchanged => by
    rcases List.mem_append.mp mem with old | new
    · exact clear.window f old exchanged
    · simp [List.mem_singleton.mp new] at exchanged⟩

/-- A `notify_one` outside every window latches only with no sender waiting; with one, it
leaves the clear latch as it is. -/
theorem Clear.notifyOne (clear : Clear w) (outside : w.outsideWindows = true) :
    Clear w.notifyOne := by
  by_cases empty : w.notify.waiters = []
  · rw [notifyOne_latch empty]
    refine ⟨le_refl 1, fun waiting => absurd empty waiting, fun f mem exchanged => ?_⟩
    simp only [outsideWindows, List.all_eq_true, bne_iff_ne] at outside
    exact absurd exchanged (outside f mem)
  · apply clear_of_state
    simpa [World.notifyOne, Notify.notifyOne, List.length_pos.mpr empty] using clear.waiting empty

theorem Clear.exchange (clear : Clear w) (h : w.exchange i = some w') : Clear w' := by
  obtain ⟨f, -, rfl⟩ := Option.map_eq_some'.mp h
  exact clear_of_state (Notify.compareExchange_state clear.latch)

theorem Clear.register (clear : Clear w) (h : w.register i = some w') : Clear w' := by
  obtain ⟨f, live, rfl⟩ := Option.map_eq_some'.mp h
  obtain ⟨found, exchanged, -⟩ := live_eq_some.mp live
  have zero := clear.window f (List.getElem?_mem found) exchanged
  split <;> exact clear_of_state zero

theorem Clear.pollReceiver (clear : Clear w) (h : w.pollReceiver i = some w') : Clear w' := by
  obtain ⟨f, -, rfl⟩ := Option.map_eq_some'.mp h
  exact clear.set (by split <;> simp)

theorem Clear.pollNotified (clear : Clear w) (h : w.pollNotified i = some w') : Clear w' := by
  obtain ⟨v, exchanged, rfl | ⟨u, registered, polled⟩⟩ := pollNotified_steps h
  · exact clear.exchange exchanged
  · exact ((clear.exchange exchanged).register registered).pollReceiver polled

theorem Clear.drop (clear : Clear w) (h : w.drop i = some w') : Clear w' := by
  obtain ⟨f, -, outside, -, -, rfl⟩ := drop_cases h
  exact clear.set outside

theorem Clear.exec (clear : Clear w) {op : Op} (outside : op = .notifyOne → w.outsideWindows = true)
    (h : w.exec op = some w') : Clear w' := by
  cases op with
  | notified => cases h; exact clear.notified
  | notifyOne => cases h; exact clear.notifyOne (outside rfl)
  | poll i => exact clear.pollNotified h
  | exchange i => exact clear.exchange h
  | register i => exact clear.register h
  | pollReceiver i => exact clear.pollReceiver h
  | drop i => exact clear.drop h

/-- The window of the latch race is the only way to it: in every interleaving in which each
`notify_one` runs while no poll stands between its `compare_exchange` and its
registration, `state` is 0 whenever a sender waits, and inside every such window. -/
theorem latch_clear_outside_windows {ops : List Op} (h : new.run ops = some w)
    (outside : new.notifiesOutsideWindows ops = true) :
    (w.notify.waiters ≠ [] → w.notify.state = 0) ∧
      ∀ f ∈ w.futures, f.stage = .exchanged → w.notify.state = 0 :=
  have clear := (run_invariant (P := fun ops w => Clear w ∧ w.notifiesOutsideWindows ops = true)
    (fun ⟨clear, outside⟩ stepped => by
      simp only [notifiesOutsideWindows, Bool.and_eq_true, Bool.or_eq_true, bne_iff_ne, ne_eq,
        stepped, Option.all_some] at outside
      exact ⟨clear.exec (fun same => outside.1.resolve_left (not_not.mpr same)) stepped, outside.2⟩)
    h ⟨clear_new, outside⟩).1
  ⟨clear.waiting, clear.window⟩

theorem latch_clear_after_latched_poll : ∃ w,
    new.run [.notified, .notifyOne, .notified, .exchange 0, .exchange 1, .register 1,
      .pollReceiver 1] = some w ∧
    new.notifiesOutsideWindows [.notified, .notifyOne, .notified, .exchange 0, .exchange 1,
      .register 1, .pollReceiver 1] = true ∧
    ((w.notify.waiters ≠ [] → w.notify.state = 0) ∧
      ∀ f ∈ w.futures, f.stage = .exchanged → w.notify.state = 0) := by
  obtain ⟨w, run⟩ : ∃ w, new.run [.notified, .notifyOne, .notified, .exchange 0, .exchange 1,
      .register 1, .pollReceiver 1] = some w := ⟨_, rfl⟩
  have outside : new.notifiesOutsideWindows [.notified, .notifyOne, .notified, .exchange 0,
      .exchange 1, .register 1, .pollReceiver 1] = true := by decide
  exact ⟨w, run, outside, latch_clear_outside_windows run outside⟩

end World

end TraceForge.Sync
