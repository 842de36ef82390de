import TraceForge.Sync.Notify

/-! Wakeups against notifications: in every interleaving, the futures resolved, the latch and
the delivered values waiting never exceed the `notify_one` calls that did not find the latch
set. -/
namespace TraceForge.Sync

theorem countP_set_add {α : Type} {l : List α} {i : Nat} {a b : α} (found : l[i]? = some a)
    (p : α → Bool) :
    (l.set i b).countP p + (if p a then 1 else 0) = l.countP p + (if p b then 1 else 0) := by
  obtain ⟨bound, rfl⟩ := List.getElem?_eq_some_iff.mp found
  have := List.boole_getElem_le_countP p l i bound
  rw [List.countP_set p l i b bound]
  omega

namespace World

/-- The wakeups a world holds: futures resolved, the latch, and delivered values waiting. -/
def wakeups (w : World) : Nat := w.resolved + w.notify.state + w.holding

theorem counts_set {w : World} {i : Nat} {f g : Notified} (found : w.futures[i]? = some f) :
    (w.futures.set i g).countP Notified.resolved + (if f.resolved then 1 else 0) =
      w.resolved + (if g.resolved then 1 else 0) ∧
    (w.futures.set i g).countP Notified.waiting + (if f.waiting then 1 else 0) =
      w.holding + (if g.waiting then 1 else 0) :=
  ⟨countP_set_add found _, countP_set_add found _⟩

variable {w w' : World} {i : Nat}

theorem notified_wakeups (w : World) : w.notified.wakeups = w.wakeups := by
  simp [wakeups, notified, resolved, holding, Notified.resolved, Notified.waiting, Notified.holds]

theorem notifyOne_wakeups (w : World) :
    w.notifyOne.wakeups + w.notifications ≤ w.wakeups + w.notifyOne.notifications := by
  unfold notifyOne Notify.notifyOne
  by_cases some : 0 < w.notify.waiters.length
  · obtain ⟨i, last⟩ := Option.ne_none_iff_exists'.mp
      (List.getLast?_eq_none_iff.not.mpr (List.length_pos.mp some))
    simp only [some, if_true, last, Option.isSome_some, true_or, if_true]
    cases found : w.futures[i]? with
    | none => simp [wakeups, resolved, holding]
    | some f =>
      obtain ⟨r, d⟩ := counts_set (g := f.deliver) found
      simp only [wakeups, resolved, holding] at r d ⊢
      have same : f.deliver.resolved = f.resolved := by
        unfold Notified.deliver; split <;> rfl
      have one : (if f.deliver.waiting = true then 1 else 0) ≤ 1 := by split <;> omega
      simp only [same] at r
      omega
  · simp only [some, if_false]
    by_cases zero : w.notify.state = 0 <;> simp [zero, wakeups, resolved, holding] <;> omega

theorem exchange_wakeups (h : w.exchange i = some w') :
    w'.wakeups ≤ w.wakeups ∧ w'.notifications = w.notifications := by
  obtain ⟨f, live, rfl⟩ := Option.map_eq_some'.mp h
  obtain ⟨found, idle, alive⟩ := live_eq_some.mp live
  refine ⟨?_, rfl⟩
  unfold Notify.compareExchange
  by_cases latched : w.notify.state = 1
  · obtain ⟨r, d⟩ := counts_set (g := { f with stage := .ready }) found
    simp only [latched, if_true, wakeups, resolved, holding] at r d ⊢
    simp [Notified.resolved, Notified.waiting, Notified.holds, idle] at r d
    omega
  · obtain ⟨r, d⟩ := counts_set (g := { f with stage := .exchanged }) found
    simp only [latched, if_false, Bool.false_eq_true, wakeups, resolved, holding] at r d ⊢
    simp [Notified.resolved, Notified.waiting, Notified.holds, idle] at r d
    omega

/-- A future's share of the wakeups: resolved, or holding a delivered value. -/
def share (f : Notified) : Nat := (if f.resolved then 1 else 0) + (if f.waiting then 1 else 0)

theorem wakeups_set {f : Notified} (found : w.futures[i]? = some f) (g : Notified) :
    ({ w with futures := w.futures.set i g } : World).wakeups + share f = w.wakeups + share g := by
  obtain ⟨r, d⟩ := counts_set (g := g) found
  simp only [wakeups, resolved, holding, share] at r d ⊢
  omega

theorem wakeups_set_le {f g : Notified} (found : w.futures[i]? = some f) (le : share g ≤ share f) :
    ({ w with futures := w.futures.set i g } : World).wakeups ≤ w.wakeups := by
  have := wakeups_set found g
  omega

theorem register_wakeups (h : w.register i = some w') :
    w'.wakeups ≤ w.wakeups ∧ w'.notifications = w.notifications := by
  obtain ⟨f, live, rfl⟩ := Option.map_eq_some'.mp h
  obtain ⟨found, exchanged, alive⟩ := live_eq_some.mp live
  split
  · rename_i fresh
    refine ⟨?_, rfl⟩
    have := wakeups_set_le (w := { w with notify := { w.notify with waiters := w.notify.waiters ++ [i] } })
      (g := { f with receiver := some ⟨none⟩, stage := .registered }) found ?_
    · simpa [wakeups] using this
    · simp [share, Notified.resolved, Notified.waiting, Notified.holds, exchanged,
        Option.isNone_iff_eq_none.mp fresh]
  · exact ⟨wakeups_set_le found (by simp [share, Notified.resolved, Notified.waiting,
      Notified.holds, exchanged]), rfl⟩

theorem pollReceiver_wakeups (h : w.pollReceiver i = some w') :
    w'.wakeups ≤ w.wakeups ∧ w'.notifications = w.notifications := by
  obtain ⟨f, live, rfl⟩ := Option.map_eq_some'.mp h
  obtain ⟨found, registered, alive⟩ := live_eq_some.mp live
  refine ⟨wakeups_set_le found ?_, rfl⟩
  rcases f with ⟨_ | ⟨_ | _⟩, stage, dropped⟩ <;>
    simp_all [share, Notified.resolved, Notified.waiting, Notified.holds]

theorem drop_wakeups (h : w.drop i = some w') :
    w'.wakeups ≤ w.wakeups ∧ w'.notifications = w.notifications := by
  unfold drop at h
  split at h
  · rename_i f found
    split at h
    · cases h
    · cases h
      exact ⟨wakeups_set_le found (by by_cases ready : f.resolved <;>
        simp_all [share, Notified.resolved, Notified.waiting]), rfl⟩
  · cases h

theorem pollNotified_wakeups (h : w.pollNotified i = some w') :
    w'.wakeups ≤ w.wakeups ∧ w'.notifications = w.notifications := by
  obtain ⟨v, exchanged, h⟩ := Option.bind_eq_some.mp h
  have first := exchange_wakeups exchanged
  split at h
  · obtain ⟨u, registered, polled⟩ := Option.bind_eq_some.mp h
    have second := register_wakeups registered
    have third := pollReceiver_wakeups polled
    omega
  · cases h
    exact first

/-- One operation adds at most as many wakeups as it counts notifications. -/
theorem exec_wakeups {op : Op} (h : w.exec op = some w') :
    w'.wakeups + w.notifications ≤ w.wakeups + w'.notifications := by
  have kept : w'.wakeups ≤ w.wakeups ∧ w'.notifications = w.notifications →
      w'.wakeups + w.notifications ≤ w.wakeups + w'.notifications := fun kept => by omega
  cases op with
  | notified => cases h; exact kept ⟨(notified_wakeups w).le, rfl⟩
  | notifyOne => cases h; exact notifyOne_wakeups w
  | poll i => exact kept (pollNotified_wakeups h)
  | exchange i => exact kept (exchange_wakeups h)
  | register i => exact kept (register_wakeups h)
  | pollReceiver i => exact kept (pollReceiver_wakeups h)
  | drop i => exact kept (drop_wakeups h)

theorem notifyOne_of_latched (empty : w.notify.waiters = []) (latched : w.notify.state = 1) :
    w.notifyOne = w := by
  obtain ⟨⟨state, waiters⟩, futures, notifications⟩ := w
  simp_all [notifyOne, Notify.notifyOne]

/-- In every interleaving of `notify_one` with the steps of `poll_notified` and with drops,
the futures resolved, the latch and the delivered values waiting are at most the
`notify_one` calls that popped a waiter or latched a `state` of 0. -/
theorem wakeups_bounded (reach : w.Reachable) :
    w.resolved + w.notify.state + w.holding ≤ w.notifications ∧
    (w.notify.waiters = [] → w.notify.state = 1 → w.notifyOne = w) := by
  obtain ⟨ops, h⟩ := reach
  refine ⟨run_invariant (P := fun _ w => w.wakeups ≤ w.notifications) (fun bounded stepped => ?_)
    h (Nat.le_refl 0), notifyOne_of_latched⟩
  have := exec_wakeups stepped
  omega

def latchedTwice : World := ⟨⟨1, []⟩, [⟨none, .idle, false⟩], 1⟩

theorem wakeups_bounded_after_two_notifies : latchedTwice.Reachable ∧
    (latchedTwice.resolved + latchedTwice.notify.state + latchedTwice.holding ≤
      latchedTwice.notifications ∧
    (latchedTwice.notify.waiters = [] → latchedTwice.notify.state = 1 →
      latchedTwice.notifyOne = latchedTwice)) :=
  ⟨⟨[.notified, .notifyOne, .notifyOne], rfl⟩,
    wakeups_bounded ⟨[.notified, .notifyOne, .notifyOne], rfl⟩⟩

/-- A `notify_one` that runs between a poll's `compare_exchange` and its registration finds
the latch set and still pops the new waiter's sender, adding a wakeup. -/
theorem notifyOne_after_latch_adds_wakeup :
    ∃ w, World.new.run [.notified, .exchange 0, .notifyOne, .register 0] = some w ∧
      w.notify.state = 1 ∧ w.wakeups < w.notifyOne.wakeups :=
  ⟨_, rfl, by decide, by decide⟩

end World

end TraceForge.Sync
