import Mathlib.Data.List.Basic

/-! `sync/notify.rs`: the latch, the waiters vector, and `poll_notified` cut into the three
steps a task can be interrupted between. Each atomic operation, and each block under the
waiters lock, is one step. -/
namespace TraceForge.Sync

/-- `Notify`: the latch `state` and the `waiters` vector, each sender named by the index of
the `Notified` holding its receiver. -/
structure Notify where
  state : Nat
  waiters : List Nat
  deriving DecidableEq, Repr

namespace Notify

def new : Notify := ⟨0, []⟩

/-- `notify_one` under the waiters lock: `pop` the last sender, or latch `state`. -/
def notifyOne (n : Notify) : Option Nat × Notify :=
  if 0 < n.waiters.length then (n.waiters.getLast?, { n with waiters := n.waiters.dropLast })
  else (none, { n with state := 1 })

@[simp] theorem notifyOne_fst (n : Notify) : n.notifyOne.1 = n.waiters.getLast? := by
  unfold notifyOne
  split
  · rfl
  · simp_all

@[simp] theorem notifyOne_waiters (n : Notify) : n.notifyOne.2.waiters = n.waiters.dropLast := by
  unfold notifyOne
  split
  · rfl
  · simp_all

def compareExchange (n : Notify) : Bool × Notify :=
  if n.state = 1 then (true, { n with state := 0 }) else (false, n)

end Notify

/-- Modelled from the spec: the receive end of a one-shot channel, with the value a
sender delivered, if any. -/
structure Receiver where
  value : Option Bool
  deriving DecidableEq, Repr

/-- Where a `Notified` stands: outside a poll, after a failed `compare_exchange`, after its
registration, or resolved. -/
inductive Stage
  | idle
  | exchanged
  | registered
  | ready
  deriving DecidableEq, Repr

/-- `Notified`: the receiver once registered, the stage of its poll, and whether it was
dropped (it has no `Drop`, so a sender of it stays in `waiters`). -/
structure Notified where
  receiver : Option Receiver
  stage : Stage
  dropped : Bool
  deriving DecidableEq, Repr

namespace Notified

def deliver (f : Notified) : Notified :=
  if f.dropped then f else { f with receiver := f.receiver.map fun _ => ⟨some true⟩ }

def holds (f : Notified) : Bool := (f.receiver.bind Receiver.value).isSome

def resolved (f : Notified) : Bool := decide (f.stage = .ready)

def waiting (f : Notified) : Bool := decide (f.stage ≠ .ready ∧ f.dropped = false ∧ f.holds = true)

end Notified

/-- One `Notify`, the `Notified` futures made from it, and a history variable: the
`notify_one` calls that did not find the latch already set. -/
structure World where
  notify : Notify
  futures : List Notified
  notifications : Nat
  deriving DecidableEq, Repr

namespace World

def new : World := ⟨Notify.new, [], 0⟩

def live (i : Nat) (stage : Stage) (w : World) : Option Notified :=
  match w.futures[i]? with
  | some f => if f.stage = stage ∧ f.dropped = false then some f else none
  | none => none

def notified (w : World) : World := { w with futures := w.futures ++ [⟨none, .idle, false⟩] }

/-- `notify_one`: the popped sender delivers (a failed send is ignored), or `state` latches. -/
def notifyOne (w : World) : World :=
  let (ch, n) := w.notify.notifyOne
  { notify := n
    futures := match ch with
      | some i => match w.futures[i]? with
        | some f => w.futures.set i f.deliver
        | none => w.futures
      | none => w.futures
    notifications := if ch.isSome ∨ w.notify.state = 0 then w.notifications + 1
      else w.notifications }

def exchange (i : Nat) (w : World) : Option World :=
  (w.live i .idle).map fun f =>
    { w with notify := w.notify.compareExchange.2
             futures := w.futures.set i
               { f with stage := if w.notify.compareExchange.1 then .ready else .exchanged } }

/-- The registration, under the waiters lock: without a receiver, create a channel, push
its sender and keep its receiver. -/
def register (i : Nat) (w : World) : Option World :=
  (w.live i .exchanged).map fun f =>
    if f.receiver.isNone then
      { w with notify := { w.notify with waiters := w.notify.waiters ++ [i] }
               futures := w.futures.set i { f with receiver := some ⟨none⟩, stage := .registered } }
    else { w with futures := w.futures.set i { f with stage := .registered } }

/-- The poll of the receiver as the spec has it: `Ready` once a value was delivered,
`Pending` otherwise. The crate's receiver blocks instead (`World.receive`). -/
def pollReceiver (i : Nat) (w : World) : Option World :=
  (w.live i .registered).map fun f =>
    { w with futures := w.futures.set i { f with stage := if f.holds then .ready else .idle } }

/-- `poll_notified` as one step: the three steps in a row, the last two only when the
`compare_exchange` failed. -/
def pollNotified (i : Nat) (w : World) : Option World :=
  (w.exchange i).bind fun w =>
    if w.live i .ready = none then (w.register i).bind (pollReceiver i) else some w

def drop (i : Nat) (w : World) : Option World :=
  match w.futures[i]? with
  | some f => if f.stage = .exchanged ∨ f.stage = .registered ∨ f.dropped = true then none
    else some { w with futures := w.futures.set i { f with dropped := true } }
  | none => none

def resolved (w : World) : Nat := w.futures.countP Notified.resolved

def holding (w : World) : Nat := w.futures.countP Notified.waiting

end World

/-- An operation of one task on the `Notify`: a whole `poll_notified`, or one of its steps. -/
inductive Op
  | notified
  | notifyOne
  | poll (i : Nat)
  | exchange (i : Nat)
  | register (i : Nat)
  | pollReceiver (i : Nat)
  | drop (i : Nat)
  deriving DecidableEq, Repr

def Op.atomic : Op → Bool
  | .exchange _ | .register _ | .pollReceiver _ => false
  | _ => true

namespace World

def exec : Op → World → Option World
  | .notified, w => some w.notified
  | .notifyOne, w => some w.notifyOne
  | .poll i, w => w.pollNotified i
  | .exchange i, w => w.exchange i
  | .register i, w => w.register i
  | .pollReceiver i, w => w.pollReceiver i
  | .drop i, w => w.drop i

def run : List Op → World → Option World
  | [], w => some w
  | op :: ops, w => (w.exec op).bind (run ops)

def Reachable (w : World) : Prop := ∃ ops, new.run ops = some w

def AtomicReachable (w : World) : Prop :=
  ∃ ops, (∀ op ∈ ops, op.atomic = true) ∧ new.run ops = some w

variable {w w' : World} {i : Nat}

theorem run_append (ops ops' : List Op) (w : World) :
    w.run (ops ++ ops') = (w.run ops).bind (run ops') := by
  induction ops generalizing w with
  | nil => rfl
  | cons op ops ih => simp [run, ih, Option.bind_assoc]

/-- What every operation keeps holds after every run. The property may read the operations
still to run, so that a condition on each of them is carried along the run. -/
theorem run_invariant {P : List Op → World → Prop}
    (preserves : ∀ {op : Op} {ops : List Op} {w w' : World}, P (op :: ops) w →
      w.exec op = some w' → P ops w')
    {ops : List Op} (h : w.run ops = some w') (initial : P ops w) : P [] w' := by
  induction ops generalizing w with
  | nil => cases h; exact initial
  | cons op ops ih =>
    obtain ⟨v, stepped, rest⟩ := Option.bind_eq_some.mp h
    exact ih rest (preserves initial stepped)

theorem live_eq_some {w : World} {i : Nat} {stage : Stage} {f : Notified} :
    w.live i stage = some f ↔ w.futures[i]? = some f ∧ f.stage = stage ∧ f.dropped = false := by
  unfold live
  cases found : w.futures[i]? with
  | none => simp
  | some g =>
    by_cases ok : g.stage = stage ∧ g.dropped = false
    · simp only [ok, and_self, if_true, Option.some.injEq]
      exact ⟨fun same => ⟨same, same ▸ ok⟩, fun facts => facts.1⟩
    · simp only [ok, if_false]
      constructor
      · intro h; cases h
      · rintro ⟨same, facts⟩
        cases same
        exact absurd facts ok

theorem notifyOne_pop {ws : List Nat} {f : Notified} (popped : w.notify.waiters = ws ++ [i])
    (found : w.futures[i]? = some f) :
    w.notifyOne = ⟨{ w.notify with waiters := ws }, w.futures.set i f.deliver, w.notifications + 1⟩ := by
  simp [notifyOne, Notify.notifyOne, popped, found]

theorem notifyOne_latch (empty : w.notify.waiters = []) :
    w.notifyOne = ⟨{ w.notify with state := 1 }, w.futures,
      if w.notify.state = 0 then w.notifications + 1 else w.notifications⟩ := by
  simp [notifyOne, Notify.notifyOne, empty]

theorem drop_cases (h : w.drop i = some w') :
    ∃ f, w.futures[i]? = some f ∧ f.stage ≠ .exchanged ∧ f.stage ≠ .registered ∧
      f.dropped = false ∧ w' = { w with futures := w.futures.set i { f with dropped := true } } := by
  unfold drop at h
  split at h
  · rename_i f found
    split at h
    · cases h
    · rename_i outside
      cases h
      simp only [not_or, Bool.not_eq_true] at outside
      exact ⟨f, found, outside.1, outside.2.1, outside.2.2, rfl⟩
  · cases h

/-- What an atomic `poll_notified` of an idle, live future does: take the latch and resolve;
or register a new sender and stay pending; or, with a receiver already, resolve exactly when
it holds a value. -/
theorem pollNotified_cases (h : w.pollNotified i = some w') :
    ∃ f, w.futures[i]? = some f ∧ f.stage = .idle ∧ f.dropped = false ∧
      (w.notify.state = 1 ∧
        w' = { w with notify := { w.notify with state := 0 },
                      futures := w.futures.set i { f with stage := .ready } } ∨
       w.notify.state ≠ 1 ∧ f.receiver = none ∧
        w' = { w with notify := { w.notify with waiters := w.notify.waiters ++ [i] },
                      futures := w.futures.set i { f with receiver := some ⟨none⟩ } } ∨
       w.notify.state ≠ 1 ∧ f.receiver.isSome ∧
        w' = { w with futures := w.futures.set i
                        { f with stage := if f.holds then .ready else .idle } }) := by
  obtain ⟨v, exchanged, h⟩ := Option.bind_eq_some.mp h
  obtain ⟨f, live, rfl⟩ := Option.map_eq_some'.mp exchanged
  obtain ⟨found, idle, alive⟩ := live_eq_some.mp live
  have bound : i < w.futures.length := (List.getElem?_eq_some_iff.mp found).1
  refine ⟨f, found, idle, alive, ?_⟩
  by_cases latched : w.notify.state = 1
  · simp [Notify.compareExchange, latched, World.live, bound, alive] at h
    exact .inl ⟨latched, by rw [← h]; simp [alive]⟩
  · simp [Notify.compareExchange, latched, register, pollReceiver, World.live, bound, alive] at h
    cases receiver : f.receiver with
    | none =>
      simp [receiver, Notified.holds, List.getElem?_set_self bound] at h
      exact .inr (.inl ⟨latched, rfl, by rw [← h]; simp [idle, alive]⟩)
    | some r =>
      simp [receiver, Notified.holds, List.getElem?_set_self bound] at h
      exact .inr (.inr ⟨latched, rfl, by rw [← h]; simp [idle, alive, Notified.holds, receiver]⟩)

end World

end TraceForge.Sync
