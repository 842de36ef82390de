import TraceForge.Sync.Interleavings
import TraceForge.Sync.Waiters
import TraceForge.Sync.Wakeups

/-! `Notify` with the crate's one-shot receiver, which blocks its task until a value was sent:
a poll of `Notified` never returns `Pending`, so no future is polled again after it waited,
and none is dropped while it waits. -/
namespace TraceForge.Sync

namespace World

variable {w w' : World} {i j : Nat} {l : List Notified} {f g : Notified} {op : Op}

/-- Modelled from the spec: `Receiver::poll` of `crate::sync::oneshot`, which is not among the
sources. The crate's receiver blocks its task in `recv_msg_block` until a value was sent and
then returns `Ready`, so the poll of the receiver is a step only once it holds a value. -/
def receive (i : Nat) (w : World) : Option World :=
  (w.live i .registered).bind fun f =>
    if f.holds then some { w with futures := w.futures.set i { f with stage := .ready } }
    else none

/-- `poll_notified` with the crate's receiver, up to where its task blocks: the
`compare_exchange` and, when it failed, the registration. `receive` ends the poll. -/
def pollBlocking (i : Nat) (w : World) : Option World :=
  (w.exchange i).bind fun w => if w.live i .ready = none then w.register i else some w

def execBlocking : Op → World → Option World
  | .poll i, w => w.pollBlocking i
  | .pollReceiver i, w => w.receive i
  | op, w => w.exec op

def runBlocking : List Op → World → Option World
  | [], w => some w
  | op :: ops, w => (w.execBlocking op).bind (runBlocking ops)

def BlockingReachable (w : World) : Prop := ∃ ops, new.runBlocking ops = some w

theorem runBlocking_invariant {P : List Op → World → Prop}
    (preserves : ∀ {op : Op} {ops : List Op} {w w' : World}, P (op :: ops) w →
      w.execBlocking op = some w' → P ops w')
    {ops : List Op} (h : w.runBlocking ops = some w') (initial : P ops w) : P [] w' := by
  induction ops generalizing w with
  | nil => cases h; exact initial
  | cons op ops ih =>
    obtain ⟨v, stepped, rest⟩ := Option.bind_eq_some.mp h
    exact ih rest (preserves initial stepped)

theorem receive_eq_some (h : w.receive i = some w') :
    ∃ f, w.futures[i]? = some f ∧ f.stage = .registered ∧ f.dropped = false ∧ f.holds = true ∧
      w' = { w with futures := w.futures.set i { f with stage := .ready } } := by
  obtain ⟨f, live, h⟩ := Option.bind_eq_some.mp h
  obtain ⟨found, registered, alive⟩ := live_eq_some.mp live
  by_cases held : f.holds = true
  · simp only [held, if_true, Option.some.injEq] at h
    exact ⟨f, found, registered, alive, held, h.symm⟩
  · simp [held] at h

/-- Each operation with the crate's receiver is one or two steps of the spec's model: a
blocking poll is its `compare_exchange` and registration, and `receive` is the poll of a
receiver that holds a value. -/
theorem execBlocking_steps (h : w.execBlocking op = some w') : ∃ ops, w.run ops = some w' := by
  cases op with
  | poll i =>
    obtain ⟨v, exchanged, h⟩ := Option.bind_eq_some.mp h
    by_cases waits : v.live i .ready = none
    · simp only [waits, if_true] at h
      exact ⟨[.exchange i, .register i], by simp [run, exec, exchanged, h]⟩
    · simp only [waits, if_false, Option.some.injEq] at h
      exact ⟨[.exchange i], by simp [run, exec, exchanged, h]⟩
  | pollReceiver i =>
    obtain ⟨f, found, registered, alive, held, rfl⟩ := receive_eq_some h
    refine ⟨[.pollReceiver i], ?_⟩
    simp [run, exec, pollReceiver, live, found, registered, alive, held]
  | notified | notifyOne | exchange i | register i | drop i =>
    exact ⟨[_], by simpa [run, execBlocking] using h⟩

theorem Reachable.execBlocking (reach : w.Reachable) (h : w.execBlocking op = some w') :
    w'.Reachable :=
  let ⟨pre, ran⟩ := reach
  let ⟨more, moved⟩ := execBlocking_steps h
  ⟨pre ++ more, by rw [run_append, ran]; exact moved⟩

/-- Future `i` is live and waits in its registered poll, its receiver empty. -/
def Blocked (futures : List Notified) (i : Nat) : Prop :=
  ∃ f, futures[i]? = some f ∧ f.receiver = some ⟨none⟩ ∧ f.stage = .registered ∧ f.dropped = false

theorem Blocked.set_ne (blocked : Blocked l j) (ne : i ≠ j) : Blocked (l.set i g) j :=
  let ⟨f, found, rest⟩ := blocked
  ⟨f, (List.getElem?_set_ne ne).trans found, rest⟩

theorem Blocked.append (blocked : Blocked l j) (xs : List Notified) : Blocked (l ++ xs) j :=
  let ⟨f, found, rest⟩ := blocked
  ⟨f, (List.getElem?_append_left (List.getElem?_eq_some_iff.mp found).1).trans found, rest⟩

/-- The invariant of every interleaving with the crate's receiver. -/
structure Waiting (w : World) : Prop where
  /-- Each sender belongs to a live future waiting in its poll, its receiver empty. -/
  blocked : ∀ i ∈ w.notify.waiters, Blocked w.futures i
  /-- Only a future waiting in its poll, or resolved, holds a delivered value. -/
  holds : ∀ f ∈ w.futures, f.holds = true → f.stage = .registered ∨ f.stage = .ready
  /-- Every counted `notify_one` left a wakeup. -/
  counted : w.notifications ≤ w.wakeups

theorem waiting_new : Waiting new := ⟨by simp [new, Notify.new], by simp [new], Nat.le_refl 0⟩

theorem Waiting.absent (waiting : Waiting w) (found : w.futures[i]? = some f)
    (free : f.stage ≠ .registered ∨ f.holds = true) : i ∉ w.notify.waiters := fun mem => by
  obtain ⟨g, there, empty, registered, -⟩ := waiting.blocked i mem
  rw [found] at there
  cases there
  rcases free with other | held
  · exact other registered
  · simp [Notified.holds, empty] at held

theorem Waiting.unheld (waiting : Waiting w) (found : w.futures[i]? = some f)
    (early : f.stage = .idle ∨ f.stage = .exchanged) : f.holds = false := by
  cases held : f.holds
  · rfl
  · rcases waiting.holds f (List.getElem?_mem found) held with late | late <;>
      rcases early with early | early <;> simp [early] at late

theorem Waiting.set (waiting : Waiting w) (found : w.futures[i]? = some f)
    (absent : i ∉ w.notify.waiters) {n : Notify} (waiters : n.waiters = w.notify.waiters)
    (le : share f + w.notify.state ≤ share g + n.state)
    (holds : g.holds = true → g.stage = .registered ∨ g.stage = .ready) :
    Waiting { w with notify := n, futures := w.futures.set i g } where
  blocked j mem :=
    (waiting.blocked j (waiters ▸ mem)).set_ne fun (same : i = j) => absent (same ▸ waiters ▸ mem)
  holds h mem held := by
    rcases List.mem_or_eq_of_mem_set mem with old | rfl
    · exact waiting.holds h old held
    · exact holds held
  counted := by
    have := wakeups_set found g
    have := waiting.counted
    simp only [wakeups, resolved, holding] at *
    omega

theorem Waiting.notified (waiting : Waiting w) : Waiting w.notified where
  blocked j mem := (waiting.blocked j mem).append _
  holds f mem held := by
    rcases List.mem_append.mp mem with old | new
    · exact waiting.holds f old held
    · simp [List.mem_singleton.mp new, Notified.holds] at held
  counted := (notified_wakeups w).symm ▸ waiting.counted

theorem Waiting.notifyOne (waiting : Waiting w) (senders : Senders w) : Waiting w.notifyOne := by
  rcases List.eq_nil_or_concat w.notify.waiters with empty | ⟨ws, i, popped⟩
  · rw [notifyOne_latch empty]
    refine ⟨by simp [empty], waiting.holds, ?_⟩
    have := waiting.counted
    have := senders.latch
    simp only [wakeups, resolved, holding] at *
    split <;> omega
  · rw [List.concat_eq_append] at popped
    obtain ⟨f, found, empty, registered, alive⟩ := waiting.blocked i (by simp [popped])
    have nodup : (ws ++ [i]).Nodup := popped ▸ senders.nodup
    have delivered : f.deliver = { f with receiver := some ⟨some true⟩ } := by
      simp [Notified.deliver, alive, empty]
    rw [notifyOne_pop popped found, delivered]
    refine ⟨fun j mem => (waiting.blocked j (by simp [popped, mem])).set_ne fun same => ?_,
      fun h mem held => ?_, ?_⟩
    · subst same
      exact (List.nodup_append.mp nodup).2.2 mem (List.mem_singleton_self _)
    · rcases List.mem_or_eq_of_mem_set mem with old | rfl
      · exact waiting.holds h old held
      · exact .inl registered
    · have shares : share f + 1 = share { f with receiver := some ⟨some true⟩ } := by
        simp [share, Notified.resolved, Notified.waiting, Notified.holds, registered, alive, empty]
      have := wakeups_set found { f with receiver := some ⟨some true⟩ }
      have := waiting.counted
      simp only [wakeups, resolved, holding] at *
      omega

theorem Waiting.exchange (waiting : Waiting w) (h : w.exchange i = some w') : Waiting w' := by
  obtain ⟨f, live, rfl⟩ := Option.map_eq_some'.mp h
  obtain ⟨found, idle, alive⟩ := live_eq_some.mp live
  have unheld := waiting.unheld found (.inl idle)
  have absent := waiting.absent found (.inl (by simp [idle]))
  unfold Notify.compareExchange
  by_cases latched : w.notify.state = 1 <;> simp only [latched, if_true, if_false] <;>
    refine waiting.set found absent rfl ?_ fun held => absurd (unheld.symm.trans held) nofun <;>
    simp [share, Notified.resolved, Notified.waiting, idle, unheld, latched]

theorem Waiting.register (waiting : Waiting w) (h : w.register i = some w') : Waiting w' := by
  obtain ⟨f, live, rfl⟩ := Option.map_eq_some'.mp h
  obtain ⟨found, exchanged, alive⟩ := live_eq_some.mp live
  have unheld := waiting.unheld found (.inr exchanged)
  have absent := waiting.absent found (.inl (by simp [exchanged]))
  split
  · rename_i fresh
    refine ⟨fun j mem => ?_, fun h mem held => ?_, ?_⟩
    · rcases List.mem_append.mp mem with old | new
      · exact (waiting.blocked j old).set_ne fun (same : i = j) => absent (same ▸ old)
      · rw [List.mem_singleton.mp new]
        exact ⟨_, List.getElem?_set_self (List.getElem?_eq_some_iff.mp found).1, rfl, rfl, alive⟩
    · rcases List.mem_or_eq_of_mem_set mem with old | rfl
      · exact waiting.holds h old held
      · exact .inl rfl
    · have shares : share f = share { f with receiver := some ⟨none⟩, stage := .registered } := by
        simp [share, Notified.resolved, Notified.waiting, Notified.holds, exchanged,
          Option.isNone_iff_eq_none.mp fresh]
      have := wakeups_set found { f with receiver := some ⟨none⟩, stage := .registered }
      have := waiting.counted
      simp only [wakeups, resolved, holding] at *
      omega
  · exact waiting.set found absent rfl (by simp [share, Notified.resolved, Notified.waiting,
      exchanged, unheld]) fun _ => .inl rfl

theorem Waiting.receive (waiting : Waiting w) (h : w.receive i = some w') : Waiting w' := by
  obtain ⟨f, found, registered, alive, held, rfl⟩ := receive_eq_some h
  exact waiting.set found (waiting.absent found (.inr held)) rfl
    (by simp [share, Notified.resolved, Notified.waiting, registered, alive, held]) fun _ => .inr rfl

theorem Waiting.drop (waiting : Waiting w) (h : w.drop i = some w') : Waiting w' := by
  obtain ⟨f, found, -, unregistered, -, rfl⟩ := drop_cases h
  have holds := waiting.holds f (List.getElem?_mem found)
  refine waiting.set found (waiting.absent found (.inl unregistered)) rfl ?_ holds
  obtain ⟨receiver, stage, dropped⟩ := f
  cases stage <;> simp_all [share, Notified.resolved, Notified.waiting]

theorem Waiting.pollBlocking (waiting : Waiting w) (h : w.pollBlocking i = some w') :
    Waiting w' := by
  obtain ⟨v, exchanged, h⟩ := Option.bind_eq_some.mp h
  have exchanged := waiting.exchange exchanged
  by_cases waits : v.live i .ready = none
  · simp only [waits, if_true] at h
    exact exchanged.register h
  · simp only [waits, if_false, Option.some.injEq] at h
    exact h ▸ exchanged

theorem Waiting.execBlocking (waiting : Waiting w) (senders : Senders w)
    (h : w.execBlocking op = some w') : Waiting w' := by
  cases op with
  | notified => cases h; exact waiting.notified
  | notifyOne => cases h; exact waiting.notifyOne senders
  | poll i => exact waiting.pollBlocking h
  | exchange i => exact waiting.exchange h
  | register i => exact waiting.register h
  | pollReceiver i => exact waiting.receive h
  | drop i => exact waiting.drop h

theorem BlockingReachable.waiting (reach : w.BlockingReachable) : Waiting w := by
  obtain ⟨ops, h⟩ := reach
  exact (runBlocking_invariant (P := fun _ w => w.Reachable ∧ Waiting w)
    (fun ⟨reach, waiting⟩ stepped =>
      ⟨reach.execBlocking stepped, waiting.execBlocking reach.senders stepped⟩)
    h ⟨⟨[], rfl⟩, waiting_new⟩).2

end World

end TraceForge.Sync
