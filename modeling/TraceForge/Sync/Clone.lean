import TraceForge.Sync.Wakeups

/-! Clones of a `Notify`. `#[derive(Clone)]` clones `waiters`, an `Arc`, and `state`, an
`AtomicUsize` of `crate::sync::atomic`; both are handles to one location, so a clone reaches
the latch and the queue of the `Notify` it was cloned from. -/
namespace TraceForge.Sync

structure HandleOp where
  clone : Bool
  op : Op
  deriving DecidableEq, Repr

/-- A `Notify` and a clone of it: the latch, queue and futures both handles reach, and for
each future whether it was made from the clone. -/
structure Cloned where
  world : World
  fromClone : List Bool
  deriving DecidableEq, Repr

/-- `n.clone()`. `crate::sync::atomic::AtomicUsize` is not among the sources; its `clone`
is a handle to the same atomic, as the crate's atomics are, so the clone shares `state` as it
shares the `Arc` of `waiters`. -/
def World.clone (w : World) : Cloned := ⟨w, w.futures.map fun _ => false⟩

namespace Cloned

def exec (h : HandleOp) (c : Cloned) : Option Cloned :=
  (c.world.exec h.op).map fun w =>
    ⟨w, if h.op = .notified then c.fromClone ++ [h.clone] else c.fromClone⟩

def run : List HandleOp → Cloned → Option Cloned
  | [], c => some c
  | h :: hs, c => (c.exec h).bind (run hs)

end Cloned

namespace World

variable {w w' : World}

end World

end TraceForge.Sync
