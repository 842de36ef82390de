import TraceForge.Runtime.Task
import TraceForge.Runtime.ExecutionState
import TraceForge.Runtime.Execution
import TraceForge.Runtime.Invariant
import TraceForge.Runtime.Scheduling
import TraceForge.Runtime.Registry
import TraceForge.Runtime.Positions
import TraceForge.Runtime.FastPath
import TraceForge.Sync.Notify
import TraceForge.Sync.Wakeups
import TraceForge.Sync.Waiters
import TraceForge.Sync.Clone
import TraceForge.Sync.Interleavings
import TraceForge.Sync.Blocking
