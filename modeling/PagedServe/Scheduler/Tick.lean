/-
PagedServe/Scheduler/Tick.lean

Strict first-in first-out scheduling in ticks. A tick makes four passes:

1. `sweepWaiting` drops waiting streams that timed out or were ended.
2. `growRunning` gives every running stream the blocks it is missing,
   preempting the newest live streams when the pool is short.
3. `releaseEnded` takes the blocks of streams that ended back.
4. `admitWaiting` starts streams from the head of the queue while they fit.

At its end the books are checked.  Time passes between ticks only: the first two passes
read the same clock for every stream.
-/
import PagedServe.Scheduler.Growth
import PagedServe.Scheduler.Admission

namespace PagedServe

namespace Scheduler

/-- One tick; the batch is the list of running streams after it. -/
def schedule : SchedM (List Handle) := do
  sweepWaiting
  growRunning
  releaseEnded
  admitWaiting
  ofResult (← get).allocator.check
  return (← get).running

end Scheduler

end PagedServe
