/-
PagedServe/Scheduler/Queue.lean

The waiting queue and the clock: streams enter at the tail, and those that timed
out or were ended while they waited are dropped.
-/
import PagedServe.Scheduler.Basic

namespace PagedServe

namespace Scheduler

/-! ### The queue and its clock -/

/-- Put a new stream into the table. -/
def register (id : UInt64) (request : Request) : SchedM Handle := fun s =>
  .ok s.streams.size { s with streams := s.streams.push (Stream.new id request s.now) }

/-- Append a stream to the queue. Memory plays no part here. -/
def enqueue (h : Handle) : SchedM Unit := do
  let s ← get
  let stream := s.stream h
  let length := stream.request.input.length
  if length = 0 then throw (.error (.invalidInput .emptyInput))
  else if s.admission.maxInput < length then
    throw (.error (.invalidInput (.inputTooLong length s.admission.maxInput)))
  else if stream.phase ≠ .waiting then
    throw (.error (.invalidInput (.notWaiting stream.id stream.phase)))
  else
    update h (Stream.markQueued s.now)
    modify fun s => { s with waiting := s.waiting ++ [h] }

/-- Let time pass. -/
def sleep (ms : Nat) : SchedM Unit := modify fun s => { s with now := s.now + ms }

/-- Stop a stream that is overdue.  The clock stands still inside a call: only `sleep`
moves it, so all streams of a tick are judged at one time. -/
def checkTimeout (h : Handle) : SchedM Unit := do
  update h (Stream.checkTimeout (← get).now)

/-! ### Dropping streams that ended in the queue -/

/-- Stop the waiting streams that are overdue, and drop all that have ended. -/
def sweepWaiting : SchedM Unit := do
  (← get).waiting.forM checkTimeout
  modify fun s => { s with waiting := s.waiting.filter s.isLive }

end Scheduler

end PagedServe
