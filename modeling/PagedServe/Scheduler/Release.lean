/-
PagedServe/Scheduler/Release.lean

The three ways in which a running stream gives up its blocks: it ended and is
released, it is preempted to the head of the queue, or it is abandoned because
no blocks can be had for it.
-/
import PagedServe.Scheduler.Queue

namespace PagedServe

namespace Scheduler

/-- Take the stream at a position off the running list. -/
def removeAt (idx : Nat) : SchedM Handle := do
  let s ← get
  let h ← ofResult (Word.item s.running idx)
  modify fun s => { s with running := s.running.eraseIdx idx }
  return h

/-- Give up the blocks of a stream. One that finished and reuses prefixes
commits its full blocks on the way. -/
def releaseStream (h : Handle) : SchedM Unit := do
  let stream := (← get).stream h
  let (tokens, _) ← ofResult stream.fullPrefix
  let (ids, emptied) := stream.takeBlocks
  update h fun _ => emptied
  if stream.isFinished && stream.reuse then
    let _ ← onAllocator (Allocator.freeWithCache tokens ids)
  else
    let _ ← onAllocator (Allocator.free ids)

/-- Put a stream that was taken off the running list at the head of the queue,
without blocks. One that ended meanwhile is released instead. -/
def preempt (h : Handle) : SchedM Unit := do
  match ((← get).stream h).suspend with
  | .ok (ids, suspended) =>
    update h fun _ => suspended
    let _ ← onAllocator (Allocator.free ids)
    modify fun s => { s with waiting := h :: s.waiting }
  | .error _ => releaseStream h

/-- Stop the stream `h` at a position for lack of memory, reclaim its blocks at
once and take it off the running list. -/
def abandon (h : Handle) (idx : Nat) : SchedM Unit := do
  let (ids, emptied) := (((← get).stream h).stop .noMemory).takeBlocks
  update h fun _ => emptied
  let _ ← onAllocator (Allocator.free ids)
  let _ ← removeAt idx

/-- Take every stream that ended off the running list and release it. -/
def releaseEnded : SchedM Unit := do
  let s ← get
  let (live, ended) := s.running.partition s.isLive
  set { s with running := live }
  ended.forM releaseStream

end Scheduler

end PagedServe
