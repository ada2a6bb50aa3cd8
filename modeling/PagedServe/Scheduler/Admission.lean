/-
PagedServe/Scheduler/Admission.lean

The admission pass: streams are started from the head of the queue while their
blocks fit. The first that does not fit ends the pass, unless the fallback is on
and waiting is hopeless; then it is stopped and the next one is tried.
-/
import PagedServe.Scheduler.Release

namespace PagedServe

namespace Scheduler

/-- Blocks for the tokens of a stream and, if its length is ahead of them, for
the rest. Nothing is kept if the rest does not fit. -/
def grantFor (h : Handle) : SchedM Grant := do
  let s ← get
  let stream := s.stream h
  let grant ← onAllocator (Allocator.mallocWithCache stream.tokens stream.reuse)
  let needed ← ofResult (blocksFor stream.seqLength s.blockSize)
  let missing := needed - grant.ids.length
  if missing = 0 then return grant
  else
    let rest ← tryCatch (onAllocator (Allocator.malloc missing)) fun e => do
      let _ ← onAllocator (Allocator.free grant.ids)
      throw e
    return { grant with ids := grant.ids ++ rest }

/-- What became of the head of the queue. -/
inductive Admittance where
  | granted (grant : Grant)
  | short

/-- The blocks for a stream, or the answer that they are too few. Other failures are not caught. -/
def tryGrant (h : Handle) : SchedM Admittance :=
  tryCatch (return .granted (← grantFor h)) fun e =>
    if e.isInsufficientMemory then return .short else throw e

/-- Start a stream with its blocks, or give them back if it no longer waits. -/
def begin (h : Handle) (grant : Grant) : SchedM Unit := do
  let s ← get
  match (s.stream h).start grant s.blockSize with
  | .ok started =>
    update h fun _ => started
    modify fun s => { s with running := s.running ++ [h] }
  | .error _ =>
    let _ ← onAllocator (Allocator.free grant.ids)

/-- Nothing can be waited for: no stream runs that could free blocks, or the
whole pool is too small. -/
def isHopeless (s : Scheduler) (h : Handle) : Except Failure Bool := do
  let stream := s.stream h
  let needed ← blocksFor (max stream.tokens.length stream.seqLength) s.blockSize
  return s.running.isEmpty || s.allocator.pool.usable < needed

/-- Admit streams from the head of the queue, which these handles are, while
their blocks fit. -/
def admitFrom : List Handle → SchedM Unit
  | [] => pure ()
  | h :: rest => do
    match ← tryGrant h with
    | .granted grant =>
      modify fun s => { s with waiting := rest }
      begin h grant
      admitFrom rest
    | .short =>
      let s ← get
      let hopeless ← ofResult (s.isHopeless h)
      if s.admission.fallback && hopeless then
        modify fun s => { s with waiting := rest }
        update h (Stream.stop .noMemory)
        admitFrom rest
      else return ()

/-- Admit streams of the queue as far as its head can be served. -/
def admitWaiting : SchedM Unit := do
  admitFrom (← get).waiting

end Scheduler

end PagedServe
