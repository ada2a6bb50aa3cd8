/-
PagedServe/Scheduler/Growth.lean

The growth pass: every running stream, in order of admission, is given the
blocks that its length asks for and it does not hold.

While the pool is short the newest live stream gives way: it is preempted to the
head of the queue, so streams preempted one after another stand there oldest
first. A stream that is the only live one and still cannot grow is abandoned.

The running list shrinks while the pass goes over it, so a round is for whatever
stream stands at its position by then. Both loops take a bound on their rounds
and fault if they would go on past it.
-/
import PagedServe.Scheduler.Release

namespace PagedServe

namespace Scheduler

/-- Allocate the blocks that a stream is missing. False if the pool is short. -/
def tryGrow (h : Handle) : SchedM Bool := do
  let s ← get
  let missing ← ofResult ((s.stream h).missingBlocks s.blockSize)
  if missing = 0 then return true
  else
    tryCatch
      (do
        let ids ← onAllocator (Allocator.malloc missing)
        update h (Stream.grow ids)
        return true)
      fun e => if e.isInsufficientMemory then return false else throw e

/-- The last position whose item passes the test. -/
def lastPosition (test : Handle → Bool) : List Handle → Option Nat
  | [] => none
  | h :: rest => match lastPosition test rest with
    | some idx => some (idx + 1)
    | none => if test h then some 0 else none

/-- The position of the newest live stream, unless it is the only live one. -/
def victim? (s : Scheduler) : Option Nat :=
  if 1 < (s.running.filter s.isLive).length then lastPosition s.isLive s.running else none

/-- Grow the stream `h` at a position, preempting the newest live stream again
and again while the pool is short; that may be the stream itself. The only live
stream is abandoned instead. True if the stream has grown and still runs. -/
def growOver (h : Handle) (idx : Nat) : (rounds : Nat) → SchedM Bool
  | 0 => throw (.fault .endless)
  | rounds + 1 => do
    if ← tryGrow h then return true
    else
      match (← get).victim? with
      | some newest =>
        preempt (← removeAt newest)
        if newest = idx then return false else growOver h idx rounds
      | none =>
        abandon h idx
        return false

/-- Publish the full blocks of a stream if there are more than before. -/
def commitFullBlocks (h : Handle) : SchedM Unit := do
  let stream := (← get).stream h
  let (tokens, ids) ← ofResult stream.fullPrefix
  if ids.length ≤ stream.committed then return ()
  else
    onAllocator (Allocator.insertIntoCache tokens ids)
    update h (Stream.setCommitted ids.length)

/-- Grow the stream at a position, unless it has ended. The answer is the
position of the next round: the same if the stream has left the list. -/
def growAt (idx : Nat) : SchedM Nat := do
  let s ← get
  let h ← ofResult (Word.item s.running idx)
  checkTimeout h
  if (← get).isLive h then
    if ← growOver h idx s.running.length then
      if ((← get).stream h).reuse then commitFullBlocks h
      return idx + 1
    else return idx
  else return idx + 1

/-- Grow the streams from a position on. -/
def growFrom (idx : Nat) : (rounds : Nat) → SchedM Unit
  | 0 => do
    if idx < (← get).running.length then throw (.fault .endless) else return ()
  | rounds + 1 => do
    if idx < (← get).running.length then growFrom (← growAt idx) rounds else return ()

/-- Grow every stream of the batch. A round either goes on to the next position or shortens the
batch, so there are no more rounds than streams. -/
def growRunning : SchedM Unit := do
  growFrom 0 (← get).running.length

end Scheduler

end PagedServe
