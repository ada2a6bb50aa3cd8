/-
PagedServe/Scheduler/Basic.lean

The state of a scheduler, and operations on one part of it.

Streams live in a table and are named by their place in it, their *handle*. The
scheduler keeps two lists of handles: the waiting queue, head first, and the
running streams in order of admission. A handle outside the table names a blank
stream, which no queue accepts.

The operations `SchedM` change the state and keep what they have changed when
they fail. `onAllocator` and `onStream` lift operations on one part.
-/
import PagedServe.Stream

namespace PagedServe

/-- The place of a stream in the scheduler's table. -/
abbrev Handle := Nat

/-- The streams that wait and those that run, with the memory that they share. A stream may end
at any time, and stays in its list until a pass takes it out. -/
structure Scheduler where
  admission : Admission
  allocator : Allocator
  /-- Every stream the scheduler was told of, by handle. -/
  streams : Array Stream := #[]
  waiting : List Handle := []
  running : List Handle := []
  /-- Milliseconds on the scheduler's clock. -/
  now : Nat := 0

/-- Operations on a scheduler; the state survives a failure. -/
abbrev SchedM := EStateM Failure Scheduler

namespace Scheduler

/-- The stream of a handle. A handle outside the table names a blank stream,
which no queue accepts. -/
def stream (s : Scheduler) (h : Handle) : Stream :=
  s.streams.getD h (Stream.new 0 ⟨[], 0, 0⟩ 0)

/-- Some stream waits or runs. -/
def hasUnfinished (s : Scheduler) : Bool := !s.waiting.isEmpty || !s.running.isEmpty

/-- Tokens per block. -/
def blockSize (s : Scheduler) : Nat := s.allocator.geometry.blockSize

/-- The stream has not ended. -/
def isLive (s : Scheduler) (h : Handle) : Bool := !(s.stream h).isTerminal

/-! ### Steps on one part -/

/-- Write a stream back; a handle outside the table writes nothing. -/
def setStream (h : Handle) (stream : Stream) (s : Scheduler) : Scheduler :=
  { s with streams := s.streams.setIfInBounds h stream }

/-- Change one stream. -/
def update (h : Handle) (f : Stream → Stream) : SchedM Unit :=
  modify fun s => s.setStream h (f (s.stream h))

/-- Run an operation on the allocator. -/
def onAllocator {α : Type} (x : AllocM α) : SchedM α := fun s =>
  match x s.allocator with
  | .ok r allocator => .ok r { s with allocator }
  | .error e allocator => .error e { s with allocator }

/-- Run an operation on one stream. -/
def onStream {α : Type} (h : Handle) (x : EStateM Failure Stream α) : SchedM α := fun s =>
  match x (s.stream h) with
  | .ok r stream => .ok r (s.setStream h stream)
  | .error e stream => .error e (s.setStream h stream)

/-- Let a result decide between going on and failing. -/
def ofResult {α : Type} (r : Except Failure α) : SchedM α := fun s =>
  match r with
  | .ok a => .ok a s
  | .error e => .error e s

@[simp] theorem setStream_running (s : Scheduler) (h : Handle) (stream : Stream) :
    (s.setStream h stream).running = s.running := rfl

/-- Changing one stream shows at its handle and nowhere else. -/
theorem stream_setStream (s : Scheduler) (h k : Handle) (stream : Stream) :
    (s.setStream h stream).stream k =
      if k = h ∧ h < s.streams.size then stream else s.stream k := by
  by_cases hk : k = h
  · subst hk
    by_cases hlt : k < s.streams.size <;>
      simp [Scheduler.stream, setStream, Array.getD_eq_getD_getElem?, hlt]
  · have hkh : ¬ h = k := fun e => hk e.symm
    simp [Scheduler.stream, setStream, Array.getD_eq_getD_getElem?, hk, hkh]

end Scheduler

end PagedServe
