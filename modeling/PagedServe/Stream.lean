/-
PagedServe/Stream.lean

One request while it is served: its tokens, the blocks it holds, and where it
is in its life.

    waiting ──► running ──► finished   (generation completed)
       │           │
       └───────────┴──────► stopped    (memory, timeout, failure, request)

`running` goes back to `waiting` when the stream is preempted. `finished` and
`stopped` are final: the first end wins.

The caller and the executor act on a stream through `Stream.Call`; the other
transitions belong to the scheduler. Time is the count of milliseconds on the
scheduler's clock.
-/
import PagedServe.Allocator

namespace PagedServe

/-- Why a stream was stopped. -/
inductive StopReason where
  /-- No blocks could be had for the stream. -/
  | noMemory
  | timedOut (elapsed limit : Nat)
  /-- The executor failed on the stream's batch. -/
  | failed (cause : Error)
  | requested (text : String)

/-- The message that the stream's owner reads. -/
def StopReason.text : StopReason → String
  | .noMemory => "can not be add input queue"
  | .timedOut elapsed limit => s!"timeout: {elapsed} ms exceeds {limit} ms"
  | .failed cause => cause.message
  | .requested text => text

/-- The phase of a stream, with the reason if it was stopped. -/
inductive Status where
  | waiting
  | running
  | finished
  | stopped (reason : StopReason)

/-- The phase alone. -/
def Status.phase : Status → Phase
  | .waiting => .waiting
  | .running => .running
  | .finished => .finished
  | .stopped _ => .stopped

/-- A request as submitted. -/
structure Request where
  input : List UInt32
  /-- Tokens to generate before finishing; zero is no limit. -/
  maxNewTokens : Nat := 0
  /-- Give up after so many milliseconds; zero is never. -/
  timeoutMs : Nat := 0

/-- A request on its way: what was generated for it and which blocks hold its states. -/
structure Stream where
  id : UInt64
  request : Request
  output : List UInt32 := []
  /-- Tokens to be covered by blocks. Follows the output unless set directly. -/
  seqLength : Nat
  table : BlockTable := .empty
  /-- Leading tokens whose states came from the prefix cache. -/
  reuseLength : Nat := 0
  /-- Leading blocks already committed to the prefix cache. -/
  committed : Nat := 0
  status : Status := .waiting
  reuse : Bool := false
  /-- When the stream was created or last queued. -/
  queuedAt : Nat := 0

namespace Stream

/-- A stream whose request came in just now, with no blocks. -/
def new (id : UInt64) (request : Request) (now : Nat) : Stream :=
  { id, request, seqLength := request.input.length, queuedAt := now }

/-! ### Queries -/

def phase (s : Stream) : Phase := s.status.phase

def isTerminal (s : Stream) : Bool := s.phase.isTerminal

def isFinished (s : Stream) : Bool := s.phase == .finished

/-- Input followed by output. -/
def tokens (s : Stream) : List UInt32 := s.request.input ++ s.output

/-- Blocks missing to cover the sequence. -/
def missingBlocks (s : Stream) (blockSize : Nat) : Except Failure Nat := do
  return (← blocksFor s.seqLength blockSize) - s.table.ids.length

/-- The slot of every token up to the sequence length. -/
def slots (s : Stream) : Except Failure (List Nat) := s.table.slots s.seqLength

/-- How many blocks held are full of tokens that are known and counted. -/
def fullBlockCount (s : Stream) : Nat :=
  if s.table.blockSize = 0 then 0
  else min (min s.seqLength s.tokens.length / s.table.blockSize) s.table.ids.length

/-- The tokens of the full blocks. -/
def fullTokens (s : Stream) : List UInt32 :=
  s.tokens.take (s.fullBlockCount * s.table.blockSize)

/-- Tokens and blocks of the full blocks. -/
def fullPrefix (s : Stream) : Except Failure (List UInt32 × List Nat) := do
  return (s.fullTokens, ← Word.slice s.table.ids s.fullBlockCount)

/-- More time has passed since queueing than the request allows. -/
def isOverdue (s : Stream) (now : Nat) : Bool :=
  s.request.timeoutMs != 0 && s.request.timeoutMs < now - s.queuedAt

/-- A timeout check at this time stops the stream. -/
def timesOut (s : Stream) (now : Nat) : Bool := !s.isTerminal && s.isOverdue now

/-! ### What callers and executors may do -/

/-- Set the length directly; it then may differ from the number of tokens. -/
def setSeqLength (n : Nat) (s : Stream) : Stream := { s with seqLength := n }

def setReuse (on : Bool) (s : Stream) : Stream := { s with reuse := on }

/-- Generation is complete. A terminal stream stays as it is. -/
def finish (s : Stream) : Stream := if s.isTerminal then s else { s with status := .finished }

/-- End the stream by force. A terminal stream stays as it is. -/
def stop (reason : StopReason) (s : Stream) : Stream :=
  if s.isTerminal then s else { s with status := .stopped reason }

/-- Stop the stream if it is overdue. -/
def checkTimeout (now : Nat) (s : Stream) : Stream :=
  if s.timesOut now then s.stop (.timedOut (now - s.queuedAt) s.request.timeoutMs) else s

/-- Add a generated token, then count it. -/
def append (token : UInt32) : EStateM Failure Stream Unit := fun s =>
  let s := { s with output := s.output ++ [token] }
  match Word.add s.seqLength 1 with
  | .ok n => .ok () { s with seqLength := n }
  | .error e => .error e s

/-- A change to a stream from outside the scheduler. -/
inductive Call where
  | append (token : UInt32)
  | setSeqLength (n : Nat)
  | setReuse (on : Bool)
  | finish
  | stop (reason : StopReason)

/-- Carry out a call. Only `append` can fail, at the end of the 64-bit range. -/
def call : Call → EStateM Failure Stream Unit
  | .append token => append token
  | .setSeqLength n => modify (setSeqLength n)
  | .setReuse on => modify (setReuse on)
  | .finish => modify finish
  | .stop reason => modify (stop reason)

/-! ### What the scheduler does -/

/-- The timeout runs from here. -/
def markQueued (now : Nat) (s : Stream) : Stream := { s with queuedAt := now }

/-- From waiting to running, with the blocks just granted. -/
def start (s : Stream) (grant : Grant) (blockSize : Nat) : Except Failure Stream :=
  match s.status with
  | .waiting => do
    let committed ← Word.div grant.reused blockSize
    return { s with
      table := ⟨blockSize, grant.ids⟩
      reuseLength := grant.reused
      committed
      status := .running }
  | status => .error (.error (.invalidTransition status.phase .running))

/-- From running back to waiting. The blocks are handed back; tokens and length
stay, so the stream goes on from there when it is admitted again. -/
def suspend (s : Stream) : Except Failure (List Nat × Stream) :=
  match s.status with
  | .running =>
    .ok (s.table.ids,
      { s with table := .empty, reuseLength := 0, committed := 0, status := .waiting })
  | status => .error (.error (.invalidTransition status.phase .waiting))

/-- Add blocks behind those held. -/
def grow (ids : List Nat) (s : Stream) : Stream := { s with table := s.table.append ids }

/-- The blocks held, and the stream without them. -/
def takeBlocks (s : Stream) : List Nat × Stream :=
  let (ids, table) := s.table.take
  (ids, { s with table })

/-- So many leading blocks have been published. -/
def setCommitted (n : Nat) (s : Stream) : Stream := { s with committed := n }

end Stream

end PagedServe
