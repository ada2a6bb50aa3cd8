/-
PagedServe/Executor.lean

The seam between scheduling and generation. Once a tick the engine shows the
running batch to an executor, which answers with what happened to the streams:
calls in order, and an error if the batch failed as a whole.

`synthetic` stands in for a model: every live stream gains one token computed
from its id and length, and finishes at its token limit or at the end token.
`failingAt` lets chosen calls of another executor fail.
-/
import PagedServe.Scheduler.Tick

namespace PagedServe

/-- What an executor did with a batch. -/
structure Reply where
  calls : List (Handle × Stream.Call)
  failure : Option Error

/-- What computes a batch. It answers with calls to its streams, so it can do to them what a
caller can and no more. -/
structure Executor where
  /-- The reply to the call with this number, counted from zero, on this batch. -/
  process : Nat → List (Handle × Stream) → Reply

namespace Executor

/-- The multiplier of the mixing step, `2 ^ 64` over the golden ratio. -/
def goldenMultiplier : UInt64 := 0x9E3779B97F4A7C15

/-- The token at a position of a stream, below the vocabulary size. A vocabulary
of zero counts as one. -/
def nextToken (vocabulary : UInt32) (id : UInt64) (position : Nat) : UInt32 :=
  let mixed := id * goldenMultiplier + UInt64.ofNat position * 31
  (mixed % (max vocabulary 1).toUInt64).toUInt32

/-- The stream finishes once this token is added. -/
def finishes (endToken : Option UInt32) (stream : Stream) (token : UInt32) : Bool :=
  let limit := stream.request.maxNewTokens
  (limit != 0 && limit ≤ stream.output.length + 1) || endToken == some token

/-- The calls for one stream of a batch. -/
def advance (vocabulary : UInt32) (endToken : Option UInt32) (h : Handle) (stream : Stream) :
    List (Handle × Stream.Call) :=
  if stream.isTerminal then []
  else
    let token := nextToken vocabulary stream.id stream.seqLength
    if finishes endToken stream token then [(h, .append token), (h, .finish)]
    else [(h, .append token)]

/-- Every live stream of the batch gains one token; no call fails. -/
def synthetic (vocabulary : UInt32) (endToken : Option UInt32) : Executor where
  process _ batch := ⟨batch.flatMap fun (h, stream) => advance vocabulary endToken h stream, none⟩

/-- Fail the calls with these numbers, leaving the batch untouched. -/
def failingAt (calls : List Nat) (text : String) (inner : Executor) : Executor where
  process n batch :=
    if calls.contains n then ⟨[], some (.executor text)⟩ else inner.process n batch

end Executor

/-- Show a batch to an executor and carry its calls out. The answer is the
executor's own error; a call that fails ends the run. -/
def Scheduler.process (executor : Executor) (call : Nat) (batch : List Handle) :
    SchedM (Option Error) := do
  let s ← get
  let reply := executor.process call (batch.map fun h => (h, s.stream h))
  reply.calls.forM fun (h, c) => onStream h (Stream.call c)
  return reply.failure

end PagedServe
