/-
PagedServe/Engine.lean

The tick loop: schedule, hand the batch to the executor, report.

A scheduling error ends the tick and is reported; an executor error stops every
stream of the batch and the tick still succeeds. `drain` repeats ticks while
streams are unfinished and ends with the first error, `persist` goes on past
errors; `loop` is how it goes on a thread of its own, resting a millisecond
whenever there was nothing to do.
-/
import PagedServe.Executor

namespace PagedServe

/-- The figures of a tick. -/
structure TickStats where
  /-- Streams handed to the executor. -/
  batch : Nat
  /-- Streams still queued after admission. -/
  waiting : Nat
  /-- The share of usable blocks in use after the tick. -/
  usedRatio : Float

/-- A scheduler, the executor that computes its batches, and the figures kept between ticks. -/
structure Engine where
  scheduler : Scheduler
  executor : Executor
  /-- Batches handed to the executor so far. -/
  calls : Nat := 0
  nextId : UInt64 := 1
  lastStats : TickStats := ⟨0, 0, 0.0⟩
  /-- The loop runs on a thread of its own. -/
  looping : Bool := false

/-- Operations on an engine; the state survives a failure. -/
abbrev EngineM := EStateM Failure Engine

namespace Engine

/-- An engine that has done nothing yet. -/
def ofScheduler (scheduler : Scheduler) (executor : Executor) : Engine := { scheduler, executor }

/-- An engine for settings on a device with so many bytes free. -/
def ofSettings (settings : Settings) (deviceFree : Nat) (executor : Executor) :
    Except Failure Engine := do
  settings.validate
  let geometry ← Geometry.forBudget settings.model settings.memory deviceFree
  let allocator ← Allocator.new geometry
  return ofScheduler { admission := settings.admission, allocator } executor

/-- Run an operation on the scheduler. -/
def onScheduler {α : Type} (x : SchedM α) : EngineM α := fun e =>
  match x e.scheduler with
  | .ok r scheduler => .ok r { e with scheduler }
  | .error f scheduler => .error f { e with scheduler }

/-- Some stream waits or runs. -/
def hasUnfinished (e : Engine) : Bool := e.scheduler.hasUnfinished

/-- Queue a request under a fresh id. A refused request uses the id up and
leaves no stream behind. -/
def submit (request : Request) : EngineM Handle := do
  let e ← get
  let id := e.nextId
  set { e with nextId := id + 1 }
  let before := e.scheduler.streams
  let h ← onScheduler (Scheduler.register id request)
  tryCatch (onScheduler (Scheduler.enqueue h)) fun f => do
    modify fun e => { e with scheduler := { e.scheduler with streams := before } }
    throw f
  return h

/-- Hand a batch to the executor; its error stops every stream of the batch. -/
def process (batch : List Handle) : EngineM Unit := do
  let e ← get
  set { e with calls := e.calls + 1 }
  match ← onScheduler (Scheduler.process e.executor e.calls batch) with
  | none => return ()
  | some cause =>
    batch.forM fun h => onScheduler (Scheduler.update h (Stream.stop (.failed cause)))

/-- One tick. -/
def step : EngineM TickStats := do
  let batch ← onScheduler Scheduler.schedule
  let waiting := (← get).scheduler.waiting.length
  if batch.isEmpty then pure () else process batch
  let stats := ⟨batch.length, waiting, (← get).scheduler.allocator.usedRatio⟩
  modify fun e => { e with lastStats := stats }
  return stats

/-- One tick whose error, if it has one, is its answer. A fault is still thrown. -/
def attempt : EngineM (Except Error TickStats) :=
  tryCatch (return .ok (← step)) fun f => match f with
    | .error e => return .error e
    | .fault _ => throw f

/-- Tick while streams are unfinished, at most `limit` times, past errors. -/
def persist : Nat → EngineM (List (Except Error TickStats))
  | 0 => return []
  | limit + 1 => do
    if (← get).hasUnfinished then
      let answer ← attempt
      return answer :: (← persist limit)
    else return []

/-- Tick while streams are unfinished, at most `limit` times, up to an error. -/
def drain : Nat → EngineM (List TickStats)
  | 0 => return []
  | limit + 1 => do
    if (← get).hasUnfinished then
      let stats ← step
      return stats :: (← drain limit)
    else return []

/-! ### The loop on a thread of its own -/

/-- Start the loop, unless it runs already. -/
def start : EngineM Unit := do
  let e ← get
  if e.looping then throw (.error (.settings .alreadyStarted))
  else set { e with looping := true }

/-- End the loop. -/
def stop : EngineM Unit := modify fun e => { e with looping := false }

/-- How a tick of the loop went. -/
inductive Pace where
  | busy
  | idle
  | broken

/-- A tick of the loop. Errors are waited out; a fault breaks the loop. -/
def pace : EngineM Pace :=
  tryCatch
    (do
      match ← attempt with
      | .ok stats => if 0 < stats.batch then return .busy else return .idle
      | .error _ => return .idle)
    fun _ => return .broken

/-- Run the loop until no stream is unfinished, for at most `limit` ticks and
`patience` milliseconds of rest, one after each idle tick. A broken loop lets
the rest of that time pass. -/
def loop : (limit patience : Nat) → EngineM Unit
  | 0, _ => return ()
  | limit + 1, patience => do
    if (← get).hasUnfinished then
      match ← pace, patience with
      | .busy, _ => loop limit patience
      | .broken, rest => if (← get).hasUnfinished then onScheduler (Scheduler.sleep rest)
      | .idle, 0 => return ()
      | .idle, rest + 1 =>
        onScheduler (Scheduler.sleep 1)
        loop limit rest
    else return ()

end Engine

end PagedServe
