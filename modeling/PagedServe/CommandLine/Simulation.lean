/-
PagedServe/CommandLine/Simulation.lean

A run of the simulator: read the settings, build an engine, submit the workload,
tick until nothing is left, and sum up.

Every tick with a batch gives each of its streams a token, so a run that drains
at all does so within one tick more than the tokens asked for. A run that is
still unfinished then has a head of the queue that can never be admitted.
-/
import PagedServe.CommandLine.Workload
import PagedServe.Engine
import PagedServe.Settings.Reader

namespace PagedServe.CommandLine

/-- The name and version shown on the first line. -/
def banner : String := "nano-kvsched v0.1.0"

/-- The totals of a run. -/
structure Summary where
  requests : Nat := 0
  finished : Nat := 0
  stopped : Nat := 0
  generatedTokens : Nat := 0
  reusedTokens : Nat := 0
  ticks : Nat := 0
  peakBatch : Nat := 0
  peakUsedRatio : Float := 0.0
  cachedBlocks : Nat := 0

/-- How a run ends. -/
inductive Ending where
  | finished (summary : Summary)
  /-- The queue never empties. -/
  | stuck
  | failed (e : Error)
  | faulted (f : Fault)

/-- A failure ends the run. -/
def Ending.ofFailure : Failure → Ending
  | .error e => .failed e
  | .fault f => .faulted f

/-- What a run shows. -/
structure Outcome where
  /-- The lines about the engine; none if it could not be built. -/
  header : List String
  ending : Ending

/-- Take a tick's figures into the totals. -/
def Summary.addTick (s : Summary) (stats : TickStats) : Summary :=
  { s with
    ticks := s.ticks + 1
    peakBatch := max s.peakBatch stats.batch
    peakUsedRatio := if s.peakUsedRatio < stats.usedRatio then stats.usedRatio else s.peakUsedRatio }

/-- Take a stream's end into the totals. -/
def Summary.addStream (s : Summary) (stream : Stream) : Summary :=
  { s with
    finished := s.finished + (stream.phase == .finished).toNat
    stopped := s.stopped + (stream.phase == .stopped).toNat
    generatedTokens := s.generatedTokens + stream.output.length
    reusedTokens := s.reusedTokens + stream.reuseLength }

/-- The two lines about the engine. -/
def header (g : Geometry) : Except Failure (List String) := do
  let bytes ← g.blockBytes
  return [banner, s!"KV cache: {g.blocks} blocks x {g.blockSize} tokens ({bytes} bytes per block)"]

/-- Submit requests one after another. -/
def submitAll (reuse : Bool) : List Request → EngineM Unit
  | [] => return ()
  | r :: rest => do
    let h ← Engine.submit r
    Engine.onScheduler (Scheduler.update h (Stream.setReuse reuse))
    submitAll reuse rest

/-- Ticks within which a run drains if it drains at all. -/
def tickLimit (load : List Request) : Nat := load.foldl (fun n r => n + r.maxNewTokens) 1

/-- Submit a workload and run it to its end. Nothing if the queue never empties. -/
def serve (reuse : Bool) (load : List Request) : EngineM (Option Summary) := do
  submitAll reuse load
  let ticks ← Engine.drain (tickLimit load)
  let e ← get
  if e.hasUnfinished then return none
  else
    let summary := ticks.foldl Summary.addTick { requests := load.length }
    let summary := e.scheduler.streams.foldl Summary.addStream summary
    return some { summary with cachedBlocks := e.scheduler.allocator.cache.size }

/-- The engine that the options describe, with the content of the settings file
if one is named. The settings are read before the device is looked at. -/
def prepare (o : Options) (contentOf : String → Option ByteArray) : Except Failure Engine := do
  let settings ← match o.config with
    | some path => Settings.parseFile (contentOf path)
    | none => .ok {}
  let deviceFree ← Word.mul (← Word.mul o.deviceMiB 1024) 1024
  Engine.ofSettings settings deviceFree (Executor.synthetic vocabulary none)

/-- Serve the workload of the options. -/
def run (o : Options) (engine : Engine) : Ending :=
  match workload o with
  | .error f => .ofFailure f
  | .ok load =>
    match (serve o.reuse load).run engine with
    | .ok (some summary) _ => .finished summary
    | .ok none _ => .stuck
    | .error f _ => .ofFailure f

/-- What a run with these options shows; the header comes before anything is served. -/
def outcome (o : Options) (contentOf : String → Option ByteArray) : Outcome :=
  match prepare o contentOf with
  | .error f => ⟨[], .ofFailure f⟩
  | .ok engine =>
    match header engine.scheduler.allocator.geometry with
    | .error f => ⟨[], .ofFailure f⟩
    | .ok lines => ⟨lines, run o engine⟩

end PagedServe.CommandLine
