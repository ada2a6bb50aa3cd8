import PagedServe.Failure
import PagedServe.Word
import PagedServe.SipHash
import PagedServe.ChainHash
import PagedServe.Block
import PagedServe.BlockTable
import PagedServe.Pool
import PagedServe.PrefixCache
import PagedServe.Settings
import PagedServe.Geometry
import PagedServe.Strided
import PagedServe.BlockMemory
import PagedServe.Allocator
import PagedServe.Stream
import PagedServe.Scheduler.Basic
import PagedServe.Scheduler.Queue
import PagedServe.Scheduler.Release
import PagedServe.Scheduler.Growth
import PagedServe.Scheduler.Admission
import PagedServe.Scheduler.Tick
import PagedServe.Executor
import PagedServe.Engine
import PagedServe.Decimal
import PagedServe.Decimal.Shortest
import PagedServe.Json
import PagedServe.Json.Token
import PagedServe.Json.Parser
import PagedServe.Json.Writer
import PagedServe.Settings.Reader
import PagedServe.Settings.Writer
import PagedServe.CommandLine.Options
import PagedServe.CommandLine.Workload
import PagedServe.CommandLine.Simulation
import PagedServe.CommandLine.Report
import PagedServe.Main
import PagedServe.Proofs.Outcome
import PagedServe.Proofs.Strided
import PagedServe.Proofs.BlockMemory
import PagedServe.Proofs.Gathering
import PagedServe.Proofs.JsonText
import PagedServe.Proofs.SettingsText
import PagedServe.Proofs.Pool
import PagedServe.Proofs.Releases
import PagedServe.Proofs.PoolCalls
import PagedServe.Proofs.Sizing
import PagedServe.Proofs.Consistency
import PagedServe.Proofs.Chains
import PagedServe.Proofs.PrefixCache
import PagedServe.Proofs.Ledger
import PagedServe.Proofs.Budget
import PagedServe.Proofs.Provenance
import PagedServe.Proofs.Stream
import PagedServe.Proofs.Books
import PagedServe.Proofs.Steps
import PagedServe.Proofs.Growth
import PagedServe.Proofs.Admission
import PagedServe.Proofs.Runs
import PagedServe.Proofs.Totality
import PagedServe.Proofs.Fifo
import PagedServe.Proofs.Naming
import PagedServe.Proofs.Shortage
import PagedServe.Proofs.Slots
import PagedServe.Proofs.Coverage
import PagedServe.Proofs.Isolation
import PagedServe.Proofs.Fallback
import PagedServe.Proofs.Generation
import PagedServe.Proofs.Serving
import PagedServe.Proofs.Drain
import PagedServe.Proofs.Places
import PagedServe.Proofs.Transparency
import PagedServe.Proofs.Clients
import PagedServe.Proofs.Stranding
import PagedServe.Proofs.Eviction
import PagedServe.Proofs.Grants
import PagedServe.Proofs.PrefixMap
import PagedServe.Proofs.Refinement
import PagedServe.Proofs.Recency
import PagedServe.Proofs.EngineRuns
import PagedServe.Proofs.Quiescence
import PagedServe.Proofs.Timeouts
import PagedServe.Proofs.Preemption
import PagedServe.Proofs.IdleTicks
import PagedServe.Proofs.Publication
import PagedServe.Proofs.Processing
