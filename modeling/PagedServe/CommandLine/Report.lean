/-
PagedServe/CommandLine/Report.lean

What the simulator prints: the totals of a run as a JSON object, one member a
line, and the usage text.
-/
import PagedServe.CommandLine.Simulation
import PagedServe.Decimal.Shortest

namespace PagedServe.CommandLine

/-- The members of the printed object, in order. -/
def Summary.members (s : Summary) (elapsedMs : Float) : List (String × String) :=
  [("requests", toString s.requests),
   ("finished", toString s.finished),
   ("stopped", toString s.stopped),
   ("generated_tokens", toString s.generatedTokens),
   ("reused_tokens", toString s.reusedTokens),
   ("ticks", toString s.ticks),
   ("peak_batch_size", toString s.peakBatch),
   ("peak_block_used_ratio", Decimal.floatText s.peakUsedRatio),
   ("cached_blocks", toString s.cachedBlocks),
   ("elapsed_ms", Decimal.floatText elapsedMs)]

/-- One line per member, with a comma after all but the last. -/
def memberLines : List (String × String) → List String
  | [] => []
  | [(key, value)] => ["  \"" ++ key ++ "\": " ++ value]
  | (key, value) :: rest => ("  \"" ++ key ++ "\": " ++ value ++ ",") :: memberLines rest

/-- The printed object. -/
def Summary.lines (s : Summary) (elapsedMs : Float) : List String :=
  ["\x7b"] ++ memberLines (s.members elapsedMs) ++ ["\x7d"]

/-- The text that help shows, and a mistake in the arguments. -/
def usage : List String :=
  ["Simulate FIFO scheduling over a paged KV cache",
   "",
   "Usage: nano-kvsched [OPTIONS]",
   "",
   "Options:",
   "  -c, --config <CONFIG>                      Engine config JSON (defaults are used when omitted)",
   "  -n, --requests <REQUESTS>                  Number of requests to submit [default: 64]",
   "      --prompt-len <PROMPT_LEN>              Maximum prompt length, excluding the shared prefix [default: 128]",
   "      --max-new-tokens <MAX_NEW_TOKENS>      Maximum tokens generated per request [default: 64]",
   "      --device-memory-mb <DEVICE_MEMORY_MB>  Simulated free device memory in MiB [default: 1088]",
   "      --seed <SEED>                          Seed for the workload generator [default: 0]",
   "      --reuse-cache                          Let requests reuse cached prompt prefixes",
   "      --shared-prefix <SHARED_PREFIX>        Leading tokens shared by every prompt [default: 0]",
   "  -h, --help                                 Print help"]

end PagedServe.CommandLine
