/-
PagedServe/CommandLine/Workload.lean

The requests of a simulated run, drawn from a seed.

All prompts begin with one shared list of tokens; each goes on with at least one
token of its own and asks for at least one new token. The draws come from a
64-bit counter that is stepped by a fixed odd number and scrambled. They are not the draws
of a standard generator: the same seed stands for another workload there, and what a
simulation reports about it differs.
-/
import PagedServe.CommandLine.Options
import PagedServe.Stream

namespace PagedServe.CommandLine

/-- The number of different tokens. -/
def vocabulary : UInt32 := 32000

/-- A source of pseudo-random numbers.  It is a generator of its own, not a standard one, so
only the shape of a workload (how long, how many, what is shared) agrees with that of
another program. -/
structure Source where
  state : UInt64

namespace Source

/-- A 64-bit number. -/
def next (s : Source) : UInt64 × Source :=
  let state := s.state + 0x9E3779B97F4A7C15
  let z := (state ^^^ (state >>> 30)) * 0xBF58476D1CE4E5B9
  let z := (z ^^^ (z >>> 27)) * 0x94D049BB133111EB
  (z ^^^ (z >>> 31), ⟨state⟩)

/-- A number below a positive bound. -/
def below (s : Source) (bound : Nat) : Nat × Source :=
  let (word, s) := s.next
  (word.toNat % bound, s)

/-- So many tokens, behind those drawn already, which are kept last first. -/
def tokensOnto (drawn : List UInt32) (s : Source) : Nat → List UInt32 × Source
  | 0 => (drawn.reverse, s)
  | count + 1 =>
    let (token, s) := s.below vocabulary.toNat
    tokensOnto (UInt32.ofNat token :: drawn) s count

/-- So many tokens. -/
def tokens (s : Source) (count : Nat) : List UInt32 × Source := tokensOnto [] s count

end Source

/-- A request with the shared tokens in front. -/
def request (o : Options) (shared : List UInt32) (s : Source) : Request × Source :=
  let (extra, s) := s.below (max o.promptLength 1)
  let (own, s) := s.tokens (extra + 1)
  let (more, s) := s.below (max o.maxNewTokens 1)
  ({ input := shared ++ own, maxNewTokens := more + 1 }, s)

/-- So many requests, behind those drawn already, which are kept last first. -/
def requestsOnto (o : Options) (shared : List UInt32) (drawn : List Request) (s : Source) :
    Nat → List Request
  | 0 => drawn.reverse
  | count + 1 =>
    let (next, s) := request o shared s
    requestsOnto o shared (next :: drawn) s count

/-- The bytes kept for one queued request. -/
def requestBytes : Nat := 40

/-- The bytes of a token. -/
def tokenBytes : Nat := 4

/-- The requests that the options describe. -/
def workload (o : Options) : Except Failure (List Request) := do
  Word.room o.sharedLength tokenBytes
  Word.room o.requests requestBytes
  let (shared, s) := (Source.mk (UInt64.ofNat o.seed)).tokens o.sharedLength
  return requestsOnto o shared [] s o.requests

end PagedServe.CommandLine
