/-
PagedServe/SipHash.lean

SipHash-1-3 with the zero key, a 64-bit hash of byte strings.

The bytes are cut into 64-bit little-endian words. Each word passes one mixing
round; the last word holds the bytes left over and the length modulo 256 in its
top byte; three rounds close the digest.
-/
namespace PagedServe

namespace SipHash

/-- The four words of the mixing state. -/
structure State where
  v0 : UInt64
  v1 : UInt64
  v2 : UInt64
  v3 : UInt64

/-- The state for a key of sixteen zero bytes. -/
def State.start : State :=
  ⟨0x736f6d6570736575, 0x646f72616e646f6d, 0x6c7967656e657261, 0x7465646279746573⟩

/-- Rotate the bits of a word, by a number from 1 to 63. -/
def rotateLeft (x : UInt64) (k : UInt64) : UInt64 := (x <<< k) ||| (x >>> (64 - k))

/-- One round of mixing. -/
def State.round (s : State) : State :=
  let v0 := s.v0 + s.v1
  let v1 := rotateLeft s.v1 13 ^^^ v0
  let v0 := rotateLeft v0 32
  let v2 := s.v2 + s.v3
  let v3 := rotateLeft s.v3 16 ^^^ v2
  let v0 := v0 + v3
  let v3 := rotateLeft v3 21 ^^^ v0
  let v2 := v2 + v1
  let v1 := rotateLeft v1 17 ^^^ v2
  let v2 := rotateLeft v2 32
  ⟨v0, v1, v2, v3⟩

/-- One round per message word. -/
def State.absorb (s : State) (word : UInt64) : State :=
  let mixed := State.round { s with v3 := s.v3 ^^^ word }
  { mixed with v0 := mixed.v0 ^^^ word }

/-- Three closing rounds. -/
def State.digest (s : State) : UInt64 :=
  let last := State.round (State.round (State.round { s with v2 := s.v2 ^^^ 0xff }))
  last.v0 ^^^ last.v1 ^^^ last.v2 ^^^ last.v3

/-- The number that bytes spell, least significant byte first. -/
def littleEndian (bytes : List UInt8) : UInt64 :=
  bytes.foldr (fun b acc => (acc <<< 8) ||| b.toUInt64) 0

/-- Absorb whole words, then the tail with the length in its top byte. -/
def absorbAll (length : Nat) : State → List UInt8 → State
  | s, b0 :: b1 :: b2 :: b3 :: b4 :: b5 :: b6 :: b7 :: rest =>
    absorbAll length (s.absorb (littleEndian [b0, b1, b2, b3, b4, b5, b6, b7])) rest
  | s, tail => s.absorb (littleEndian tail ||| (UInt64.ofNat length <<< 56))

/-- The hash of a message. -/
def hash (bytes : List UInt8) : UInt64 :=
  (absorbAll bytes.length State.start bytes).digest

end SipHash

end PagedServe
