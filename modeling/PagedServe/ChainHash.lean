/-
PagedServe/ChainHash.lean

Token lists cut into blocks, and the chained hash that names each block together
with everything before it.

`chainHash parent tokens` digests the parent's hash (8 bytes, if there is one)
and then the tokens (4 bytes each). `chainHashes` folds a hash along the blocks
of a prompt. The hash is a parameter wherever chains are compared, so that
nothing can rest on two chains having different hashes.

Main statements: the full blocks have the block size (`length_of_mem_fullBlocks`),
there are as many as fit (`length_fullBlocks`), and together they are the tokens
up to the last block boundary (`flatten_fullBlocks`).
-/
import PagedServe.SipHash

namespace PagedServe

/-! ### Hashing a chain -/

/-- The bytes of a number, least significant first. -/
def bytesOf (count : Nat) (n : Nat) : List UInt8 :=
  (List.range count).map fun i => UInt8.ofNat (n >>> (8 * i))

/-- A way to name a block of tokens after the block before it. -/
abbrev ChainHash := Option UInt64 → List UInt32 → UInt64

/-- The chained hash in use: the parent's hash, then the tokens. -/
def chainHash : ChainHash := fun parent tokens =>
  let lead := match parent with
    | none => []
    | some p => bytesOf 8 p.toNat
  SipHash.hash (lead ++ tokens.flatMap fun t => bytesOf 4 t.toNat)

/-- The hash of every block of a chain, each after the one before it. -/
def chainHashes (hash : ChainHash) (parent : Option UInt64) : List (List UInt32) → List UInt64
  | [] => []
  | tokens :: rest =>
    let h := hash parent tokens
    h :: chainHashes hash (some h) rest

/-! ### Cutting tokens into blocks -/

variable {α : Type}

/-- The full blocks of a token list, in order; tokens that do not fill a block
are left out. A block size of zero gives no blocks. -/
def fullBlocks (size : Nat) (xs : List α) : List (List α) :=
  if _h : 0 < size ∧ size ≤ xs.length then
    xs.take size :: fullBlocks size (xs.drop size)
  else []
termination_by xs.length
decreasing_by simp only [List.length_drop]; omega

/-- The tokens after the last full block. -/
def partialBlock (size : Nat) (xs : List α) : List α := xs.drop (xs.length / size * size)

theorem length_of_mem_fullBlocks {size : Nat} {xs b : List α} (h : b ∈ fullBlocks size xs) :
    b.length = size := by
  fun_induction fullBlocks size xs with
  | case1 xs hs ih =>
    rcases List.mem_cons.1 h with rfl | h
    · rw [List.length_take, Nat.min_eq_left hs.2]
    · exact ih h
  | case2 => simp at h

theorem length_fullBlocks {size : Nat} (hs : 0 < size) (xs : List α) :
    (fullBlocks size xs).length = xs.length / size := by
  fun_induction fullBlocks size xs with
  | case1 xs h ih =>
    rw [List.length_cons, ih, List.length_drop, Nat.div_eq xs.length size, if_pos h]
  | case2 xs h =>
    have hlt : xs.length < size := by omega
    simp [Nat.div_eq_of_lt hlt]

theorem flatten_fullBlocks {size : Nat} (hs : 0 < size) (xs : List α) :
    (fullBlocks size xs).flatten = xs.take (xs.length / size * size) := by
  fun_induction fullBlocks size xs with
  | case1 xs h ih =>
    have hlen : xs.length / size * size = size + (xs.drop size).length / size * size := by
      rw [Nat.div_eq xs.length size, if_pos h, List.length_drop, Nat.add_mul]
      omega
    rw [List.flatten_cons, ih, hlen, List.take_add]
  | case2 xs h =>
    have hlt : xs.length < size := by omega
    simp [Nat.div_eq_of_lt hlt]

end PagedServe
