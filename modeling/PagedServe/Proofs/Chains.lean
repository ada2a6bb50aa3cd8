/-
PagedServe/Proofs/Chains.lean

Positions in a chain of full blocks, and how a chain begins another.

Block `i` of a token list is the run of tokens from `i * size` on
(`getElem?_fullBlocks`), so the blocks of the first `n * size` tokens are the
first `n` blocks (`fullBlocks_take`), and tokens added at the end leave the
earlier blocks as they are (`fullBlocks_append`).  The hash at a position
depends on the blocks up to it alone (`chainHashes_take`), hence so does the
name of a block (`chainHashes_append`).  A block that is added behind full blocks
is the last one, named after the one before it (`fullBlocks_concat`,
`chainHashes_concat`).
-/
import PagedServe.ChainHash
import Mathlib.Data.List.Basic

namespace PagedServe

variable {α : Type}

/-! ### Blocks by position -/

theorem getElem?_fullBlocks {size : Nat} (hs : 0 < size) (xs : List α) (i : Nat) :
    (fullBlocks size xs)[i]? =
      if (i + 1) * size ≤ xs.length then some ((xs.drop (i * size)).take size) else none := by
  fun_induction fullBlocks size xs generalizing i with
  | case1 xs h ih =>
    -- a block is cut off, and the later ones are the blocks of the rest
    cases i with
    | zero =>
      have hle : (0 + 1) * size ≤ xs.length := by omega
      rw [List.getElem?_cons_zero, if_pos hle, Nat.zero_mul, List.drop_zero]
    | succ i =>
      have hlen : (i + 1 + 1) * size ≤ xs.length ↔ (i + 1) * size ≤ (xs.drop size).length := by
        rw [List.length_drop, Nat.add_mul (i + 1) 1]
        omega
      rw [List.getElem?_cons_succ, ih, List.drop_drop, Nat.add_mul i 1, Nat.one_mul,
        Nat.add_comm size]
      simp only [hlen, Nat.add_mul i 1, Nat.one_mul]
  | case2 xs h =>
    -- less than a block is left
    have hlt : ¬ (i + 1) * size ≤ xs.length := by
      intro hle
      have : size ≤ (i + 1) * size := Nat.le_mul_of_pos_left size (Nat.succ_pos i)
      exact h ⟨hs, by omega⟩
    rw [List.getElem?_nil, if_neg hlt]

/-- The blocks of the first `n * size` tokens are the first `n` blocks. -/
theorem fullBlocks_take {size : Nat} (hs : 0 < size) (xs : List α) (n : Nat) :
    fullBlocks size (xs.take (n * size)) = (fullBlocks size xs).take n := by
  apply List.ext_getElem?
  intro i
  rw [getElem?_fullBlocks hs, List.getElem?_take, getElem?_fullBlocks hs, List.length_take]
  -- the cut falls between two blocks, so no block is cut through
  by_cases hi : i < n
  · have hle : (i + 1) * size ≤ n * size := Nat.mul_le_mul_right size hi
    have hin : (i + 1) * size ≤ min (n * size) xs.length ↔ (i + 1) * size ≤ xs.length := by omega
    have hcut : size ≤ n * size - i * size := by rw [Nat.add_mul, Nat.one_mul] at hle; omega
    simp only [hin, if_pos hi, List.drop_take, List.take_take, Nat.min_eq_left hcut]
  · have hle : n * size ≤ i * size := Nat.mul_le_mul_right size (Nat.le_of_not_lt hi)
    have hout : ¬ (i + 1) * size ≤ min (n * size) xs.length := by
      rw [Nat.add_mul, Nat.one_mul]
      omega
    rw [if_neg hout, if_neg hi]

/-- Tokens added at the end leave the full blocks before them as they are. -/
theorem fullBlocks_append {size : Nat} (hs : 0 < size) (xs ys : List α) :
    (fullBlocks size (xs ++ ys)).take (xs.length / size) = fullBlocks size xs := by
  have hfit : xs.length / size * size ≤ xs.length := Nat.div_mul_le_self _ _
  have hall : (fullBlocks size xs).take (xs.length / size) = fullBlocks size xs :=
    List.take_of_length_le (Nat.le_of_eq (length_fullBlocks hs xs))
  rw [← hall, ← fullBlocks_take hs, ← fullBlocks_take hs, List.take_append_of_le_length hfit]

/-- A block added behind full blocks. -/
theorem fullBlocks_concat {size : Nat} (hs : 0 < size) {xs ys : List α} (hxs : size ∣ xs.length)
    (hys : ys.length = size) : fullBlocks size (xs ++ ys) = fullBlocks size xs ++ [ys] := by
  fun_induction fullBlocks size xs with
  | case1 xs h ih =>
    have hfull : 0 < size ∧ size ≤ (xs ++ ys).length := ⟨hs, by rw [List.length_append]; omega⟩
    have hrest : size ∣ (xs.drop size).length := by
      rw [List.length_drop]
      exact Nat.dvd_sub hxs (Nat.dvd_refl size)
    rw [fullBlocks, dif_pos hfull, List.take_append_of_le_length h.2,
      List.drop_append_of_le_length h.2, ih hrest, List.cons_append]
  | case2 xs h =>
    -- less than a block is nothing
    have hnil : xs = [] :=
      List.eq_nil_of_length_eq_zero (Nat.eq_zero_of_dvd_of_lt hxs (by omega))
    have hrest : fullBlocks size (ys.drop size) = [] := by
      rw [fullBlocks, dif_neg (by rw [List.length_drop]; omega)]
    rw [hnil, List.nil_append, fullBlocks, dif_pos ⟨hs, Nat.le_of_eq hys.symm⟩, hrest,
      List.take_of_length_le (Nat.le_of_eq hys)]
    rfl

/-! ### Names by position -/

variable {hash : ChainHash} {parent : Option UInt64} {blocks : List (List UInt32)}

@[simp] theorem length_chainHashes : (chainHashes hash parent blocks).length = blocks.length := by
  induction blocks generalizing parent with
  | nil => rfl
  | cons b rest ih => exact congrArg Nat.succ ih

theorem chainHashes_take (n : Nat) :
    chainHashes hash parent (blocks.take n) = (chainHashes hash parent blocks).take n := by
  induction blocks generalizing parent n with
  | nil => rw [List.take_nil, chainHashes, List.take_nil]
  | cons b rest ih =>
    cases n with
    | zero => rfl
    | succ n =>
      show hash parent b :: chainHashes hash (some (hash parent b)) (rest.take n) = _
      rw [ih]
      rfl

/-- The block after a chain is named after its last block. -/
theorem chainHashes_concat (tokens : List UInt32) :
    chainHashes hash parent (blocks ++ [tokens]) = chainHashes hash parent blocks ++
      [hash ((chainHashes hash parent blocks).getLast?.or parent) tokens] := by
  induction blocks generalizing parent with
  | nil => rfl
  | cons b rest ih =>
    have hlast : (chainHashes hash parent (b :: rest)).getLast?
        = some ((chainHashes hash (some (hash parent b)) rest).getLast?.getD (hash parent b)) :=
      List.getLast?_cons
    show hash parent b :: chainHashes hash (some (hash parent b)) (rest ++ [tokens]) = _
    rw [ih, Option.or_some, hlast]
    rfl

/-- A position that is named keeps its name when tokens are added at the end. -/
theorem chainHashes_append {size : Nat} (hs : 0 < size) {xs : List UInt32} (ys : List UInt32)
    {i : Nat} {k : UInt64} (h : (chainHashes hash parent (fullBlocks size xs))[i]? = some k) :
    (chainHashes hash parent (fullBlocks size (xs ++ ys)))[i]? = some k := by
  rw [← fullBlocks_append hs xs ys, chainHashes_take, List.getElem?_take] at h
  split at h
  · exact h
  · simp at h

/-- The names of the first `n` blocks are names of the whole list. -/
theorem chainHashes_of_take {size : Nat} (hs : 0 < size) {xs : List UInt32} {n i : Nat} {k : UInt64}
    (h : (chainHashes hash parent (fullBlocks size (xs.take (n * size))))[i]? = some k) :
    (chainHashes hash parent (fullBlocks size xs))[i]? = some k := by
  rw [fullBlocks_take hs, chainHashes_take, List.getElem?_take] at h
  split at h
  · exact h
  · simp at h

end PagedServe
