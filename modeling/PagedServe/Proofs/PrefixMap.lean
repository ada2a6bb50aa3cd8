/-
PagedServe/Proofs/PrefixMap.lean

The map from token prefixes to blocks that the cache is meant to be.

A `PrefixMap` lists prefixes of full blocks, each with its block, from the least to the
most recently used.  It knows no hashes, ticks or chains: a match is the longest run of
the prefixes of `size`, `2 * size`, ... tokens that are present, and what is looked up or
put in moves to the end of the list together (`renew`).

The cache walks down a chain and does one block at a time.  So the map is shown to do the
same: `renew`, `run` and `missing` of a list are those of its first prefix and then of the
others (`renew_cons`, `run_cons_of_some`, `missing_renew`), since the prefixes of a chain
differ in length (`not_mem_along`) and renewing one leaves the blocks of the others
(`block?_renew_of_ne`).
-/
import PagedServe.Proofs.PrefixCache
import Mathlib.Data.Multiset.MapFold

namespace PagedServe

/-! ### Prefixes of full blocks -/

/-- The prefixes of `size`, `2 * size`, ... tokens that a token list has. -/
def prefixes (size : Nat) (tokens : List UInt32) : List (List UInt32) :=
  (List.range (tokens.length / size)).map fun k => tokens.take ((k + 1) * size)

/-- The chained hash of a prefix: that of its last block, after all the others. -/
def prefixHash (hash : ChainHash) (size : Nat) (p : List UInt32) : Option UInt64 :=
  (chainHashes hash none (fullBlocks size p)).getLast?

/-- The prefixes that end with each of some blocks, which come one after another behind
these tokens. -/
def along (pre : List UInt32) : List (List UInt32) → List (List UInt32)
  | [] => []
  | t :: rest => (pre ++ t) :: along (pre ++ t) rest

variable {hash : ChainHash} {size : Nat}

theorem along_fullBlocks (hs : 0 < size) (pre xs : List UInt32) :
    along pre (fullBlocks size xs)
      = (List.range (xs.length / size)).map fun k => pre ++ xs.take ((k + 1) * size) := by
  fun_induction fullBlocks size xs generalizing pre with
  | case1 xs h ih =>
    have hlength : xs.length / size = (xs.drop size).length / size + 1 := by
      rw [Nat.div_eq xs.length size, if_pos h, List.length_drop]
    -- the first block is the first prefix, and begins all the others
    rw [along, ih, hlength, List.range_succ_eq_map, List.map_cons, List.map_map, Nat.zero_add,
      Nat.one_mul]
    refine congrArg (List.cons _) (List.map_congr_left fun k _ => ?_)
    have hcut : (k + 1 + 1) * size = size + (k + 1) * size := by
      rw [Nat.add_mul (k + 1) 1, Nat.one_mul, Nat.add_comm]
    show (pre ++ xs.take size) ++ (xs.drop size).take ((k + 1) * size)
      = pre ++ xs.take ((k + 1 + 1) * size)
    rw [hcut, List.take_add, List.append_assoc]
  | case2 xs h =>
    have hlt : xs.length < size := by omega
    rw [Nat.div_eq_of_lt hlt]
    rfl

theorem prefixes_eq_along (hs : 0 < size) (tokens : List UInt32) :
    prefixes size tokens = along [] (fullBlocks size tokens) := (along_fullBlocks hs [] tokens).symm

theorem along_take (pre : List UInt32) (chunks : List (List UInt32)) (n : Nat) :
    along pre (chunks.take n) = (along pre chunks).take n := by
  induction chunks generalizing pre n with
  | nil => rw [List.take_nil, along, List.take_nil]
  | cons t rest ih =>
    cases n with
    | zero => rfl
    | succ n => exact congrArg (List.cons _) (ih (pre ++ t) n)

/-- A prefix is shorter than those that come after it. -/
theorem not_mem_along (hs : 0 < size) {p : List UInt32} {chunks : List (List UInt32)}
    (hchunks : ∀ t ∈ chunks, t.length = size) {pre : List UInt32} (hle : p.length ≤ pre.length) :
    p ∉ along pre chunks := by
  induction chunks generalizing pre with
  | nil => exact List.not_mem_nil
  | cons t rest ih =>
    have ht := hchunks t List.mem_cons_self
    have hlength : (pre ++ t).length = pre.length + size := by rw [List.length_append, ht]
    rintro hmem
    rcases List.mem_cons.mp hmem with rfl | hmem
    · omega
    · exact ih (fun t ht => hchunks t (List.mem_cons_of_mem _ ht)) (by omega) hmem

/-- A prefix is one or more blocks long. -/
theorem length_of_mem_prefixes {tokens p : List UInt32} (hp : p ∈ prefixes size tokens) :
    ∃ k, 1 ≤ k ∧ p.length = k * size := by
  obtain ⟨k, hk, rfl⟩ := List.mem_map.mp hp
  refine ⟨k + 1, Nat.le_add_left 1 k, ?_⟩
  rw [List.length_take, Nat.min_eq_left]
  exact (Nat.mul_le_mul_right size (List.mem_range.mp hk)).trans (Nat.div_mul_le_self _ _)

/-! ### Names of prefixes -/

theorem prefixHash_nil (hs : 0 < size) : prefixHash hash size [] = none := by
  rw [prefixHash, fullBlocks, dif_neg]
  · rfl
  · rw [List.length_nil]
    omega

/-- The hash of a prefix with a block more. -/
theorem prefixHash_append (hs : 0 < size) {pre t : List UInt32} (hpre : size ∣ pre.length)
    (ht : t.length = size) :
    prefixHash hash size (pre ++ t) = some (hash (prefixHash hash size pre) t) := by
  rw [prefixHash, fullBlocks_concat hs hpre ht, chainHashes_concat, Option.or_none,
    List.getLast?_concat]
  rfl

/-! ### Calls -/

namespace PrefixCache

/-- A call to a cache. -/
inductive Call
  | matchPrefix (tokens : List UInt32)
  | insert (tokens : List UInt32) (ids : List Nat)
  | popLru (evictable : Nat → Bool)
  | clear (order : List Nat)

/-- The tokens that a call passes. -/
def Call.tokens : Call → List UInt32
  | .matchPrefix tokens => tokens
  | .insert tokens _ => tokens
  | .popLru _ => []
  | .clear _ => []

/-- What a call answers. -/
inductive Answer
  | blocks (blocks : List Nat)
  | given (block : Option Nat)
  /-- All blocks, in no particular order. -/
  | all (blocks : Multiset Nat)
  deriving DecidableEq

end PrefixCache

/-! ### The map -/

/-- A map from prefixes to blocks, least recently used first. -/
abbrev PrefixMap := List (List UInt32 × Nat)

namespace PrefixMap

open PrefixCache (Call Answer)

variable {m : PrefixMap} {p q : List UInt32} {b : Nat}

/-- The block of a prefix. -/
def block? (m : PrefixMap) (p : List UInt32) : Option Nat := m.lookup p

/-- Make prefixes the most recently used ones, in the order of the list.  One that is absent
is added with the block that the list gives; the others keep theirs. -/
def renew (m : PrefixMap) (xs : List (List UInt32 × Nat)) : PrefixMap :=
  m.filter (fun x => x.1 ∉ xs.map Prod.fst) ++ xs.map fun x => (x.1, (m.block? x.1).getD x.2)

/-- The longest run of prefixes that are present, with their blocks. -/
def run (m : PrefixMap) (ps : List (List UInt32)) : List (List UInt32 × Nat) :=
  (ps.takeWhile fun p => (m.block? p).isSome).filterMap fun p => (m.block? p).map fun b => (p, b)

/-- The blocks of the longest run of present prefixes that leave a token over. -/
def matchPrefix (m : PrefixMap) (size : Nat) (tokens : List UInt32) : List Nat × PrefixMap :=
  let found := m.run ((prefixes size tokens).take ((tokens.length - 1) / size))
  (found.map Prod.snd, m.renew found)

/-- The blocks offered for prefixes that are absent. -/
def missing (m : PrefixMap) (xs : List (List UInt32 × Nat)) : List Nat :=
  (xs.filter fun x => (m.block? x.1).isNone).map Prod.snd

/-- Put prefixes into the map, each with its block; the answer is the blocks added. -/
def insert (m : PrefixMap) (size : Nat) (tokens : List UInt32) (ids : List Nat) :
    List Nat × PrefixMap :=
  let walked := (prefixes size tokens).zip ids
  (m.missing walked, m.renew walked)

/-- Remove the least recently used prefix whose block passes the test. -/
def popLru (m : PrefixMap) (evictable : Nat → Bool) : Option Nat × PrefixMap :=
  match m.find? fun x => evictable x.2 with
  | none => (none, m)
  | some x => (some x.2, m.erase x)

/-- Remove everything. -/
def clear (m : PrefixMap) : Multiset Nat × PrefixMap := (m.map Prod.snd, [])

/-- The answer to a call. -/
def answer (size : Nat) (m : PrefixMap) : Call → Answer × PrefixMap
  | .matchPrefix tokens => (.blocks (m.matchPrefix size tokens).1, (m.matchPrefix size tokens).2)
  | .insert tokens ids => (.blocks (m.insert size tokens ids).1, (m.insert size tokens ids).2)
  | .popLru evictable => (.given (m.popLru evictable).1, (m.popLru evictable).2)
  | .clear _ => (.all m.clear.1, m.clear.2)

/-- The answers to a list of calls, and the map after them. -/
def answers (size : Nat) (m : PrefixMap) : List Call → List Answer × PrefixMap
  | [] => ([], m)
  | call :: calls =>
    let (a, m) := m.answer size call
    let (rest, m) := m.answers size calls
    (a :: rest, m)

/-! ### One prefix after another -/

theorem renew_nil (m : PrefixMap) : m.renew [] = m := by
  simp [renew]

theorem mem_of_block? (h : m.block? p = some b) : (p, b) ∈ m := mem_of_lookup_eq_some h

theorem block?_eq_none : m.block? p = none ↔ p ∉ m.map Prod.fst := lookup_eq_none_iff_not_mem

theorem renew_singleton (m : PrefixMap) (p : List UInt32) (b : Nat) :
    m.renew [(p, b)] = m.filter (fun x => x.1 ≠ p) ++ [(p, (m.block? p).getD b)] := by
  simp [renew]

/-- Other prefixes keep their blocks. -/
theorem block?_renew_of_ne (hq : q ≠ p) : (m.renew [(p, b)]).block? q = m.block? q := by
  have hfilter : (m.filter fun x => x.1 ≠ p).lookup q = m.lookup q := by
    induction m with
    | nil => rfl
    | cons x m ih =>
      by_cases hx : x.1 = p
      · have hqx : (q == x.1) = false := beq_eq_false_iff_ne.mpr (hx ▸ hq)
        rw [List.filter_cons_of_neg (by simp [hx]), ih, List.lookup_cons, hqx]
      · rw [List.filter_cons_of_pos (by simp [hx]), List.lookup_cons, List.lookup_cons, ih]
  have hlast : List.lookup q [(p, (m.block? p).getD b)] = none := by
    rw [List.lookup_cons, beq_eq_false_iff_ne.mpr hq]
    rfl
  rw [renew_singleton, block?, List.lookup_append, hfilter, hlast, Option.or_none]
  rfl

theorem block?_renew_of_mem {xs : List (List UInt32 × Nat)} {x : List UInt32 × Nat}
    (hp : p ∉ xs.map Prod.fst) (hx : x ∈ xs) : (m.renew [(p, b)]).block? x.1 = m.block? x.1 :=
  block?_renew_of_ne fun he => hp (he ▸ List.mem_map.mpr ⟨x, hx, rfl⟩)

/-- A list of prefixes is renewed one after another. -/
theorem renew_cons {xs : List (List UInt32 × Nat)} (hp : p ∉ xs.map Prod.fst) :
    m.renew ((p, b) :: xs) = (m.renew [(p, b)]).renew xs := by
  -- `p` is not among the others, so what they move to the end leaves it in place
  have hone : [(p, (m.block? p).getD b)].filter (fun x => x.1 ∉ xs.map Prod.fst)
      = [(p, (m.block? p).getD b)] := List.filter_cons_of_pos (decide_eq_true hp)
  have hkeep : (m.renew [(p, b)]).filter (fun x => x.1 ∉ xs.map Prod.fst)
      = m.filter (fun x => x.1 ∉ p :: xs.map Prod.fst) ++ [(p, (m.block? p).getD b)] := by
    rw [renew_singleton, List.filter_append, List.filter_filter, hone]
    refine congrArg₂ _ (List.filter_congr fun x _ => ?_) rfl
    rw [← Bool.decide_and, decide_eq_decide, List.mem_cons, not_or, and_comm]
  have hlast : (xs.map fun x => (x.1, ((m.renew [(p, b)]).block? x.1).getD x.2))
      = xs.map fun x => (x.1, (m.block? x.1).getD x.2) := by
    refine List.map_congr_left fun x hx => ?_
    rw [block?_renew_of_mem hp hx]
  rw [renew, renew, hkeep, hlast, List.append_assoc]
  rfl

theorem run_congr {m' : PrefixMap} {ps : List (List UInt32)}
    (h : ∀ q ∈ ps, m.block? q = m'.block? q) : m.run ps = m'.run ps := by
  induction ps with
  | nil => rfl
  | cons p ps ih =>
    have hp := h p List.mem_cons_self
    have hps := ih fun q hq => h q (List.mem_cons_of_mem p hq)
    rw [run, run] at hps ⊢
    rw [List.takeWhile_cons, List.takeWhile_cons, hp]
    split
    · rw [List.filterMap_cons, List.filterMap_cons, hp, hps]
    · rfl

theorem run_cons_of_none {ps : List (List UInt32)} (h : m.block? p = none) :
    m.run (p :: ps) = [] := by
  simp [run, h]

theorem run_cons_of_some {ps : List (List UInt32)} (h : m.block? p = some b) (hp : p ∉ ps) :
    m.run (p :: ps) = (p, b) :: (m.renew [(p, b)]).run ps := by
  have hps : (m.renew [(p, b)]).run ps = m.run ps := by
    refine run_congr fun q hq => block?_renew_of_ne ?_
    rintro rfl
    exact hp hq
  rw [hps]
  simp [run, h]

/-- A run is made of the prefixes asked for. -/
theorem mem_of_mem_run {ps : List (List UInt32)} (h : p ∈ (m.run ps).map Prod.fst) : p ∈ ps := by
  obtain ⟨x, hx, rfl⟩ := List.mem_map.mp h
  obtain ⟨q, hq, hb⟩ := List.mem_filterMap.mp hx
  obtain ⟨b, -, rfl⟩ := Option.map_eq_some_iff.mp hb
  exact List.takeWhile_subset _ hq

theorem missing_cons_of_none {xs : List (List UInt32 × Nat)} (h : m.block? p = none) :
    m.missing ((p, b) :: xs) = b :: m.missing xs := by
  simp [missing, h]

theorem missing_cons_of_some {xs : List (List UInt32 × Nat)} {b' : Nat} (h : m.block? p = some b') :
    m.missing ((p, b) :: xs) = m.missing xs := by
  simp [missing, h]

theorem missing_renew {xs : List (List UInt32 × Nat)} (hp : p ∉ xs.map Prod.fst) :
    (m.renew [(p, b)]).missing xs = m.missing xs := by
  refine congrArg (List.map Prod.snd) (List.filter_congr fun x hx => ?_)
  rw [block?_renew_of_mem hp hx]

/-! ### Maps that list a prefix once -/

theorem filter_ne_of_none (h : m.block? p = none) : m.filter (fun x => x.1 ≠ p) = m := by
  refine List.filter_eq_self.mpr fun x hx => decide_eq_true fun he => ?_
  exact block?_eq_none.mp h (List.mem_map.mpr ⟨x, hx, he⟩)

/-- Adding an absent prefix. -/
theorem renew_of_none (h : m.block? p = none) : m.renew [(p, b)] = m ++ [(p, b)] := by
  rw [renew_singleton, filter_ne_of_none h, h, Option.getD_none]

theorem erase_eq_filter (hm : (m.map Prod.fst).Nodup) {x : List UInt32 × Nat} (hx : x ∈ m) :
    m.erase x = m.filter fun y => y.1 ≠ x.1 := by
  rw [hm.of_map.erase_eq_filter]
  refine List.filter_congr fun y hy => ?_
  by_cases hyx : y.1 = x.1
  · have : y = x := List.inj_on_of_nodup_map hm hy hx hyx
    simp [this]
  · have : y ≠ x := fun he => hyx (congrArg Prod.fst he)
    simp [this, hyx]

/-- Renewing a prefix that is present only changes the order. -/
theorem renew_perm (hm : (m.map Prod.fst).Nodup) (h : m.block? p = some b) (b' : Nat) :
    (m.renew [(p, b')]).Perm m := by
  have hmem := mem_of_block? h
  rw [renew_singleton, h, Option.getD_some, ← erase_eq_filter hm hmem]
  exact (List.perm_append_singleton _ _).trans (List.perm_cons_erase hmem).symm

end PrefixMap

end PagedServe
