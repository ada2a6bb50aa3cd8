/-
PagedServe/Proofs/Refinement.lean

The cache is the map of prefixes.

`Stands` relates the two.  The index of the cache lists the chained hashes of the prefixes
of the map, in its order; under each hash the cache holds the block of the prefix, and of
its tokens the last block alone.  Neither the ticks nor the order of the entries are
visible in it.

The relation needs that hashes tell the prefixes apart which the calls pass (`Apart`),
and then every operation on entries keeps it: to refresh one is to renew its prefix
(`Stands.touch`), to add one is to renew an absent prefix (`Stands.add`), to give one up
is to remove its prefix (`Stands.remove`).  A prefix may well be absent while longer ones
are present, and whether it is put back is nothing to them.  Walks down a chain follow by
induction, one block of tokens after another.

Main statement: a cache answers every sequence of calls as the map does
(`answers_as_map`).
-/
import PagedServe.Proofs.PrefixMap

namespace PagedServe

namespace PrefixCache

open PrefixMap

variable {hash : ChainHash} {size : Nat}

/-! ### Calls to the cache -/

/-- The answer to a call. -/
def answer (c : PrefixCache) : Call → Except Failure (Answer × PrefixCache)
  | .matchPrefix tokens => do
    let (blocks, c') ← c.matchPrefix tokens
    return (.blocks blocks, c')
  | .insert tokens ids => do
    let (blocks, c') ← c.insert tokens ids
    return (.blocks blocks, c')
  | .popLru evictable => do
    match ← c.popLru evictable with
    | none => return (.given none, c)
    | some (b, c') => return (.given (some b), c')
  | .clear order => return (.all (c.clear order).1, (c.clear order).2)

/-- The answers to a list of calls, and the cache after them. -/
def answers (c : PrefixCache) : List Call → Except Failure (List Answer × PrefixCache)
  | [] => return ([], c)
  | call :: calls => do
    let (a, c) ← c.answer call
    let (rest, c) ← c.answers calls
    return (a :: rest, c)

/-- The prefixes of full blocks that the calls pass. -/
def passed (size : Nat) (calls : List Call) : List (List UInt32) :=
  calls.flatMap fun call => prefixes size call.tokens

/-! ### What a cache stands for -/

/-- The last block of a prefix. -/
def lastBlock (size : Nat) (p : List UInt32) : List UInt32 := p.drop (p.length - size)

/-- A cache stands for a map: its index lists the names of the same prefixes in the same
order, and under each name it holds the block of the prefix and its last tokens. -/
structure Stands (hash : ChainHash) (size : Nat) (known : List (List UInt32)) (c : PrefixCache)
    (m : PrefixMap) : Prop where
  hashing : c.hash = hash
  blockSize : c.blockSize = size
  indexed : c.Indexed
  keys : (m.map Prod.fst).Nodup
  among : ∀ x ∈ m, x.1 ∈ known
  order : (c.recency.map fun l => some l.2) = m.map fun x => prefixHash hash size x.1
  held : (c.content.map fun x => (some x.1, x.2)).Perm
    (m.map fun x => (prefixHash hash size x.1, x.2, lastBlock size x.1))

/-- No two of these prefixes have one name. -/
def Apart (hash : ChainHash) (size : Nat) (known : List (List UInt32)) : Prop :=
  ∀ p ∈ known, ∀ q ∈ known, prefixHash hash size p = prefixHash hash size q → p = q

instance (hash : ChainHash) (size : Nat) (known : List (List UInt32)) :
    Decidable (Apart hash size known) := by unfold Apart; infer_instance

variable {known : List (List UInt32)} {c : PrefixCache} {m : PrefixMap} {p : List UInt32}
  {h : UInt64} {b : Nat}

theorem stands_new : Stands hash size known (new size hash) [] where
  hashing := rfl
  blockSize := rfl
  indexed := indexed_new size hash
  keys := List.nodup_nil
  among := fun _ hx => absurd hx List.not_mem_nil
  order := rfl
  held := List.Perm.nil

/-- To use nothing changes nothing. -/
theorem Stands.renew_nil (st : Stands hash size known c m) :
    Stands hash size known c (m.renew []) := by
  rwa [PrefixMap.renew_nil]

theorem Stands.mem_content (st : Stands hash size known c m) {t : List UInt32} :
    (h, b, t) ∈ c.content ↔
      ∃ q, (q, b) ∈ m ∧ prefixHash hash size q = some h ∧ lastBlock size q = t := by
  have hmem := st.held.mem_iff (a := (some h, b, t))
  simp only [List.mem_map, Prod.mk.injEq, Prod.exists, Option.some.injEq] at hmem
  constructor
  · intro hx
    obtain ⟨q, b', hq, hname, rfl, ht⟩ := hmem.mp ⟨h, b, t, hx, rfl, rfl, rfl⟩
    exact ⟨q, hq, hname, ht⟩
  · rintro ⟨q, hq, hname, ht⟩
    obtain ⟨_, _, _, hx, rfl, rfl, rfl⟩ := hmem.mpr ⟨q, b, hq, hname, rfl, ht⟩
    exact hx

/-- A prefix that is present has its entry. -/
theorem Stands.entry_of_mem (st : Stands hash size known c m) (hp : (p, b) ∈ m)
    (hname : prefixHash hash size p = some h) :
    ∃ e, c.entry? h = some e ∧ e.block = b ∧ e.tokens = lastBlock size p := by
  obtain ⟨e, he, hb, ht⟩ := PrefixCache.mem_content.mp (st.mem_content.mpr ⟨p, hp, hname, rfl⟩)
  exact ⟨e, st.indexed.entry?_eq_some.mpr he, hb, ht⟩

/-- A known prefix that is absent has no entry: its name is not that of another one. -/
theorem Stands.entry_of_none (st : Stands hash size known c m) (hapart : Apart hash size known)
    (hp : p ∈ known) (hname : prefixHash hash size p = some h) (hnone : m.block? p = none) :
    c.entry? h = none := by
  rcases hf : c.entry? h with - | e
  · rfl
  · have hx := PrefixCache.mem_content.mpr ⟨e, mem_entries_of_lookup hf, rfl, rfl⟩
    obtain ⟨q, hq, hnameq, -⟩ := st.mem_content.mp hx
    have hqp : q = p := hapart q (st.among _ hq) p hp (hnameq.trans hname.symm)
    exact absurd (List.mem_map.mpr ⟨_, hq, hqp⟩) (block?_eq_none.mp hnone)

/-- Among known prefixes, the others are those of other names. -/
theorem Stands.filter_name (st : Stands hash size known c m) (hapart : Apart hash size known)
    (hp : p ∈ known) (hname : prefixHash hash size p = some h) :
    m.filter (fun x => prefixHash hash size x.1 ≠ some h) = m.filter fun x => x.1 ≠ p := by
  refine List.filter_congr fun x hx => ?_
  rw [decide_eq_decide, not_iff_not, ← hname]
  exact ⟨hapart x.1 (st.among x hx) p hp, fun he => he ▸ rfl⟩

/-- The index without a name. -/
theorem Stands.order_filter (st : Stands hash size known c m) (hapart : Apart hash size known)
    (hp : p ∈ known) (hname : prefixHash hash size p = some h) :
    ((c.recency.filter fun l => l.2 ≠ h).map fun l => some l.2)
      = (m.filter fun x => x.1 ≠ p).map fun x => prefixHash hash size x.1 := by
  have hleft : (c.recency.filter fun l => l.2 ≠ h).map (fun l => some l.2)
      = (c.recency.map fun l => some l.2).filter fun k => k ≠ some h := by
    rw [List.filter_map]
    simp [Function.comp_def]
  rw [hleft, st.order, List.filter_map, ← st.filter_name hapart hp hname]
  rfl

theorem Stands.touch (st : Stands hash size known c m) (hapart : Apart hash size known)
    (hp : p ∈ known) (hname : prefixHash hash size p = some h) (hb : m.block? p = some b)
    (b' : Nat) : Stands hash size known (c.touch h) (m.renew [(p, b')]) := by
  have hperm := renew_perm st.keys hb b'
  obtain ⟨e, he, -, -⟩ := st.entry_of_mem (mem_of_block? hb) hname
  have hline : (e.lastUsed, h) ∈ c.recency :=
    (st.indexed.lines _ _).mpr ⟨e, mem_entries_of_lookup he, rfl⟩
  refine ⟨(touch_hash c h).trans st.hashing, (touch_blockSize c h).trans st.blockSize,
    st.indexed.touch h, ?_, ?_, ?_, ?_⟩
  · exact (hperm.map _).nodup_iff.mpr st.keys
  · exact fun x hx => st.among x (hperm.mem_iff.mp hx)
  · -- the line leaves its place by its tick, the prefix by its name
    rw [touch_eq he, renew_singleton, List.map_append, List.map_append,
      ← st.order_filter hapart hp hname, ← st.indexed.recency_filter hline, List.map_singleton,
      List.map_singleton, hname]
  · rw [content_touch]
    exact st.held.trans (hperm.map _).symm

theorem Stands.add (st : Stands hash size known c m) (hapart : Apart hash size known)
    (hp : p ∈ known) (hname : prefixHash hash size p = some h) (hnone : m.block? p = none)
    (b : Nat) : Stands hash size known (c.add h (lastBlock size p) b) (m.renew [(p, b)]) := by
  rw [renew_of_none hnone]
  refine ⟨st.hashing, st.blockSize, st.indexed.add (st.entry_of_none hapart hp hname hnone) _ b,
    ?_, ?_, ?_, ?_⟩
  · -- the new prefix is not in the map yet
    rw [List.map_append]
    refine List.Nodup.append st.keys (List.nodup_singleton p) ?_
    exact List.disjoint_singleton.mpr (block?_eq_none.mp hnone)
  · intro x hx
    rcases List.mem_append.mp hx with hx | hx
    · exact st.among x hx
    · exact List.mem_singleton.mp hx ▸ hp
  · show (c.recency ++ [(c.tick + 1, h)]).map _ = _
    rw [List.map_append, List.map_append, st.order, List.map_singleton, List.map_singleton, hname]
  · rw [content_add, List.map_append, List.map_append, List.map_singleton, List.map_singleton,
      hname]
    exact st.held.append_right _

theorem Stands.remove (st : Stands hash size known c m) (hapart : Apart hash size known) {t : Nat}
    (hline : (t, h) ∈ c.recency) (hmem : (p, b) ∈ m) (hname : prefixHash hash size p = some h) :
    Stands hash size known (c.remove t h) (m.erase (p, b)) := by
  have hp : p ∈ known := st.among _ hmem
  have hsub : (m.erase (p, b)).Sublist m := List.erase_sublist
  refine ⟨st.hashing, st.blockSize, st.indexed.remove hline, st.keys.sublist (hsub.map _),
    fun x hx => st.among x (hsub.subset hx), ?_, ?_⟩
  · rw [erase_eq_filter st.keys hmem, ← st.order_filter hapart hp hname,
      ← st.indexed.recency_filter hline]
    rfl
  · have hheld := st.held.filter fun x => x.1 ≠ some h
    rw [List.filter_map, List.filter_map] at hheld
    rw [content_remove, erase_eq_filter st.keys hmem, ← st.filter_name hapart hp hname]
    simpa [Function.comp_def] using hheld

/-- From any line on, the search of the index is the search of the rest of the map. -/
theorem Stands.oldest (st : Stands hash size known c m) (evictable : Nat → Bool)
    {l : List (Nat × UInt64)} {rest : PrefixMap} (hsub : rest ⊆ m)
    (horder : (l.map fun l => some l.2) = rest.map fun x => prefixHash hash size x.1) :
    (rest.find? (fun x => evictable x.2) = none ∧ c.oldest evictable l = .ok none) ∨
      ∃ x t h, rest.find? (fun x => evictable x.2) = some x ∧ (t, h) ∈ l ∧
        prefixHash hash size x.1 = some h ∧ c.oldest evictable l = .ok (some (t, h, x.2)) := by
  induction rest generalizing l with
  | nil =>
    rw [List.map_eq_nil_iff.mp horder]
    exact Or.inl ⟨rfl, rfl⟩
  | cons x rest ih =>
    cases l with
    | nil => exact absurd horder (by simp)
    | cons line l =>
      obtain ⟨t, h⟩ := line
      -- the line has its entry, so the search does not fault here
      obtain ⟨hname, horder⟩ := List.cons.inj horder
      obtain ⟨e, he, hb, -⟩ := st.entry_of_mem (hsub List.mem_cons_self) hname.symm
      simp only [PrefixCache.oldest, he, hb, List.find?_cons]
      cases hx : evictable x.2 with
      | true => exact Or.inr ⟨x, t, h, rfl, List.mem_cons_self, hname.symm, rfl⟩
      | false =>
        rcases ih (fun y hy => hsub (List.mem_cons_of_mem x hy)) horder with hnone | hsome
        · exact Or.inl hnone
        · obtain ⟨y, t', h', hy, hl, hfound⟩ := hsome
          exact Or.inr ⟨y, t', h', hy, List.mem_cons_of_mem _ hl, hfound⟩

/-! ### Walks -/

/-- The blocks that a walk still has to come by, behind the tokens of those it has come
by. -/
structure Walk (size : Nat) (known : List (List UInt32)) (pre : List UInt32)
    (chain : List (List UInt32)) : Prop where
  fits : size ∣ pre.length
  full : ∀ t ∈ chain, t.length = size
  among : ∀ p ∈ along pre chain, p ∈ known

variable {pre t : List UInt32} {chain : List (List UInt32)}

theorem Walk.mem (w : Walk size known pre (t :: chain)) : pre ++ t ∈ known :=
  w.among _ List.mem_cons_self

theorem Walk.name (w : Walk size known pre (t :: chain)) (hash : ChainHash) (hs : 0 < size) :
    prefixHash hash size (pre ++ t) = some (hash (prefixHash hash size pre) t) :=
  prefixHash_append hs w.fits (w.full t List.mem_cons_self)

theorem Walk.lastBlock_eq (w : Walk size known pre (t :: chain)) :
    lastBlock size (pre ++ t) = t := by
  rw [lastBlock, List.length_append, w.full t List.mem_cons_self, Nat.add_sub_cancel,
    List.drop_left]

theorem Walk.rest (w : Walk size known pre (t :: chain)) : Walk size known (pre ++ t) chain where
  fits := by
    rw [List.length_append, w.full t List.mem_cons_self]
    exact Nat.dvd_add w.fits (Nat.dvd_refl size)
  full := fun t' ht => w.full t' (List.mem_cons_of_mem t ht)
  among := fun p hp => w.among p (List.mem_cons_of_mem _ hp)

/-- A walk does not come back to a prefix. -/
theorem Walk.not_mem (w : Walk size known pre (t :: chain)) (hs : 0 < size) :
    pre ++ t ∉ along (pre ++ t) chain :=
  not_mem_along hs w.rest.full (Nat.le_refl _)

/-- The walk along the blocks of some tokens. -/
theorem walk_fullBlocks (hs : 0 < size) {tokens : List UInt32}
    (hknown : ∀ p ∈ prefixes size tokens, p ∈ known) :
    Walk size known [] (fullBlocks size tokens) where
  fits := Nat.dvd_zero size
  full := fun _ ht => length_of_mem_fullBlocks ht
  among := by rwa [← prefixes_eq_along hs]

theorem Walk.take (w : Walk size known pre chain) (n : Nat) :
    Walk size known pre (chain.take n) where
  fits := w.fits
  full := fun t ht => w.full t (List.mem_of_mem_take ht)
  among := by
    rw [along_take]
    exact fun p hp => w.among p (List.mem_of_mem_take hp)

/-- A lookup walks through the map, prefix after prefix. -/
theorem Stands.matchChain (hs : 0 < size) (hapart : Apart hash size known)
    (st : Stands hash size known c m) (w : Walk size known pre chain) :
    (c.matchChain (prefixHash hash size pre) chain).1 = (m.run (along pre chain)).map Prod.snd ∧
      Stands hash size known (c.matchChain (prefixHash hash size pre) chain).2
        (m.renew (m.run (along pre chain))) := by
  induction chain generalizing c m pre with
  | nil => exact ⟨rfl, st.renew_nil⟩
  | cons t chain ih =>
    have hname := w.name hash hs
    rw [matchChain_cons, along, st.hashing]
    rcases hb : m.block? (pre ++ t) with - | b
    · -- the prefix is absent, and the walk ends
      have hnone := st.entry_of_none hapart w.mem hname hb
      rw [PrefixCache.find?, hnone, run_cons_of_none hb]
      exact ⟨rfl, st.renew_nil⟩
    · obtain ⟨e, he, rfl, ht⟩ := st.entry_of_mem (mem_of_block? hb) hname
      rw [w.lastBlock_eq] at ht
      have hfind : c.find? (hash (prefixHash hash size pre) t) t = some e := by
        rw [PrefixCache.find?, he, Option.filter_some, if_pos (decide_eq_true ht)]
      obtain ⟨hblocks, hst⟩ := ih (st.touch hapart w.mem hname hb e.block) w.rest
      rw [hname] at hblocks hst
      rw [hfind, run_cons_of_some hb (w.not_mem hs),
        renew_cons fun h => w.not_mem hs (mem_of_mem_run h)]
      exact ⟨congrArg (List.cons e.block) hblocks, hst⟩

/-- A commit puts prefixes into the map, one after another. -/
theorem Stands.insertChain (hs : 0 < size) (hapart : Apart hash size known)
    (st : Stands hash size known c m) (w : Walk size known pre chain) (ids : List Nat) :
    (c.insertChain (prefixHash hash size pre) (chain.zip ids)).1
        = m.missing ((along pre chain).zip ids) ∧
      Stands hash size known (c.insertChain (prefixHash hash size pre) (chain.zip ids)).2
        (m.renew ((along pre chain).zip ids)) := by
  induction chain generalizing c m pre ids with
  | nil => exact ⟨rfl, st.renew_nil⟩
  | cons t chain ih =>
    rcases ids with - | ⟨b, ids⟩
    · exact ⟨rfl, st.renew_nil⟩
    have hname := w.name hash hs
    have hlater : pre ++ t ∉ ((along (pre ++ t) chain).zip ids).map Prod.fst := by
      intro hmem
      obtain ⟨x, hx, he⟩ := List.mem_map.mp hmem
      exact w.not_mem hs (he ▸ (List.of_mem_zip hx).1)
    rw [List.zip_cons_cons, insertChain_cons, along, List.zip_cons_cons, renew_cons hlater,
      st.hashing]
    -- no other tokens can be under the name, so the commit goes on either way
    rcases hb : m.block? (pre ++ t) with - | b'
    · have hst := st.add hapart w.mem hname hb b
      rw [w.lastBlock_eq] at hst
      obtain ⟨hblocks, hst⟩ := ih hst w.rest ids
      rw [hname, missing_renew hlater] at hblocks
      rw [hname] at hst
      rw [st.entry_of_none hapart w.mem hname hb, missing_cons_of_none hb]
      exact ⟨congrArg (List.cons b) hblocks, hst⟩
    · -- the prefix keeps the block that it has
      obtain ⟨e, he, -, ht⟩ := st.entry_of_mem (mem_of_block? hb) hname
      rw [w.lastBlock_eq] at ht
      obtain ⟨hblocks, hst⟩ :=
        ih (st.touch hapart w.mem hname hb b) w.rest ids
      rw [hname, missing_renew hlater] at hblocks
      rw [hname] at hst
      simp only [he, ht, if_true, missing_cons_of_some hb]
      exact ⟨hblocks, hst⟩

/-! ### Answers -/

theorem Stands.matchPrefix (hs : 0 < size) (hapart : Apart hash size known)
    (st : Stands hash size known c m) (tokens : List UInt32)
    (hknown : ∀ p ∈ prefixes size tokens, p ∈ known) :
    ∃ c', c.matchPrefix tokens = .ok ((m.matchPrefix size tokens).1, c') ∧
      Stands hash size known c' (m.matchPrefix size tokens).2 := by
  have w := (walk_fullBlocks hs hknown).take ((tokens.length - 1) / size)
  obtain ⟨hblocks, hst⟩ := st.matchChain hs hapart w
  rw [prefixHash_nil hs, along_take, ← prefixes_eq_along hs] at hblocks hst
  refine ⟨_, ?_, hst⟩
  rw [PrefixCache.matchPrefix, if_neg (st.blockSize ▸ Nat.ne_of_gt hs), matchable, st.blockSize]
  exact congrArg Except.ok (Prod.ext hblocks rfl)

theorem Stands.insert (hs : 0 < size) (hapart : Apart hash size known)
    (st : Stands hash size known c m) (tokens : List UInt32)
    (hknown : ∀ p ∈ prefixes size tokens, p ∈ known) (ids : List Nat) :
    ∃ c', c.insert tokens ids = .ok ((m.insert size tokens ids).1, c') ∧
      Stands hash size known c' (m.insert size tokens ids).2 := by
  obtain ⟨hblocks, hst⟩ := st.insertChain hs hapart (walk_fullBlocks hs hknown) ids
  rw [prefixHash_nil hs, ← prefixes_eq_along hs] at hblocks hst
  refine ⟨_, ?_, hst⟩
  rw [insert_eq_ok (st.blockSize ▸ Nat.ne_of_gt hs), st.blockSize]
  exact congrArg Except.ok (Prod.ext hblocks rfl)

theorem Stands.popLru (hapart : Apart hash size known) (st : Stands hash size known c m)
    (evictable : Nat → Bool) :
    ∃ c', c.answer (.popLru evictable) = .ok (.given (m.popLru evictable).1, c') ∧
      Stands hash size known c' (m.popLru evictable).2 := by
  rcases st.oldest evictable (List.Subset.refl m) st.order with hnone | hsome
  · obtain ⟨hfind, hold⟩ := hnone
    refine ⟨c, ?_, ?_⟩
    · rw [answer, PrefixCache.popLru, hold, PrefixMap.popLru, hfind]
      rfl
    · rwa [PrefixMap.popLru, hfind]
  · obtain ⟨⟨p, b⟩, t, h, hfind, hline, hname, hold⟩ := hsome
    refine ⟨c.remove t h, ?_, ?_⟩
    · rw [answer, PrefixCache.popLru, hold, PrefixMap.popLru, hfind]
      rfl
    · rw [PrefixMap.popLru, hfind]
      exact st.remove hapart hline (List.mem_of_find?_eq_some hfind) hname

theorem Stands.clear (st : Stands hash size known c m) (order : List Nat) :
    ((c.clear order).1 : Multiset Nat) = m.clear.1 ∧
      Stands hash size known (c.clear order).2 m.clear.2 := by
  refine ⟨?_, st.hashing, st.blockSize, Indexed.clear c order, List.nodup_nil,
    fun _ hx => absurd hx List.not_mem_nil, rfl, List.Perm.nil⟩
  -- entries come in the order asked for, prefixes in that of their use
  have hblocks := st.held.map fun x => x.2.1
  rw [List.map_map, List.map_map] at hblocks
  refine Quotient.sound ((drained_perm c order).trans ?_)
  rw [blocks_eq_content]
  exact hblocks

/-- A call is answered as the map answers it. -/
theorem Stands.answer (hs : 0 < size) (hapart : Apart hash size known)
    (st : Stands hash size known c m) {call : Call}
    (hknown : ∀ p ∈ prefixes size call.tokens, p ∈ known) :
    ∃ c', c.answer call = .ok ((m.answer size call).1, c') ∧
      Stands hash size known c' (m.answer size call).2 := by
  cases call with
  | matchPrefix tokens =>
    obtain ⟨c', heq, hst⟩ := st.matchPrefix hs hapart tokens hknown
    refine ⟨c', ?_, hst⟩
    rw [PrefixCache.answer, heq]
    rfl
  | insert tokens ids =>
    obtain ⟨c', heq, hst⟩ := st.insert hs hapart tokens hknown ids
    refine ⟨c', ?_, hst⟩
    rw [PrefixCache.answer, heq]
    rfl
  | popLru evictable => exact st.popLru hapart evictable
  | clear order =>
    obtain ⟨hall, hst⟩ := st.clear order
    refine ⟨(c.clear order).2, ?_, hst⟩
    rw [PrefixCache.answer, hall]
    rfl

theorem Stands.answers (hs : 0 < size) (hapart : Apart hash size known)
    (st : Stands hash size known c m) (calls : List Call)
    (hknown : ∀ p ∈ passed size calls, p ∈ known) :
    ∃ c', c.answers calls = .ok ((m.answers size calls).1, c') ∧
      Stands hash size known c' (m.answers size calls).2 := by
  induction calls generalizing c m with
  | nil => exact ⟨c, rfl, st⟩
  | cons call calls ih =>
    rw [passed, List.flatMap_cons] at hknown
    obtain ⟨c₁, heq₁, st₁⟩ := st.answer hs hapart fun p hp => hknown p (List.mem_append_left _ hp)
    obtain ⟨c₂, heq₂, st₂⟩ := ih st₁ fun p hp => hknown p (List.mem_append_right _ hp)
    refine ⟨c₂, ?_, st₂⟩
    rw [PrefixCache.answers, heq₁]
    show (PrefixCache.answers c₁ calls >>= fun r => _) = _
    rw [heq₂]
    rfl

/-- A cache that starts empty answers every sequence of calls as the map does, as long as
no two of the prefixes passed have one name. -/
theorem answers_as_map (hash : ChainHash) (hs : 1 ≤ size) (calls : List Call)
    (hapart : Apart hash size (passed size calls)) :
    (∃ c, (new size hash).answers calls = .ok ((PrefixMap.answers size [] calls).1, c)) ∧
      ((PrefixMap.answers size [] calls).2.map Prod.fst).Nodup ∧
      ∀ x ∈ (PrefixMap.answers size [] calls).2, ∃ k, 1 ≤ k ∧ x.1.length = k * size := by
  obtain ⟨c, heq, st⟩ := stands_new.answers hs hapart calls fun p hp => hp
  refine ⟨⟨c, heq⟩, st.keys, fun x hx => ?_⟩
  obtain ⟨call, -, hmem⟩ := List.mem_flatMap.mp (st.among x hx)
  exact length_of_mem_prefixes hmem

/-- The parent of a cached prefix is given up and put back with another block. -/
def orphaning : List Call :=
  [.insert [1, 2, 3, 4, 5] [1, 2], .popLru (· = 1), .matchPrefix [1, 2, 3, 4, 5],
    .insert [1, 2, 3, 4] [7, 8], .matchPrefix [1, 2, 3, 4, 5], .popLru fun _ => true, .clear []]

/-- The prefix above keeps its block meanwhile, and is found again. -/
theorem answers_as_map_orphaned :
    Apart chainHash 2 (passed 2 orphaning) ∧
      ∃ c, (new 2 chainHash).answers orphaning = .ok ([.blocks [1, 2], .given (some 1), .blocks [],
        .blocks [7], .blocks [7, 2], .given (some 7), .all {2}], c) := by
  have hapart : Apart chainHash 2 (passed 2 orphaning) := by decide +kernel
  have hgiven : (PrefixMap.answers 2 [] orphaning).1 = [.blocks [1, 2], .given (some 1),
      .blocks [], .blocks [7], .blocks [7, 2], .given (some 7), .all {2}] := by decide +kernel
  rw [← hgiven]
  exact ⟨hapart, (answers_as_map chainHash (by decide) orphaning hapart).1⟩

end PrefixCache

end PagedServe
