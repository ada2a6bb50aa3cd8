/-
PagedServe/Proofs/PrefixCache.lean

What the cache holds, and how its index of ticks agrees with it.

`content` forgets the times of use: it is the list of names, blocks and tokens.
Refreshing an entry leaves it as it is, committing a chain adds to its end
(`content_insertChain`) and giving an entry up removes one item from it.

`Indexed` says that the index lists each entry once, under the tick of its last
use, and that ticks grow along it.  Every operation keeps this.

Main statements: a match walks down entries that stand under the chained hashes
of its blocks and hold these very blocks (`matchChain_hit`); a commit adds
entries for the positions of its chain and for nothing else
(`content_insertChain`); under `Indexed` giving up the oldest entry never runs
into a line without entry, and it fails only if no block passes the test
(`Indexed.popLru`).
-/
import PagedServe.PrefixCache
import PagedServe.Proofs.Chains
import Mathlib.Data.List.Nodup
import Mathlib.Data.List.Pairwise

namespace PagedServe

/-! ### Lists of keys and values -/

section Lookup

variable {α β : Type} [BEq α] [LawfulBEq α] {l : List (α × β)} {key : α} {value : β}

theorem mem_of_lookup_eq_some (h : l.lookup key = some value) : (key, value) ∈ l := by
  obtain ⟨l₁, l₂, heq, -⟩ := List.lookup_eq_some_iff.mp h
  rw [heq]
  exact List.mem_append_right l₁ List.mem_cons_self

theorem lookup_eq_none_iff_not_mem : l.lookup key = none ↔ key ∉ l.map Prod.fst := by
  rw [List.lookup_eq_none_iff]
  simp only [List.mem_map, not_exists, not_and, bne_iff_ne, ne_eq]
  exact ⟨fun hn x hx he => hn x hx he.symm, fun hn x hx he => hn x hx he.symm⟩

/-- Where keys are distinct, what is found is what is there. -/
theorem lookup_eq_some_iff_mem (hd : (l.map Prod.fst).Nodup) :
    l.lookup key = some value ↔ (key, value) ∈ l := by
  constructor
  · exact mem_of_lookup_eq_some
  · intro hmem
    rcases hf : l.lookup key with - | value'
    · exact absurd (List.mem_map.mpr ⟨(key, value), hmem, rfl⟩)
        (lookup_eq_none_iff_not_mem.mp hf)
    · have heq := List.inj_on_of_nodup_map hd hmem (mem_of_lookup_eq_some hf) rfl
      rw [(Prod.mk.inj heq).2]

end Lookup

namespace PrefixCache

variable {c : PrefixCache} {h k : UInt64}

/-- What the cache holds: each name with its block and its tokens. -/
def content (c : PrefixCache) : List (UInt64 × Nat × List UInt32) :=
  c.entries.map fun (h, e) => (h, e.block, e.tokens)

theorem blocks_eq_content (c : PrefixCache) : c.blocks = c.content.map fun x => x.2.1 := by
  rw [content, List.map_map]
  rfl

theorem mem_content {b : Nat} {t : List UInt32} :
    (h, b, t) ∈ c.content ↔ ∃ e, (h, e) ∈ c.entries ∧ e.block = b ∧ e.tokens = t := by
  simp only [content, List.mem_map, Prod.mk.injEq, Prod.exists]
  constructor
  · rintro ⟨_, e, he, rfl, rfl, rfl⟩
    exact ⟨e, he, rfl, rfl⟩
  · rintro ⟨e, he, rfl, rfl⟩
    exact ⟨h, e, he, rfl, rfl, rfl⟩

theorem mem_blocks {b : Nat} : b ∈ c.blocks ↔ ∃ k t, (k, b, t) ∈ c.content := by
  simp only [blocks_eq_content, List.mem_map, Prod.exists]
  constructor
  · rintro ⟨k, _, t, hk, rfl⟩
    exact ⟨k, t, hk⟩
  · rintro ⟨k, t, hk⟩
    exact ⟨k, b, t, hk, rfl⟩

/-- An entry that is found is held. -/
theorem mem_entries_of_lookup {e : CacheEntry} (he : c.entry? h = some e) : (h, e) ∈ c.entries :=
  mem_of_lookup_eq_some he

theorem entry?_eq_none : c.entry? h = none ↔ h ∉ c.entries.map Prod.fst :=
  lookup_eq_none_iff_not_mem

/-! ### The index agrees with the entries -/

/-- The index lists each entry once, under the tick of its last use, and its
ticks grow up to the present one. -/
structure Indexed (c : PrefixCache) : Prop where
  keys : (c.entries.map Prod.fst).Nodup
  ticks : (c.recency.map Prod.fst).Pairwise (· < ·)
  bound : ∀ l ∈ c.recency, l.1 ≤ c.tick
  lines : ∀ t h, (t, h) ∈ c.recency ↔ ∃ e, (h, e) ∈ c.entries ∧ e.lastUsed = t

theorem indexed_new (blockSize : Nat) (hash : ChainHash) : (new blockSize hash).Indexed where
  keys := List.nodup_nil
  ticks := List.Pairwise.nil
  bound := fun _ hl => absurd hl List.not_mem_nil
  lines := by
    intro t h
    constructor
    · intro hl
      exact absurd hl List.not_mem_nil
    · rintro ⟨e, he, -⟩
      exact absurd he List.not_mem_nil

/-- There is one entry under a name. -/
theorem Indexed.entry_unique (hc : c.Indexed) {e e' : CacheEntry} (he : (h, e) ∈ c.entries)
    (he' : (h, e') ∈ c.entries) : e = e' := by
  have := List.inj_on_of_nodup_map hc.keys he he' rfl
  exact (Prod.mk.injEq h e h e' ▸ this).2

theorem Indexed.entry?_eq_some (hc : c.Indexed) {e : CacheEntry} :
    c.entry? h = some e ↔ (h, e) ∈ c.entries := lookup_eq_some_iff_mem hc.keys

theorem Indexed.nodup_ticks (hc : c.Indexed) : (c.recency.map Prod.fst).Nodup :=
  hc.ticks.imp fun hlt => Nat.ne_of_lt hlt

/-- Two lines of one tick are one line. -/
theorem Indexed.line_unique (hc : c.Indexed) {t : Nat} (hh : (t, h) ∈ c.recency)
    (hk : (t, k) ∈ c.recency) : h = k := by
  have := List.inj_on_of_nodup_map hc.nodup_ticks hh hk rfl
  exact (Prod.mk.injEq t h t k ▸ this).2

/-- The lines of one tick are the lines of one name. -/
theorem Indexed.recency_filter (hc : c.Indexed) {t : Nat} (hl : (t, h) ∈ c.recency) :
    c.recency.filter (fun l => l.1 ≠ t) = c.recency.filter fun l => l.2 ≠ h := by
  obtain ⟨e, he, ht⟩ := (hc.lines t h).mp hl
  refine List.filter_congr fun l hl' => ?_
  rw [decide_eq_decide, not_iff_not]
  obtain ⟨t', h'⟩ := l
  constructor
  · rintro rfl
    exact hc.line_unique hl' hl
  · rintro rfl
    obtain ⟨e', he', rfl⟩ := (hc.lines _ _).mp hl'
    rw [hc.entry_unique he' he, ht]

/-! ### Refreshing, adding, removing -/

@[simp] theorem touch_blockSize (c : PrefixCache) (h : UInt64) :
    (c.touch h).blockSize = c.blockSize := by
  unfold touch
  split <;> rfl

@[simp] theorem touch_hash (c : PrefixCache) (h : UInt64) : (c.touch h).hash = c.hash := by
  unfold touch
  split <;> rfl

@[simp] theorem content_touch (c : PrefixCache) (h : UInt64) : (c.touch h).content = c.content := by
  unfold touch
  split
  · rfl
  · simp only [content, List.map_map]
    apply List.map_congr_left
    rintro ⟨k, v⟩ -
    by_cases hk : k = h <;> simp [hk]

theorem content_add (c : PrefixCache) (h : UInt64) (tokens : List UInt32) (block : Nat) :
    (c.add h tokens block).content = c.content ++ [(h, block, tokens)] := by
  simp [content, add]

theorem content_remove (c : PrefixCache) (tick : Nat) (h : UInt64) :
    (c.remove tick h).content = c.content.filter fun x => x.1 ≠ h := by
  rw [content, content, List.filter_map]
  rfl

theorem touch_eq {e : CacheEntry} (hf : c.entry? h = some e) :
    c.touch h =
      { c with
        entries := c.entries.map fun (k, v) =>
          if k = h then (k, { v with lastUsed := c.tick + 1 }) else (k, v)
        recency := c.recency.filter (fun (t, _) => t ≠ e.lastUsed) ++ [(c.tick + 1, h)]
        tick := c.tick + 1 } := by
  rw [touch, hf]

/-- Refreshing gives the entry of that name the new tick and no other. -/
theorem mem_entries_touch {e v : CacheEntry} (hf : c.entry? h = some e) :
    (k, v) ∈ (c.touch h).entries ↔
      ∃ w, (k, w) ∈ c.entries ∧ v = if k = h then { w with lastUsed := c.tick + 1 } else w := by
  rw [touch_eq hf]
  simp only [List.mem_map, Prod.exists]
  constructor
  · rintro ⟨k', w, hw, heq⟩
    split at heq
    all_goals
      obtain ⟨rfl, rfl⟩ := Prod.mk.inj heq
      exact ⟨w, hw, by simp only [*, if_true, if_false]⟩
  · rintro ⟨w, hw, rfl⟩
    refine ⟨k, w, hw, ?_⟩
    split <;> rfl

theorem mem_recency_touch {e : CacheEntry} {t : Nat} (hf : c.entry? h = some e) :
    (t, k) ∈ (c.touch h).recency ↔
      ((t, k) ∈ c.recency ∧ t ≠ e.lastUsed) ∨ (t = c.tick + 1 ∧ k = h) := by
  rw [touch_eq hf]
  simp only [List.mem_append, List.mem_filter, decide_eq_true_eq, List.mem_singleton,
    Prod.mk.injEq]

theorem Indexed.touch (hc : c.Indexed) (h : UInt64) : (c.touch h).Indexed := by
  rcases hf : c.entry? h with - | e
  · have heq : c.touch h = { c with tick := c.tick + 1 } := by rw [PrefixCache.touch, hf]
    rw [heq]
    exact ⟨hc.keys, hc.ticks, fun l hl => Nat.le_succ_of_le (hc.bound l hl), hc.lines⟩
  have he : (h, e) ∈ c.entries := mem_entries_of_lookup hf
  have hline : (e.lastUsed, h) ∈ c.recency := (hc.lines _ _).mpr ⟨e, he, rfl⟩
  refine ⟨?_, ?_, ?_, ?_⟩
  · have hsame : (c.touch h).entries.map Prod.fst = c.entries.map Prod.fst := by
      rw [touch_eq hf, List.map_map]
      apply List.map_congr_left
      rintro ⟨k, v⟩ -
      by_cases hk : k = h <;> simp [hk]
    rw [hsame]
    exact hc.keys
  · -- the new tick is later than all the others
    rw [touch_eq hf, List.map_append, List.pairwise_append]
    refine ⟨hc.ticks.sublist (List.filter_sublist.map _), List.pairwise_singleton _ _, ?_⟩
    intro t ht t' ht'
    obtain ⟨l, hl, rfl⟩ := List.mem_map.mp ht
    have hle := hc.bound l (List.mem_filter.mp hl).1
    rw [List.mem_singleton.mp ht']
    exact Nat.lt_succ_of_le hle
  · have hnow : (c.touch h).tick = c.tick + 1 := by rw [touch_eq hf]
    rintro ⟨t, k⟩ hl
    rw [hnow]
    rcases (mem_recency_touch hf).mp hl with ⟨hl, -⟩ | ⟨rfl, -⟩
    · exact Nat.le_succ_of_le (hc.bound _ hl)
    · exact Nat.le_refl _
  · intro t k
    rw [mem_recency_touch hf, hc.lines t k]
    simp only [mem_entries_touch hf]
    constructor
    · rintro (⟨⟨v, hv, rfl⟩, hne⟩ | ⟨rfl, rfl⟩)
      · have hk : k ≠ h := by
          rintro rfl
          exact hne (by rw [hc.entry_unique hv he])
        exact ⟨v, ⟨v, hv, (if_neg hk).symm⟩, rfl⟩
      · exact ⟨{ e with lastUsed := c.tick + 1 }, ⟨e, he, (if_pos rfl).symm⟩, rfl⟩
    · rintro ⟨v, ⟨w, hw, rfl⟩, rfl⟩
      by_cases hk : k = h
      · rw [if_pos hk]
        exact Or.inr ⟨rfl, hk⟩
      · -- the line of another entry has another tick
        rw [if_neg hk]
        refine Or.inl ⟨⟨w, hw, rfl⟩, ?_⟩
        intro ht
        have hl : (w.lastUsed, k) ∈ c.recency := (hc.lines _ _).mpr ⟨w, hw, rfl⟩
        exact hk (hc.line_unique (ht ▸ hl) hline)

theorem Indexed.add (hc : c.Indexed) (hn : c.entry? h = none) (tokens : List UInt32) (block : Nat) :
    (c.add h tokens block).Indexed := by
  -- a new key at a new tick, later than all others: one entry and one line more
  refine ⟨?_, ?_, ?_, ?_⟩
  · show (List.map Prod.fst (c.entries ++ [(h, _)])).Nodup
    rw [List.map_append]
    refine List.Nodup.append hc.keys (List.nodup_singleton h) ?_
    exact List.disjoint_singleton.mpr (entry?_eq_none.mp hn)
  · show List.Pairwise _ (List.map Prod.fst (c.recency ++ [(c.tick + 1, h)]))
    rw [List.map_append, List.pairwise_append]
    refine ⟨hc.ticks, List.pairwise_singleton _ _, ?_⟩
    intro t ht t' ht'
    obtain ⟨l, hl, rfl⟩ := List.mem_map.mp ht
    rw [List.mem_singleton.mp ht']
    exact Nat.lt_succ_of_le (hc.bound l hl)
  · intro l hl
    rcases List.mem_append.mp hl with hl | hl
    · exact Nat.le_succ_of_le (hc.bound l hl)
    · rw [List.mem_singleton.mp hl]
      exact Nat.le_refl _
  · intro t k
    have hlines := hc.lines t k
    simp only [PrefixCache.add, List.mem_append, List.mem_singleton, Prod.mk.injEq, hlines]
    constructor
    · rintro (⟨e, he, ht⟩ | ⟨rfl, rfl⟩)
      · exact ⟨e, Or.inl he, ht⟩
      · exact ⟨_, Or.inr ⟨rfl, rfl⟩, rfl⟩
    · rintro ⟨e, he | ⟨rfl, rfl⟩, rfl⟩
      · exact Or.inl ⟨e, he, rfl⟩
      · exact Or.inr ⟨rfl, rfl⟩

/-- Giving up an entry together with its line keeps the index right. -/
theorem Indexed.remove (hc : c.Indexed) {t : Nat} (hl : (t, h) ∈ c.recency) :
    (c.remove t h).Indexed := by
  refine ⟨hc.keys.sublist (List.filter_sublist.map _), hc.ticks.sublist (List.filter_sublist.map _),
    fun l hl => hc.bound l (List.mem_filter.mp hl).1, ?_⟩
  intro t' k
  obtain ⟨e, he, ht⟩ := (hc.lines t h).mp hl
  simp only [PrefixCache.remove, List.mem_filter, decide_eq_true_eq, hc.lines t' k]
  -- an entry goes just if its line does: a hash has one entry and a tick one line
  constructor
  · rintro ⟨⟨e', he', rfl⟩, hne⟩
    refine ⟨e', ⟨he', ?_⟩, rfl⟩
    rintro rfl
    exact hne (by rw [← ht, hc.entry_unique he he'])
  · rintro ⟨e', ⟨he', hne⟩, rfl⟩
    refine ⟨⟨e', he', rfl⟩, ?_⟩
    intro heq
    have hl' : (e'.lastUsed, k) ∈ c.recency := (hc.lines _ _).mpr ⟨e', he', rfl⟩
    exact hne (hc.line_unique (heq ▸ hl') hl)

/-- Giving up an entry gives up its block once. -/
theorem Indexed.blocks_remove (hc : c.Indexed) {e : CacheEntry} (he : (h, e) ∈ c.entries)
    (t : Nat) : c.blocks.Perm (e.block :: (c.remove t h).blocks) := by
  obtain ⟨l₁, l₂, heq⟩ := List.append_of_mem he
  have hkeys := hc.keys
  rw [heq, List.map_append, List.map_cons, List.nodup_middle, List.nodup_cons, List.mem_append,
    not_or] at hkeys
  -- no other entry has this name, so the filter drops one entry
  have hkeep : ∀ l : List (UInt64 × CacheEntry), h ∉ l.map Prod.fst →
      l.filter (fun (k, _) => k ≠ h) = l := by
    intro l hl
    refine List.filter_eq_self.mpr fun x hx => decide_eq_true ?_
    rintro rfl
    exact hl (List.mem_map.mpr ⟨x, hx, rfl⟩)
  have hrest : (c.remove t h).entries = l₁ ++ l₂ := by
    show c.entries.filter _ = _
    rw [heq, List.filter_append, List.filter_cons_of_neg (by simp), hkeep l₁ hkeys.1.1,
      hkeep l₂ hkeys.1.2]
  rw [blocks, blocks, hrest, heq, List.map_append, List.map_append, List.map_cons]
  exact List.perm_middle

/-- Whatever order is asked for, the blocks are those held. -/
theorem drained_perm (c : PrefixCache) (order : List Nat) : (c.drained order).Perm c.blocks := by
  unfold drained
  split
  case isTrue h => exact List.isPerm_iff.mp h
  case isFalse => exact .refl _

theorem Indexed.clear (c : PrefixCache) (order : List Nat) : (c.clear order).2.Indexed where
  keys := List.nodup_nil
  ticks := List.Pairwise.nil
  bound := fun _ hl => absurd hl List.not_mem_nil
  lines := by
    intro t h
    constructor
    · intro hl
      exact absurd hl List.not_mem_nil
    · rintro ⟨e, he, -⟩
      exact absurd he List.not_mem_nil

/-! ### Walking down a chain -/

/-- What a walk leaves alone. -/
structure SameChains (c c' : PrefixCache) : Prop where
  blockSize : c'.blockSize = c.blockSize
  hash : c'.hash = c.hash

theorem matchChain_cons (c : PrefixCache) (parent : Option UInt64) (tokens : List UInt32)
    (rest : List (List UInt32)) :
    c.matchChain parent (tokens :: rest) =
      match c.find? (c.hash parent tokens) tokens with
      | none => ([], c)
      | some e =>
        (e.block :: ((c.touch (c.hash parent tokens)).matchChain
          (some (c.hash parent tokens)) rest).1,
          ((c.touch (c.hash parent tokens)).matchChain (some (c.hash parent tokens)) rest).2) := rfl

theorem mem_content_of_find? {e : CacheEntry} {t : List UInt32} (he : c.find? h t = some e) :
    (h, e.block, t) ∈ c.content := by
  obtain ⟨hf, ht⟩ := Option.filter_eq_some_iff.mp he
  exact mem_content.mpr ⟨e, mem_entries_of_lookup hf, rfl, of_decide_eq_true ht⟩

theorem matchChain_same (c : PrefixCache) (parent : Option UInt64) (chain : List (List UInt32)) :
    SameChains c (c.matchChain parent chain).2 := by
  induction chain generalizing c parent with
  | nil => exact ⟨rfl, rfl⟩
  | cons tokens rest ih =>
    rw [matchChain_cons]
    split
    · exact ⟨rfl, rfl⟩
    · have hrest := ih (c.touch (c.hash parent tokens)) (some (c.hash parent tokens))
      exact ⟨hrest.blockSize.trans (touch_blockSize _ _), hrest.hash.trans (touch_hash _ _)⟩

/-- A lookup refreshes entries and changes nothing else. -/
theorem content_matchChain (c : PrefixCache) (parent : Option UInt64) (chain : List (List UInt32)) :
    (c.matchChain parent chain).2.content = c.content := by
  induction chain generalizing c parent with
  | nil => rfl
  | cons tokens rest ih =>
    rw [matchChain_cons]
    split
    · rfl
    · exact (ih _ _).trans (content_touch _ _)

theorem Indexed.matchChain (hc : c.Indexed) (parent : Option UInt64) (chain : List (List UInt32)) :
    (c.matchChain parent chain).2.Indexed := by
  induction chain generalizing c parent with
  | nil => exact hc
  | cons tokens rest ih =>
    rw [matchChain_cons]
    split
    · exact hc
    · exact ih (hc.touch _) _

/-- A matched block stands under the chained hash of its position, with the very
tokens of that position. -/
theorem matchChain_hit {parent : Option UInt64} {chain : List (List UInt32)} {i b : Nat}
    (hi : (c.matchChain parent chain).1[i]? = some b) :
    ∃ k t, (chainHashes c.hash parent chain)[i]? = some k ∧ chain[i]? = some t ∧
      (k, b, t) ∈ c.content := by
  induction chain generalizing c parent i with
  | nil => exact absurd hi (by simp [PrefixCache.matchChain])
  | cons tokens rest ih =>
    rw [matchChain_cons] at hi
    split at hi
    · simp at hi
    case h_2 e he =>
      -- the head of the chain, or a position of its rest
      cases i with
      | zero =>
        obtain rfl := Option.some.inj hi
        exact ⟨c.hash parent tokens, tokens, rfl, rfl, mem_content_of_find? he⟩
      | succ i =>
        obtain ⟨k, t, hk, ht, hmem⟩ := ih hi
        rw [touch_hash] at hk
        rw [content_touch] at hmem
        exact ⟨k, t, hk, ht, hmem⟩

theorem matchPrefix_eq_ok (hs : c.blockSize ≠ 0) (tokens : List UInt32) :
    c.matchPrefix tokens = .ok (c.matchChain none (c.matchable tokens)) := by
  rw [matchPrefix, if_neg hs]

/-- No more blocks are matched than were asked for. -/
theorem length_matchChain_le (c : PrefixCache) (parent : Option UInt64)
    (chain : List (List UInt32)) : (c.matchChain parent chain).1.length ≤ chain.length := by
  induction chain generalizing c parent with
  | nil => exact Nat.le_refl 0
  | cons tokens rest ih =>
    rw [matchChain_cons]
    split
    · exact Nat.zero_le _
    · exact Nat.succ_le_succ (ih _ _)

/-! ### Committing a chain -/

theorem insertChain_cons (c : PrefixCache) (parent : Option UInt64) (tokens : List UInt32)
    (block : Nat) (rest : List (List UInt32 × Nat)) :
    c.insertChain parent ((tokens, block) :: rest) =
      match c.entry? (c.hash parent tokens) with
      | none =>
        (block :: ((c.add (c.hash parent tokens) tokens block).insertChain
          (some (c.hash parent tokens)) rest).1,
          ((c.add (c.hash parent tokens) tokens block).insertChain
            (some (c.hash parent tokens)) rest).2)
      | some e =>
        if e.tokens = tokens then
          (c.touch (c.hash parent tokens)).insertChain (some (c.hash parent tokens)) rest
        else ([], c) := rfl

theorem insertChain_same (c : PrefixCache) (parent : Option UInt64)
    (chain : List (List UInt32 × Nat)) : SameChains c (c.insertChain parent chain).2 := by
  induction chain generalizing c parent with
  | nil => exact ⟨rfl, rfl⟩
  | cons x rest ih =>
    obtain ⟨tokens, block⟩ := x
    rw [insertChain_cons]
    split
    · have hrest := ih (c.add (c.hash parent tokens) tokens block) (some (c.hash parent tokens))
      exact ⟨hrest.blockSize, hrest.hash⟩
    · split
      · have hrest := ih (c.touch (c.hash parent tokens)) (some (c.hash parent tokens))
        exact ⟨hrest.blockSize.trans (touch_blockSize _ _), hrest.hash.trans (touch_hash _ _)⟩
      · exact ⟨rfl, rfl⟩

theorem Indexed.insertChain (hc : c.Indexed) (parent : Option UInt64)
    (chain : List (List UInt32 × Nat)) : (c.insertChain parent chain).2.Indexed := by
  induction chain generalizing c parent with
  | nil => exact hc
  | cons x rest ih =>
    obtain ⟨tokens, block⟩ := x
    rw [insertChain_cons]
    split
    case h_1 hn => exact ih (hc.add hn tokens block) _
    case h_2 =>
      split
      · exact ih (hc.touch _) _
      · exact hc

/-- A commit adds entries for positions of its chain, each under the chained hash
of the position, and returns their blocks. -/
theorem content_insertChain (c : PrefixCache) (parent : Option UInt64)
    (chain : List (List UInt32 × Nat)) :
    ∃ added, (c.insertChain parent chain).2.content = c.content ++ added ∧
      added.map (fun x => x.2.1) = (c.insertChain parent chain).1 ∧
      ∀ k b t, (k, b, t) ∈ added → ∃ i : Nat, chain[i]? = some (t, b) ∧
        (chainHashes c.hash parent (chain.map Prod.fst))[i]? = some k := by
  induction chain generalizing c parent with
  | nil => exact ⟨[], (List.append_nil _).symm, rfl, fun _ _ _ hx => absurd hx List.not_mem_nil⟩
  | cons x rest ih =>
    obtain ⟨tokens, block⟩ := x
    rw [insertChain_cons]
    split
    · -- the position is new
      obtain ⟨added, hcontent, hblocks, hplace⟩ :=
        ih (c.add (c.hash parent tokens) tokens block) (some (c.hash parent tokens))
      refine ⟨(c.hash parent tokens, block, tokens) :: added, ?_, ?_, ?_⟩
      · rw [hcontent, content_add, List.append_assoc]
        rfl
      · rw [List.map_cons, hblocks]
      · intro k b t hx
        rcases List.mem_cons.mp hx with hx | hx
        · obtain ⟨rfl, rfl, rfl⟩ := hx
          exact ⟨0, rfl, rfl⟩
        · obtain ⟨i, hi, hk⟩ := hplace k b t hx
          exact ⟨i + 1, hi, hk⟩
    · split
      · -- the position is cached already and is refreshed
        obtain ⟨added, hcontent, hblocks, hplace⟩ :=
          ih (c.touch (c.hash parent tokens)) (some (c.hash parent tokens))
        rw [content_touch] at hcontent
        rw [touch_hash] at hplace
        refine ⟨added, hcontent, hblocks, ?_⟩
        intro k b t hx
        obtain ⟨i, hi, hk⟩ := hplace k b t hx
        exact ⟨i + 1, hi, hk⟩
      · -- other tokens have the name, and the commit ends here
        exact ⟨[], (List.append_nil _).symm, rfl, fun _ _ _ hx => absurd hx List.not_mem_nil⟩

/-- A commit of a list of blocks, position by position. -/
theorem content_insertChain_zip (c : PrefixCache) (parent : Option UInt64)
    (chain : List (List UInt32)) (ids : List Nat) :
    ∃ added, (c.insertChain parent (chain.zip ids)).2.content = c.content ++ added ∧
      added.map (fun x => x.2.1) = (c.insertChain parent (chain.zip ids)).1 ∧
      ∀ k b t, (k, b, t) ∈ added → ∃ i : Nat, ids[i]? = some b ∧ chain[i]? = some t ∧
        (chainHashes c.hash parent chain)[i]? = some k := by
  obtain ⟨added, hcontent, hblocks, hplace⟩ := content_insertChain c parent (chain.zip ids)
  refine ⟨added, hcontent, hblocks, ?_⟩
  intro k b t hx
  obtain ⟨i, hi, hk⟩ := hplace k b t hx
  obtain ⟨ht, hb⟩ := List.getElem?_zip_eq_some.mp hi
  refine ⟨i, hb, ht, ?_⟩
  -- the zip cuts the longer list, which hashes and chunks do not notice
  rw [List.zip_eq_zip_take_min, List.map_fst_zip (by simp), chainHashes_take,
    List.getElem?_take] at hk
  split at hk
  · exact hk
  · simp at hk

theorem insert_eq_ok (hs : c.blockSize ≠ 0) (tokens : List UInt32) (ids : List Nat) :
    c.insert tokens ids = .ok (c.insertChain none ((fullBlocks c.blockSize tokens).zip ids)) := by
  rw [insert, if_neg hs]

theorem eq_of_matchPrefix {tokens : List UInt32} {r : List Nat × PrefixCache}
    (hm : c.matchPrefix tokens = .ok r) : r = c.matchChain none (c.matchable tokens) := by
  rw [matchPrefix] at hm
  split at hm
  · simp at hm
  · exact (Except.ok.inj hm).symm

theorem eq_of_insert {tokens : List UInt32} {ids : List Nat} {r : List Nat × PrefixCache}
    (hi : c.insert tokens ids = .ok r) :
    r = c.insertChain none ((fullBlocks c.blockSize tokens).zip ids) := by
  rw [insert] at hi
  split at hi
  · simp at hi
  · exact (Except.ok.inj hi).symm

/-! ### Giving entries up -/

theorem oldest_eq_some {test : Nat → Bool} {l : List (Nat × UInt64)} {t b : Nat}
    (ho : c.oldest test l = .ok (some (t, h, b))) :
    (t, h) ∈ l ∧ (∃ e, c.entry? h = some e ∧ e.block = b) ∧ test b = true := by
  induction l with
  | nil => exact absurd ho (by simp [oldest])
  | cons x rest ih =>
    obtain ⟨t', h'⟩ := x
    rw [oldest] at ho
    split at ho
    · -- a line without an entry is a fault, not an answer
      simp at ho
    case h_2 e he =>
      split at ho
      case isTrue hb =>
        simp only [Except.ok.injEq, Option.some.injEq, Prod.mk.injEq] at ho
        obtain ⟨rfl, rfl, rfl⟩ := ho
        exact ⟨List.mem_cons_self, ⟨e, he, rfl⟩, hb⟩
      case isFalse =>
        obtain ⟨hl, hrest⟩ := ih ho
        exact ⟨List.mem_cons_of_mem _ hl, hrest⟩

theorem oldest_eq_none {test : Nat → Bool} {l : List (Nat × UInt64)}
    (ho : c.oldest test l = .ok none) {x : Nat × UInt64} (hx : x ∈ l) :
    ∃ e, c.entry? x.2 = some e ∧ test e.block = false := by
  induction l with
  | nil => exact absurd hx List.not_mem_nil
  | cons y rest ih =>
    obtain ⟨t', h'⟩ := y
    rw [oldest] at ho
    split at ho
    · simp at ho
    case h_2 e he =>
      split at ho
      · simp at ho
      case isFalse hb =>
        rcases List.mem_cons.mp hx with rfl | hx
        · exact ⟨e, he, Bool.eq_false_iff.mpr hb⟩
        · exact ih ho hx

/-- If every line has its entry the search comes to an end. -/
theorem exists_oldest {l : List (Nat × UInt64)} (test : Nat → Bool)
    (hl : ∀ x ∈ l, ∃ e, c.entry? x.2 = some e) : ∃ r, c.oldest test l = .ok r := by
  induction l with
  | nil => exact ⟨none, rfl⟩
  | cons y rest ih =>
    obtain ⟨t', h'⟩ := y
    obtain ⟨e, he⟩ := hl (t', h') List.mem_cons_self
    obtain ⟨r, hr⟩ := ih fun x hx => hl x (List.mem_cons_of_mem _ hx)
    have he' : c.entry? h' = some e := he
    rw [oldest, he']
    by_cases hb : test e.block = true
    · exact ⟨some (t', h', e.block), if_pos hb⟩
    · exact ⟨r, (if_neg hb).trans hr⟩

/-- The search goes along the index, so no line of an entry that passes is older than the
one found. -/
theorem oldest_le {test : Nat → Bool} {l : List (Nat × UInt64)} {t b : Nat}
    (hl : (l.map Prod.fst).Pairwise (· < ·)) (ho : c.oldest test l = .ok (some (t, h, b)))
    {x : Nat × UInt64} (hx : x ∈ l) {e : CacheEntry} (he : c.entry? x.2 = some e)
    (ht : test e.block = true) : t ≤ x.1 := by
  induction l with
  | nil => exact absurd hx List.not_mem_nil
  | cons y rest ih =>
    obtain ⟨t', h'⟩ := y
    obtain ⟨hlater, hl⟩ := List.pairwise_cons.mp hl
    rw [oldest] at ho
    split at ho
    · simp at ho
    case h_2 e' he' =>
      split at ho
      case isTrue =>
        simp only [Except.ok.injEq, Option.some.injEq, Prod.mk.injEq] at ho
        obtain ⟨rfl, rfl, rfl⟩ := ho
        rcases List.mem_cons.mp hx with rfl | hx
        · exact Nat.le_refl _
        · exact Nat.le_of_lt (hlater _ (List.mem_map.mpr ⟨x, hx, rfl⟩))
      case isFalse hno =>
        rcases List.mem_cons.mp hx with rfl | hx
        · -- the first line is passed over because its entry does not pass
          obtain rfl := Option.some.inj (he.symm.trans he')
          exact absurd ht hno
        · exact ih hl ho hx

/-- What is given up is what the search finds. -/
theorem oldest_of_popLru {test : Nat → Bool} {b : Nat} {c' : PrefixCache}
    (hp : c.popLru test = .ok (some (b, c'))) :
    ∃ t h, c.oldest test c.recency = .ok (some (t, h, b)) ∧ c' = c.remove t h := by
  rw [popLru] at hp
  rcases ho : c.oldest test c.recency with err | - | ⟨t, h, b'⟩
  · rw [ho] at hp
    exact absurd hp (by simp [bind, Except.bind])
  · rw [ho] at hp
    exact absurd hp (by simp [bind, Except.bind, pure, Except.pure])
  · rw [ho] at hp
    simp only [bind, Except.bind, pure, Except.pure, Except.ok.injEq, Option.some.injEq,
      Prod.mk.injEq] at hp
    obtain ⟨rfl, rfl⟩ := hp
    exact ⟨t, h, rfl, rfl⟩

/-- What is given up was held, and its block passes the test. -/
theorem popLru_eq_some {test : Nat → Bool} {b : Nat} {c' : PrefixCache}
    (hp : c.popLru test = .ok (some (b, c'))) :
    ∃ t h, (t, h) ∈ c.recency ∧ (∃ e, c.entry? h = some e ∧ e.block = b) ∧ test b = true ∧
      c' = c.remove t h := by
  obtain ⟨t, h, ho, rfl⟩ := oldest_of_popLru hp
  obtain ⟨hl, he, hb⟩ := oldest_eq_some ho
  exact ⟨t, h, hl, he, hb, rfl⟩

/-- Of the entries whose block passes the test, the one given up is the least recently
used. -/
theorem Indexed.popLru_oldest (hc : c.Indexed) {test : Nat → Bool} {b : Nat} {c' : PrefixCache}
    (hp : c.popLru test = .ok (some (b, c'))) :
    ∃ h e, (h, e) ∈ c.entries ∧ e.block = b ∧ test b = true ∧ c' = c.remove e.lastUsed h ∧
      ∀ x ∈ c.entries, test x.2.block = true → e.lastUsed ≤ x.2.lastUsed := by
  obtain ⟨t, h, ho, rfl⟩ := oldest_of_popLru hp
  obtain ⟨hl, ⟨e, hf, rfl⟩, hb⟩ := oldest_eq_some ho
  obtain ⟨e', he', rfl⟩ := (hc.lines t h).mp hl
  obtain rfl := hc.entry_unique he' (mem_entries_of_lookup hf)
  refine ⟨h, e', he', rfl, hb, rfl, ?_⟩
  rintro ⟨k, v⟩ hx ht
  have hline : (v.lastUsed, k) ∈ c.recency := (hc.lines _ _).mpr ⟨v, hx, rfl⟩
  exact oldest_le hc.ticks ho hline (hc.entry?_eq_some.mpr hx) ht

/-- Under an index that agrees with the entries, either an entry is given up or
no block held passes the test. -/
theorem Indexed.popLru (hc : c.Indexed) (test : Nat → Bool) :
    (∃ b c', c.popLru test = .ok (some (b, c'))) ∨
      (c.popLru test = .ok none ∧ ∀ b ∈ c.blocks, test b = false) := by
  have hlines : ∀ x ∈ c.recency, ∃ e, c.entry? x.2 = some e := by
    rintro ⟨t, h⟩ hx
    obtain ⟨e, he, -⟩ := (hc.lines t h).mp hx
    exact ⟨e, hc.entry?_eq_some.mpr he⟩
  obtain ⟨r, hr⟩ := exists_oldest test hlines
  rcases r with - | ⟨t, h, b⟩
  · refine Or.inr ⟨?_, ?_⟩
    · rw [PrefixCache.popLru, hr]
      rfl
    · -- every entry has a line, so the search has come past it
      intro b hb
      obtain ⟨⟨h, e⟩, he, rfl⟩ := List.mem_map.mp hb
      have hl : (e.lastUsed, h) ∈ c.recency := (hc.lines _ _).mpr ⟨e, he, rfl⟩
      obtain ⟨e', he', ht⟩ := oldest_eq_none hr hl
      rw [hc.entry_unique he (mem_entries_of_lookup he')]
      exact ht
  · refine Or.inl ⟨b, c.remove t h, ?_⟩
    rw [PrefixCache.popLru, hr]
    rfl

end PrefixCache

end PagedServe
