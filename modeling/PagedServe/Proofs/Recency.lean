/-
PagedServe/Proofs/Recency.lean

The index of the cache under any calls and any hash.

A call uses the names of the longest chain of its blocks that is cached when it returns:
what it was asked for and has found, or what it was offered and has refreshed or added
before other tokens were met under a name (`cachedNames`).  The history of a cache is the
list of all names used, one call after another (`uses`).  Calls that give entries up use
nothing.

`Tended` ties a cache to its history.  The tick counts the uses, every entry carries the
number of the last use of its name, and holds one block of tokens; together with `Indexed`
this makes the order of the index the order of last uses.  Each change of the cache keeps
it with one name more or none, so walks down a chain do by induction.

Main statement: after any sequence of calls index and entries are each other's inverse,
and what is given up is, of the entries that pass, the one whose last use is the longest
ago (`entries_indexed_by_use`).  Nothing is asked of the hash here, so chains may share
names at will.
-/
import PagedServe.Proofs.Refinement

namespace PagedServe

namespace PrefixCache

variable {c c' : PrefixCache} {h k : UInt64} {size : Nat} {used : List UInt64}

/-! ### Histories -/

/-- The names of the longest chain of these blocks that is cached. -/
def cachedNames (c : PrefixCache) (parent : Option UInt64) : List (List UInt32) → List UInt64
  | [] => []
  | tokens :: rest =>
    let h := c.hash parent tokens
    if (c.find? h tokens).isSome then h :: c.cachedNames (some h) rest else []

/-- The blocks that a call asks for or offers. -/
def chainOf (c : PrefixCache) : Call → List (List UInt32)
  | .matchPrefix tokens => c.matchable tokens
  | .insert tokens ids => (fullBlocks c.blockSize tokens).take ids.length
  | .popLru _ => []
  | .clear _ => []

/-- The names that calls use, in order. -/
def uses (c : PrefixCache) : List Call → List UInt64
  | [] => []
  | call :: calls => match c.answer call with
    | .error _ => []
    | .ok (_, c') => c'.cachedNames none (c.chainOf call) ++ c'.uses calls

/-- The number of the last use of a name, counted from one; zero if there was none. -/
def lastUse (h : UInt64) (used : List UInt64) : Nat := used.length - used.reverse.idxOf h

/-- The use that comes last is the last one of its name and no other's. -/
theorem lastUse_concat (h k : UInt64) (used : List UInt64) :
    lastUse k (used ++ [h]) = if k = h then used.length + 1 else lastUse k used := by
  rw [lastUse, List.reverse_append, List.reverse_singleton, List.singleton_append,
    List.idxOf_cons, List.length_append, List.length_singleton]
  by_cases hk : k = h
  · rw [if_pos hk, hk, beq_self_eq_true]
    rfl
  · rw [if_neg hk, beq_eq_false_iff_ne.mpr (Ne.symm hk), lastUse]
    exact Nat.add_sub_add_right _ _ _

/-! ### What a chain's names depend on -/

/-- Whether tokens stand under a name shows in the content. -/
theorem Indexed.find?_isSome (hc : c.Indexed) {tokens : List UInt32} :
    (c.find? h tokens).isSome ↔ ∃ b, (h, b, tokens) ∈ c.content := by
  constructor
  · intro hf
    obtain ⟨e, he⟩ := Option.isSome_iff_exists.mp hf
    exact ⟨e.block, mem_content_of_find? he⟩
  · rintro ⟨b, hb⟩
    obtain ⟨e, he, -, ht⟩ := mem_content.mp hb
    rw [find?, hc.entry?_eq_some.mpr he, Option.filter_some, if_pos (decide_eq_true ht)]
    rfl

/-- A block that is cached is used, and the chain goes on. -/
theorem cachedNames_cons (hc : c.Indexed) {b : Nat} {parent : Option UInt64}
    {tokens : List UInt32} (hhash : c.hash parent tokens = h) (hb : (h, b, tokens) ∈ c.content)
    (rest : List (List UInt32)) :
    c.cachedNames parent (tokens :: rest) = h :: c.cachedNames (some h) rest := by
  rw [cachedNames, hhash]
  exact if_pos (hc.find?_isSome.mpr ⟨b, hb⟩)

/-- A block that is not cached ends the chain. -/
theorem cachedNames_of_none {parent : Option UInt64} {tokens : List UInt32}
    (hf : c.find? (c.hash parent tokens) tokens = none) (rest : List (List UInt32)) :
    c.cachedNames parent (tokens :: rest) = [] := by
  rw [cachedNames]
  simp only [hf, Option.isSome_none, Bool.false_eq_true, if_false]

/-! ### One change at a time -/

/-- The cache is what its history makes it: the tick counts the uses, and every entry has
the number of the last use of its name and holds one block of tokens. -/
structure Tended (size : Nat) (c : PrefixCache) (used : List UInt64) : Prop where
  blockSize : c.blockSize = size
  indexed : c.Indexed
  sized : ∀ x ∈ c.content, x.2.2.length = size
  count : c.tick = used.length
  last : ∀ x ∈ c.entries, x.2.lastUsed = lastUse x.1 used

theorem tended_new (size : Nat) (hash : ChainHash) : Tended size (new size hash) [] where
  blockSize := rfl
  indexed := indexed_new size hash
  sized := fun _ hx => absurd hx List.not_mem_nil
  count := rfl
  last := fun _ hx => absurd hx List.not_mem_nil

/-- To refresh an entry is to use its name. -/
theorem Tended.touch (T : Tended size c used) {e : CacheEntry} (hf : c.entry? h = some e) :
    Tended size (c.touch h) (used ++ [h]) where
  blockSize := (touch_blockSize c h).trans T.blockSize
  indexed := T.indexed.touch h
  sized := by
    rw [content_touch]
    exact T.sized
  count := by
    rw [touch_eq hf, List.length_append]
    exact congrArg (· + 1) T.count
  last := by
    rintro ⟨k, v⟩ hx
    obtain ⟨w, hw, rfl⟩ := (mem_entries_touch hf).mp hx
    rw [lastUse_concat, ← T.count]
    by_cases hk : k = h
    · rw [if_pos hk, if_pos hk]
    · rw [if_neg hk, if_neg hk]
      exact T.last _ hw

/-- To add an entry is to use its name. -/
theorem Tended.add (T : Tended size c used) (hn : c.entry? h = none) {tokens : List UInt32}
    (ht : tokens.length = size) (block : Nat) :
    Tended size (c.add h tokens block) (used ++ [h]) where
  blockSize := T.blockSize
  indexed := T.indexed.add hn tokens block
  sized := by
    intro x hx
    rw [content_add] at hx
    rcases List.mem_append.mp hx with hx | hx
    · exact T.sized x hx
    · rw [List.mem_singleton.mp hx]
      exact ht
  count := by
    rw [List.length_append]
    exact congrArg (· + 1) T.count
  last := by
    rintro ⟨k, v⟩ hx
    rw [lastUse_concat, ← T.count]
    rcases List.mem_append.mp hx with hold | hnew
    · -- an entry that was there has another name
      have hk : k ≠ h := by
        rintro rfl
        exact entry?_eq_none.mp hn (List.mem_map.mpr ⟨(k, v), hold, rfl⟩)
      rw [if_neg hk]
      exact T.last _ hold
    · obtain ⟨rfl, rfl⟩ := Prod.mk.inj (List.mem_singleton.mp hnew)
      rw [if_pos rfl]

/-- Giving an entry up uses nothing. -/
theorem Tended.remove (T : Tended size c used) {t : Nat} (hl : (t, h) ∈ c.recency) :
    Tended size (c.remove t h) used where
  blockSize := T.blockSize
  indexed := T.indexed.remove hl
  sized := by
    intro x hx
    rw [content_remove] at hx
    exact T.sized x (List.mem_filter.mp hx).1
  count := T.count
  last := fun x hx => T.last x (List.mem_filter.mp hx).1

/-- The tick goes on when everything is dropped. -/
theorem Tended.clear (T : Tended size c used) (order : List Nat) :
    Tended size (c.clear order).2 used where
  blockSize := T.blockSize
  indexed := Indexed.clear c order
  sized := fun _ hx => absurd hx List.not_mem_nil
  count := T.count
  last := fun _ hx => absurd hx List.not_mem_nil

/-! ### Walks down a chain -/

/-- A lookup uses the names of the chain that it finds. -/
theorem Tended.matchChain (T : Tended size c used) (parent : Option UInt64)
    (chain : List (List UInt32)) :
    Tended size (c.matchChain parent chain).2
      (used ++ (c.matchChain parent chain).2.cachedNames parent chain) := by
  induction chain generalizing c used parent with
  | nil =>
    rw [cachedNames, List.append_nil]
    exact T
  | cons tokens rest ih =>
    rw [matchChain_cons]
    split
    case h_1 hf =>
      rw [cachedNames_of_none hf, List.append_nil]
      exact T
    case h_2 e hf =>
      -- the name is used now, and is still cached when the walk is over
      have hrest := ih (T.touch (Option.filter_eq_some_iff.mp hf).1) (some (c.hash parent tokens))
      have hhash := congrArg (· parent tokens)
        ((matchChain_same (c.touch (c.hash parent tokens)) (some (c.hash parent tokens))
          rest).hash.trans (touch_hash c _))
      have hmem := mem_content_of_find? hf
      rw [← content_touch, ← content_matchChain _ (some (c.hash parent tokens)) rest] at hmem
      rw [cachedNames_cons hrest.indexed hhash hmem]
      rwa [List.append_assoc, List.singleton_append] at hrest

/-- A commit uses the names of the chain that stands when it is done. -/
theorem Tended.insertChain (T : Tended size c used) (parent : Option UInt64)
    {chain : List (List UInt32 × Nat)} (hsize : ∀ x ∈ chain, x.1.length = size) :
    Tended size (c.insertChain parent chain).2
      (used ++ (c.insertChain parent chain).2.cachedNames parent (chain.map Prod.fst)) := by
  induction chain generalizing c used parent with
  | nil =>
    rw [List.map_nil, cachedNames, List.append_nil]
    exact T
  | cons x rest ih =>
    obtain ⟨tokens, block⟩ := x
    have hlater := fun x hx => hsize x (List.mem_cons_of_mem _ hx)
    -- the entry that a round leaves under the name is there when the commit is done
    have hround : ∀ (c₁ : PrefixCache) (b : Nat), c₁.hash = c.hash →
        (c.hash parent tokens, b, tokens) ∈ c₁.content →
        Tended size c₁ (used ++ [c.hash parent tokens]) →
        Tended size (c₁.insertChain (some (c.hash parent tokens)) rest).2
          (used ++ (c₁.insertChain (some (c.hash parent tokens)) rest).2.cachedNames parent
            (tokens :: rest.map Prod.fst)) := by
      intro c₁ b hhash hmem T₁
      have hrest := ih T₁ (some (c.hash parent tokens)) hlater
      obtain ⟨added, hcontent, -⟩ := content_insertChain c₁ (some (c.hash parent tokens)) rest
      have hsame := congrArg (· parent tokens)
        ((insertChain_same c₁ (some (c.hash parent tokens)) rest).hash.trans hhash)
      rw [cachedNames_cons hrest.indexed hsame (hcontent ▸ List.mem_append_left _ hmem)]
      rwa [List.append_assoc, List.singleton_append] at hrest
    rw [List.map_cons, insertChain_cons]
    split
    case h_1 hn =>
      refine hround _ block rfl ?_ (T.add hn (hsize (tokens, block) List.mem_cons_self) block)
      rw [content_add]
      exact List.mem_append_right _ (List.mem_singleton_self _)
    case h_2 e he =>
      split
      case isTrue ht =>
        refine hround _ e.block (touch_hash c _) ?_ (T.touch he)
        rw [content_touch]
        exact mem_content.mpr ⟨e, mem_entries_of_lookup he, rfl, ht⟩
      case isFalse ht =>
        -- other tokens have the name, and the commit ends here
        have hnone : c.find? (c.hash parent tokens) tokens = none := by
          rw [find?, he, Option.filter_some, if_neg]
          simpa using ht
        rw [cachedNames_of_none hnone, List.append_nil]
        exact T

/-! ### Runs -/

/-- Every call is answered, and the history goes on with the names that it uses. -/
theorem Tended.answer (hs : 1 ≤ size) (T : Tended size c used) (call : Call) :
    ∃ a c', c.answer call = .ok (a, c') ∧
      Tended size c' (used ++ c'.cachedNames none (c.chainOf call)) := by
  have hsize : c.blockSize ≠ 0 := T.blockSize ▸ Nat.ne_of_gt hs
  cases call with
  | matchPrefix tokens =>
    refine ⟨.blocks (c.matchChain none (c.matchable tokens)).1, _, ?_,
      T.matchChain none (c.matchable tokens)⟩
    rw [PrefixCache.answer, matchPrefix_eq_ok hsize]
    rfl
  | insert tokens ids =>
    have hblocks : ∀ x ∈ (fullBlocks c.blockSize tokens).zip ids, x.1.length = size :=
      fun x hx => T.blockSize ▸ length_of_mem_fullBlocks (List.of_mem_zip hx).1
    -- blocks that have no number to stand with them are not walked
    have hnames : ((fullBlocks c.blockSize tokens).zip ids).map Prod.fst
        = (fullBlocks c.blockSize tokens).take ids.length := by
      rw [List.zip_eq_zip_take_min, List.map_fst_zip (by simp), List.take_eq_take_iff]
      omega
    have hall := T.insertChain none hblocks
    rw [hnames] at hall
    refine ⟨.blocks (c.insertChain none ((fullBlocks c.blockSize tokens).zip ids)).1, _, ?_, hall⟩
    rw [PrefixCache.answer, insert_eq_ok hsize]
    rfl
  | popLru test =>
    rcases T.indexed.popLru test with ⟨b, c', hp⟩ | ⟨hp, -⟩
    · -- to give an entry up is not a use
      obtain ⟨t, h, hl, -, -, rfl⟩ := popLru_eq_some hp
      refine ⟨.given (some b), c.remove t h, ?_, ?_⟩
      · rw [PrefixCache.answer, hp]
        rfl
      · rw [chainOf, cachedNames, List.append_nil]
        exact T.remove hl
    · refine ⟨.given none, c, ?_, ?_⟩
      · rw [PrefixCache.answer, hp]
        rfl
      · rw [chainOf, cachedNames, List.append_nil]
        exact T
  | clear order =>
    refine ⟨.all (c.clear order).1, (c.clear order).2, rfl, ?_⟩
    rw [chainOf, cachedNames, List.append_nil]
    exact T.clear order

theorem Tended.answers (hs : 1 ≤ size) (T : Tended size c used) (calls : List Call) :
    ∃ as c', c.answers calls = .ok (as, c') ∧ Tended size c' (used ++ c.uses calls) := by
  induction calls generalizing c used with
  | nil =>
    refine ⟨[], c, rfl, ?_⟩
    rw [uses, List.append_nil]
    exact T
  | cons call calls ih =>
    obtain ⟨a, c₁, hone, T₁⟩ := T.answer hs call
    obtain ⟨as, c₂, hrest, T₂⟩ := ih T₁
    refine ⟨a :: as, c₂, ?_, ?_⟩
    · rw [PrefixCache.answers, hone]
      show (PrefixCache.answers c₁ calls >>= fun r => _) = _
      rw [hrest]
      rfl
    · rw [uses, hone, ← List.append_assoc]
      exact T₂

/-! ### The index -/

/-- Looking a tick up in the index finds the name of the entry that was last used then. -/
theorem Indexed.lookup_recency (hc : c.Indexed) (t : Nat) (h : UInt64) :
    c.recency.lookup t = some h ↔ ∃ e, c.entry? h = some e ∧ e.lastUsed = t := by
  rw [lookup_eq_some_iff_mem hc.nodup_ticks, hc.lines]
  simp only [hc.entry?_eq_some]

/-- The index lists the names of the entries, each once. -/
theorem Indexed.names_perm (hc : c.Indexed) :
    (c.recency.map Prod.snd).Perm (c.entries.map Prod.fst) := by
  -- two lines with one name belong to one entry, which was last used once
  have hnodup : (c.recency.map Prod.snd).Nodup := by
    refine List.Nodup.map_on ?_ hc.nodup_ticks.of_map
    rintro ⟨t, h⟩ hl ⟨t', h'⟩ hl' rfl
    obtain ⟨e, he, rfl⟩ := (hc.lines _ _).mp hl
    obtain ⟨e', he', rfl⟩ := (hc.lines _ _).mp hl'
    rw [hc.entry_unique he he']
  refine (List.perm_ext_iff_of_nodup hnodup hc.keys).mpr fun h => ?_
  constructor
  · intro hline
    obtain ⟨⟨t, _⟩, hl, rfl⟩ := List.mem_map.mp hline
    obtain ⟨e, he, -⟩ := (hc.lines _ _).mp hl
    exact List.mem_map.mpr ⟨_, he, rfl⟩
  · intro hentry
    obtain ⟨⟨_, e⟩, he, rfl⟩ := List.mem_map.mp hentry
    exact List.mem_map.mpr ⟨_, (hc.lines _ _).mpr ⟨e, he, rfl⟩, rfl⟩

/-- What is given up is the entry that passes and whose last use is the longest ago. -/
theorem Tended.popLru (T : Tended size c used) (test : Nat → Bool) :
    (c.popLru test = .ok none ∧ ∀ x ∈ c.entries, test x.2.block = false) ∨
      ∃ h e, c.popLru test = .ok (some (e.block, c.remove e.lastUsed h)) ∧
        c.entry? h = some e ∧ test e.block = true ∧
        ∀ k v, c.entry? k = some v → test v.block = true → k ≠ h →
          lastUse h used < lastUse k used := by
  rcases T.indexed.popLru test with ⟨b, c', hp⟩ | ⟨hp, hnone⟩
  · obtain ⟨h, e, he, rfl, htest, rfl, holdest⟩ := T.indexed.popLru_oldest hp
    refine Or.inr ⟨h, e, hp, T.indexed.entry?_eq_some.mpr he, htest, fun k v hv hpass hne => ?_⟩
    have hv := mem_entries_of_lookup hv
    have hle : e.lastUsed ≤ v.lastUsed := holdest (k, v) hv hpass
    -- two entries are not used at one tick
    have hother : e.lastUsed ≠ v.lastUsed := by
      intro heq
      have hline := (T.indexed.lines _ _).mpr ⟨e, he, heq⟩
      have hline' := (T.indexed.lines _ _).mpr ⟨v, hv, rfl⟩
      exact hne (T.indexed.line_unique hline' hline)
    rw [← T.last (h, e) he, ← T.last (k, v) hv]
    exact Nat.lt_of_le_of_ne hle hother
  · exact Or.inl ⟨hp, fun x hx => hnone _ (List.mem_map.mpr ⟨x, hx, rfl⟩)⟩

/-- Whatever is called, and whatever the hash, every call is answered, and afterwards the
entries and the index are maps that lead to each other: the index has one line for each
entry, and a tick leads to a name just if the entry of this name was last used then.  Ticks
grow along the index up to the present one, which is the number of uses, and an entry holds
one block of tokens.  To give up an entry never fails; it gives up none if no block passes
the test, and else the entry that passes and whose last insertion or match is the longest
ago. -/
theorem entries_indexed_by_use (hash : ChainHash) (hs : 1 ≤ size) (calls : List Call) :
    ∃ as c, (new size hash).answers calls = .ok (as, c) ∧
      (c.entries.map Prod.fst).Nodup ∧
      (c.recency.map Prod.snd).Perm (c.entries.map Prod.fst) ∧
      (∀ t h, c.recency.lookup t = some h ↔ ∃ e, c.entry? h = some e ∧ e.lastUsed = t) ∧
      (c.recency.map Prod.fst).Pairwise (· < ·) ∧ (∀ l ∈ c.recency, l.1 ≤ c.tick) ∧
      c.tick = ((new size hash).uses calls).length ∧
      (∀ x ∈ c.entries, x.2.tokens.length = size ∧
        x.2.lastUsed = lastUse x.1 ((new size hash).uses calls)) ∧
      c.size = c.recency.length ∧
      ∀ test, (c.popLru test = .ok none ∧ ∀ x ∈ c.entries, test x.2.block = false) ∨
        ∃ h e, c.popLru test = .ok (some (e.block, c.remove e.lastUsed h)) ∧
          c.entry? h = some e ∧ test e.block = true ∧
          ∀ k v, c.entry? k = some v → test v.block = true → k ≠ h →
            lastUse h ((new size hash).uses calls) < lastUse k ((new size hash).uses calls) := by
  obtain ⟨as, c, hrun, T⟩ := (tended_new size hash).answers hs calls
  rw [List.nil_append] at T
  have hnames := T.indexed.names_perm
  refine ⟨as, c, hrun, T.indexed.keys, hnames, T.indexed.lookup_recency, T.indexed.ticks,
    T.indexed.bound, T.count, fun x hx => ⟨?_, T.last x hx⟩, ?_, T.popLru⟩
  · exact T.sized (x.1, x.2.block, x.2.tokens) (List.mem_map.mpr ⟨x, hx, rfl⟩)
  · have hlength := hnames.length_eq
    rw [List.length_map, List.length_map] at hlength
    exact hlength.symm

/-- A hash under which many blocks share a name. -/
def coarseHash : ChainHash := fun _ tokens => (tokens.headD 0 % 4).toUInt64

/-- Three blocks are committed; a fourth meets other tokens under its name, and the oldest
of the three is looked up. -/
def refreshing : List Call :=
  [.insert [1] [10], .insert [2] [20], .insert [3] [30], .insert [5] [50], .matchPrefix [1, 0]]

/-- To be refused is not a use, and the second block is given up first. -/
theorem entries_indexed_by_use_refreshed :
    ∃ as c, 1 ≤ 1 ∧ (new 1 coarseHash).answers refreshing = .ok (as, c) ∧
      (new 1 coarseHash).uses refreshing = [1, 2, 3, 1] ∧ c.tick = 4 ∧ c.recency.length = 3 ∧
      ∃ h e, c.popLru (fun _ => true) = .ok (some (20, c.remove e.lastUsed h)) ∧
        c.entry? h = some e ∧
        ∀ k v, c.entry? k = some v → k ≠ h → lastUse h [1, 2, 3, 1] < lastUse k [1, 2, 3, 1] := by
  have huses : (new 1 coarseHash).uses refreshing = [1, 2, 3, 1] := by decide +kernel
  have hrun : ((new 1 coarseHash).answers refreshing).toOption.map
      (fun r => (r.2.size, (r.2.popLru fun _ => true).toOption.map (Option.map Prod.fst)))
      = some (3, some (some 20)) := by decide +kernel
  obtain ⟨as, c, hok, -, -, -, -, -, hcount, -, hsize, hpop⟩ :=
    entries_indexed_by_use coarseHash (Nat.le_refl 1) refreshing
  rw [hok] at hrun
  rw [huses] at hcount hpop
  obtain ⟨hthree, hfirst⟩ := Prod.mk.inj (Option.some.inj hrun)
  refine ⟨as, c, Nat.le_refl 1, hok, huses, hcount, hsize ▸ hthree, ?_⟩
  rcases hpop fun _ => true with ⟨hnone, -⟩ | ⟨h, e, hp, he, -, hleast⟩
  · rw [hnone] at hfirst
    cases hfirst
  · rw [hp] at hfirst
    have hblock : e.block = 20 := Option.some.inj (Option.some.inj hfirst)
    exact ⟨h, e, hblock ▸ hp, he, fun k v hk => hleast k v hk rfl⟩

end PrefixCache

end PagedServe
