/-
PagedServe/Proofs/Provenance.lean

Where reused blocks come from.

Clients call the allocator in any order and with any arguments, and calls that
fail keep what they had done (`play`).  A cached item was put there by a commit:
its block is the block that the commit gave for some position, its tokens are the
tokens of that position and its name is the chained hash there (`Commit.Places`).
Nothing but a commit adds items, so this holds after any calls (`recorded_play`).

Main statement: a match compares names and the tokens of one position, not whole
prefixes.  So a reused block was committed for the prefix that it is reused for, or
else the prefix it was committed for is another one that ends in the same block of
tokens under the same name (`Commit.Mistaken`).  The second case does happen: it is
enough that the parent of a cached block is evicted and another one of the same
hash is committed.
-/
import PagedServe.Proofs.Ledger
import Mathlib.Data.List.Induction

namespace PagedServe

namespace Allocator

open PrefixCache (content)

/-! ### Clients -/

/-- A call of a client. -/
inductive Call where
  | malloc (n : Nat)
  | mallocWithCache (tokens : List UInt32) (reuse : Bool)
  | free (ids : List Nat)
  | insert (tokens : List UInt32) (ids : List Nat)
  | freeWithCache (tokens : List UInt32) (ids : List Nat)
  | clearCache (order : List Nat)

/-- The allocator after a call, failed or not. -/
def after : Call → Allocator → Allocator
  | .malloc n => stateAfter (malloc n)
  | .mallocWithCache tokens reuse => stateAfter (mallocWithCache tokens reuse)
  | .free ids => stateAfter (free ids)
  | .insert tokens ids => stateAfter (insertIntoCache tokens ids)
  | .freeWithCache tokens ids => stateAfter (freeWithCache tokens ids)
  | .clearCache order => stateAfter (clearCache order)

/-- The allocator after a list of calls. -/
def play (a : Allocator) (calls : List Call) : Allocator := calls.foldl (fun a c => after c a) a

/-- Tokens with the blocks that were committed for them. -/
structure Commit where
  tokens : List UInt32
  ids : List Nat

/-- What a call commits, if it does. -/
def Call.commit? : Call → Option Commit
  | .insert tokens ids | .freeWithCache tokens ids => some ⟨tokens, ids⟩
  | _ => none

/-- The commit is that of one of the calls, which puts the block into the cache. -/
def Commit.Puts (m : Commit) (b : Nat) (a : Allocator) (calls : List Call) : Prop :=
  ∃ earlier c later name t, calls = earlier ++ c :: later ∧ c.commit? = some m ∧
    (name, b, t) ∉ (play a earlier).cache.content ∧
    (name, b, t) ∈ (after c (play a earlier)).cache.content

theorem Commit.Puts.append {m : Commit} {b : Nat} {a : Allocator} {calls : List Call}
    (h : m.Puts b a calls) (c : Call) : m.Puts b a (calls ++ [c]) := by
  obtain ⟨earlier, d, later, name, t, rfl, hm, hbefore, hafter⟩ := h
  refine ⟨earlier, d, later ++ [c], name, t, ?_, hm, hbefore, hafter⟩
  rw [List.append_assoc, List.cons_append]

/-- The commits among some calls. -/
def commits (calls : List Call) : List Commit := calls.filterMap Call.commit?

theorem Commit.Puts.mem_commits {m : Commit} {b : Nat} {a : Allocator} {calls : List Call}
    (h : m.Puts b a calls) : m ∈ commits calls := by
  obtain ⟨earlier, c, later, -, -, rfl, hm, -, -⟩ := h
  exact List.mem_filterMap.mpr ⟨c, List.mem_append_right _ List.mem_cons_self, hm⟩

/-! ### Every cached item was committed -/

variable {hash : ChainHash} {g : Geometry} {P : UInt64 × Nat × List UInt32 → Prop} {a : Allocator}

/-- The item is what the commit gave for position `j`: block, tokens and name. -/
structure Commit.Places (c : Commit) (hash : ChainHash) (size j : Nat)
    (x : UInt64 × Nat × List UInt32) : Prop where
  name : (chainHashes hash none (fullBlocks size c.tokens))[j]? = some x.1
  block : c.ids[j]? = some x.2.1
  tokens : (fullBlocks size c.tokens)[j]? = some x.2.2

/-- All that is cached has a property, such as to have been put there by a commit. -/
structure Recorded (hash : ChainHash) (g : Geometry) (P : UInt64 × Nat × List UInt32 → Prop)
    (a : Allocator) : Prop where
  geometry : a.geometry = g
  chains : a.cache.hash = hash
  blockSize : a.cache.blockSize = g.blockSize
  placed : ∀ x ∈ a.cache.content, P x

theorem recorded_newWith (h : newWith hash g = .ok a) : Recorded hash g P a := by
  obtain ⟨-, hgeometry, -, hcache, -⟩ := newWith_eq_ok h
  refine ⟨hgeometry, ?_, ?_, ?_⟩
  · rw [hcache]
    rfl
  · rw [hcache]
    rfl
  · rw [hcache]
    exact fun x hx => absurd hx List.not_mem_nil

/-- What is cached is all that matters. -/
theorem Recorded.of_subset {a' : Allocator} (h : Recorded hash g P a)
    (hg : a'.geometry = a.geometry) (hc : PrefixCache.SameChains a.cache a'.cache)
    (hsub : ∀ x ∈ a'.cache.content, x ∈ a.cache.content) : Recorded hash g P a' where
  geometry := hg.trans h.geometry
  chains := hc.hash.trans h.chains
  blockSize := hc.blockSize.trans h.blockSize
  placed := fun x hx => h.placed x (hsub x hx)

theorem Recorded.imp {Q : UInt64 × Nat × List UInt32 → Prop} (h : Recorded hash g P a)
    (hpq : ∀ x ∈ a.cache.content, P x → Q x) : Recorded hash g Q a where
  geometry := h.geometry
  chains := h.chains
  blockSize := h.blockSize
  placed := fun x hx => hpq x hx (h.placed x hx)

theorem preserves_onPool {α : Type} (f : Pool → Except Failure (α × Pool)) :
    Preserves (Recorded hash g P) (onPool f) := by
  intro a ha
  rcases hf : f a.pool with e | ⟨r, pool⟩
  · rw [stateAfter_of_error (onPool_of_error hf)]
    exact ha
  · rw [stateAfter_of_ok (onPool_of_ok hf)]
    exact ha.of_subset rfl ⟨rfl, rfl⟩ fun x hx => hx

theorem preserves_onCache {α : Type} {f : PrefixCache → Except Failure (α × PrefixCache)}
    (h : ∀ a, Recorded hash g P a → ∀ r c, f a.cache = .ok (r, c) →
      Recorded hash g P { a with cache := c }) : Preserves (Recorded hash g P) (onCache f) := by
  intro a ha
  rcases hf : f a.cache with e | ⟨r, cache⟩
  · rw [stateAfter_of_error (onCache_of_error hf)]
    exact ha
  · rw [stateAfter_of_ok (onCache_of_ok hf)]
    exact h a ha r cache hf

theorem preserves_shareAll (ids : List Nat) : Preserves (Recorded hash g P) (shareAll ids) := by
  induction ids with
  | nil => exact Preserves.pure ()
  | cons id ids ih => exact Preserves.bind (preserves_onPool _) fun _ => ih

theorem preserves_evict (n : Nat) : Preserves (Recorded hash g P) (evict n) := by
  induction n with
  | zero => exact Preserves.pure ()
  | succ n ih =>
    intro a ha
    rcases hp : a.cache.popLru a.cachedOnly with e | - | ⟨b, c⟩
    · have herr : evict (n + 1) a = .error e a := by simp only [evict, hp]
      rw [stateAfter_of_error herr]
      exact ha
    · have hok : evict (n + 1) a = .ok () a := by simp only [evict, hp]
      rw [stateAfter_of_ok hok]
      exact ha
    · -- an entry goes, and none comes
      have hstep : evict (n + 1) a
          = evict n { a with cache := c, pool := (a.pool.release [b]).2 } := by
        simp only [evict, hp]
      rw [stateAfter, hstep]
      obtain ⟨t, h, -, -, -, rfl⟩ := PrefixCache.popLru_eq_some hp
      refine ih _ (ha.of_subset rfl ⟨rfl, rfl⟩ fun x hx => ?_)
      rw [show PrefixCache.content _ = _ from PrefixCache.content_remove a.cache t h] at hx
      exact (List.mem_filter.mp hx).1

theorem preserves_malloc (n : Nat) : Preserves (Recorded hash g P) (malloc n) := by
  refine Preserves.bind Preserves.get fun a => ?_
  split
  · split
    · exact Preserves.throw _
    · split
      · exact Preserves.throw _
      · exact Preserves.bind (preserves_evict _) fun _ => preserves_onPool _
  · exact preserves_onPool _

theorem preserves_matchPrefix (tokens : List UInt32) :
    Preserves (Recorded hash g P) (onCache fun c => c.matchPrefix tokens) := by
  apply preserves_onCache
  intro a ha r c hc
  obtain ⟨-, rfl⟩ := Prod.mk.inj (PrefixCache.eq_of_matchPrefix hc)
  refine ha.of_subset rfl (PrefixCache.matchChain_same _ _ _) fun x hx => ?_
  rw [show PrefixCache.content _ = _ from PrefixCache.content_matchChain _ _ _] at hx
  exact hx

theorem preserves_mallocWithCache (tokens : List UInt32) (reuse : Bool) :
    Preserves (Recorded hash g P) (mallocWithCache tokens reuse) := by
  unfold mallocWithCache
  cases reuse
  case' true => refine Preserves.bind (preserves_matchPrefix tokens) fun matched => ?_
  case' false => refine Preserves.bind (Preserves.pure []) fun matched => ?_
  -- from here on it does not matter where the matched blocks come from
  all_goals
    refine Preserves.bind (preserves_shareAll matched) fun _ => ?_
    refine Preserves.bind Preserves.get fun a => ?_
    split
    · exact Preserves.throw _
    · refine Preserves.bind (Preserves.tryCatch (preserves_malloc _) fun e => ?_) fun _ => ?_
      · exact Preserves.bind (preserves_onPool _) fun _ => Preserves.throw e
      · exact Preserves.pure _

/-- A commit adds what it places and nothing else. -/
theorem preserves_insertIntoCache {tokens : List UInt32} {ids : List Nat}
    (hplaces : ∀ j x, Commit.Places ⟨tokens, ids⟩ hash g.blockSize j x → P x) :
    Preserves (Recorded hash g P) (insertIntoCache tokens ids) := by
  refine Preserves.bind (preserves_onCache fun a ha r c hc => ?_) fun added =>
    preserves_shareAll added
  obtain ⟨-, rfl⟩ := Prod.mk.inj (PrefixCache.eq_of_insert hc)
  have hsame := PrefixCache.insertChain_same a.cache none
    ((fullBlocks a.cache.blockSize tokens).zip ids)
  obtain ⟨added, hcontent, -, hplace⟩ := PrefixCache.content_insertChain_zip a.cache none
    (fullBlocks a.cache.blockSize tokens) ids
  refine ⟨ha.geometry, hsame.hash.trans ha.chains, hsame.blockSize.trans ha.blockSize, ?_⟩
  rintro ⟨k, b, t⟩ hx
  rw [show PrefixCache.content _ = _ from hcontent] at hx
  rcases List.mem_append.mp hx with hx | hx
  · exact ha.placed _ hx
  · -- a new entry: the commit places it at its position in the walk
    obtain ⟨i, hb, ht, hk⟩ := hplace k b t hx
    rw [ha.blockSize] at ht hk
    rw [ha.chains] at hk
    exact hplaces i _ ⟨hk, hb, ht⟩

theorem preserves_after {c : Call}
    (hplaces : ∀ m j x, c.commit? = some m → m.Places hash g.blockSize j x → P x)
    (ha : Recorded hash g P a) : Recorded hash g P (after c a) := by
  cases c with
  | malloc n => exact preserves_malloc n a ha
  | mallocWithCache tokens reuse => exact preserves_mallocWithCache tokens reuse a ha
  | free ids => exact preserves_onPool (fun p => .ok (p.release ids)) a ha
  | insert tokens ids => exact preserves_insertIntoCache (fun j x => hplaces _ j x rfl) a ha
  | freeWithCache tokens ids =>
    exact Preserves.bind (preserves_insertIntoCache fun j x => hplaces _ j x rfl)
      (fun _ => preserves_onPool fun p => .ok (p.release ids)) a ha
  | clearCache order =>
    have hclear : Preserves (Recorded hash g P) (onCache fun c => .ok (c.clear order)) := by
      apply preserves_onCache
      intro a ha r c hc
      obtain ⟨-, rfl⟩ := Prod.mk.inj (Except.ok.inj hc)
      exact ha.of_subset rfl ⟨rfl, rfl⟩ fun x hx => absurd hx List.not_mem_nil
    exact Preserves.bind hclear
      (fun blocks => preserves_onPool fun p => .ok (p.release blocks)) a ha

/-- After any calls, all that is cached was put there by a commit among them. -/
theorem recorded_play (h : newWith hash g = .ok a) (calls : List Call) :
    Recorded hash g
      (fun x => ∃ m : Commit, m.Puts x.2.1 a calls ∧ ∃ j, m.Places hash g.blockSize j x)
      (play a calls) := by
  induction calls using List.reverseRecOn with
  | nil => exact recorded_newWith h
  | append_singleton calls c ih =>
    have hplay : play a (calls ++ [c]) = after c (play a calls) := List.foldl_append
    rw [hplay]
    -- what is new in the cache is what this call commits
    have hstep : Recorded hash g (fun x => x ∈ (play a calls).cache.content ∨
        ∃ m, c.commit? = some m ∧ ∃ j, m.Places hash g.blockSize j x) (after c (play a calls)) :=
      preserves_after (fun m j x hm hx => Or.inr ⟨m, hm, j, hx⟩)
        (ih.imp fun x hx _ => Or.inl hx)
    apply hstep.imp
    intro x hx hold
    by_cases hbefore : x ∈ (play a calls).cache.content
    · obtain ⟨m, hputs, hplaces⟩ := ih.placed x hbefore
      exact ⟨m, hputs.append c, hplaces⟩
    · obtain ⟨m, hm, hplaces⟩ := hold.resolve_left hbefore
      exact ⟨m, ⟨calls, c, [], x.1, x.2.2, rfl, hm, hbefore, hx⟩, hplaces⟩

/-! ### Matches -/

/-- A commit is mistaken for some tokens: its tokens up to position `j` are not
the tokens up to position `i`, yet the two end in the same block of tokens under
the same name. -/
structure Commit.Mistaken (c : Commit) (hash : ChainHash) (size j : Nat) (tokens : List UInt32)
    (i : Nat) : Prop where
  differ : c.tokens.take ((j + 1) * size) ≠ tokens.take ((i + 1) * size)
  name : (chainHashes hash none (fullBlocks size c.tokens))[j]?
    = (chainHashes hash none (fullBlocks size tokens))[i]?
  tokens : (fullBlocks size c.tokens)[j]? = (fullBlocks size tokens)[i]?

/-- What a grant consists of, whatever the state of the books. -/
theorem Recorded.grant_eq (ha : Recorded hash g P a) {tokens : List UInt32} {grant : Grant}
    {a' : Allocator} (h : mallocWithCache tokens true a = .ok grant a') :
    ∃ fresh, grant = ⟨(a.matched tokens true).1 ++ fresh,
      (a.matched tokens true).1.length * g.blockSize⟩ := by
  unfold mallocWithCache at h
  rw [if_pos rfl] at h
  obtain ⟨matched, a₁, hmatch, h⟩ := bind_eq_ok.mp h
  obtain ⟨⟨⟩, a₂, hshare, h⟩ := bind_eq_ok.mp h
  -- lookup and sharing leave the geometry alone, by which the reused tokens are counted
  have ha₁ := preserves_matchPrefix tokens a ha
  rw [stateAfter_of_ok hmatch] at ha₁
  have ha₂ := preserves_shareAll matched a₁ ha₁
  rw [stateAfter_of_ok hshare] at ha₂
  have hmatched : matched = (a.matched tokens true).1 := by
    rcases hc : a.cache.matchPrefix tokens with e | ⟨r, c⟩
    · simp only [onCache, hc] at hmatch
      cases hmatch
    · rw [onCache_of_ok hc] at hmatch
      cases hmatch
      exact congrArg Prod.fst (PrefixCache.eq_of_matchPrefix hc)
  rcases hb : blocksFor tokens.length a₂.geometry.blockSize with e | needed
  · simp only [bind_get, hb] at h
    cases h
  · simp only [bind_get, hb] at h
    obtain ⟨fresh, a₃, -, h⟩ := bind_eq_ok.mp h
    cases h
    exact ⟨fresh, by rw [hmatched, ha₂.geometry]⟩

/-- Every reused block was put into the cache by a commit for the tokens that it
is reused for, or for others that are mistaken for them. -/
theorem reused_committed_or_mistaken (hnew : newWith hash g = .ok a) (calls : List Call)
    {tokens : List UInt32} {grant : Grant} {a' : Allocator}
    (hgrant : mallocWithCache tokens true (play a calls) = .ok grant a') {i : Nat}
    (hi : (i + 1) * g.blockSize ≤ grant.reused) :
    (i + 1) * g.blockSize ≤ tokens.length ∧ ∃ b, grant.ids[i]? = some b ∧
      ∃ m : Commit, m.Puts b a calls ∧
        ((m.ids[i]? = some b ∧
            m.tokens.take ((i + 1) * g.blockSize) = tokens.take ((i + 1) * g.blockSize)) ∨
          ∃ j, m.ids[j]? = some b ∧ m.Mistaken hash g.blockSize j tokens i) := by
  have hpos : 0 < g.blockSize := (newWith_eq_ok hnew).1
  have hrec := recorded_play hnew calls
  generalize play a calls = s at hgrant hrec
  obtain ⟨fresh, rfl⟩ := hrec.grant_eq hgrant
  have hlt : i < (s.matched tokens true).1.length := Nat.le_of_mul_le_mul_right hi hpos
  obtain ⟨k, t, hk, ht, hmem⟩ := matched_hit (List.getElem?_eq_getElem hlt)
  rw [hrec.chains, hrec.blockSize] at hk
  rw [hrec.blockSize] at ht
  have hfits : ∀ {xs : List UInt32} {n : Nat} {t : List UInt32},
      (fullBlocks g.blockSize xs)[n]? = some t → (n + 1) * g.blockSize ≤ xs.length := by
    intro xs n t hn
    rw [getElem?_fullBlocks hpos] at hn
    by_contra hout
    rw [if_neg hout] at hn
    simp at hn
  -- the matched blocks come first in the grant
  refine ⟨hfits ht, (s.matched tokens true).1[i], ?_, ?_⟩
  · show ((s.matched tokens true).1 ++ fresh)[i]? = _
    rw [List.getElem?_append_left hlt, List.getElem?_eq_getElem hlt]
  · obtain ⟨m, hputs, j, P⟩ := hrec.placed _ hmem
    refine ⟨m, hputs, ?_⟩
    by_cases hsame : m.tokens.take ((j + 1) * g.blockSize) = tokens.take ((i + 1) * g.blockSize)
    · -- equal prefixes are equally long, so the position is the same
      have hlength := congrArg List.length hsame
      rw [List.length_take_of_le (hfits P.tokens), List.length_take_of_le (hfits ht)] at hlength
      have hij : j = i := by
        have := Nat.eq_of_mul_eq_mul_right hpos hlength
        omega
      subst hij
      exact Or.inl ⟨P.block, hsame⟩
    · exact Or.inr ⟨j, P.block, hsame, P.name.trans hk.symm, P.tokens.trans ht.symm⟩

/-! ### A mistaken match -/

/-- A chain of two blocks is committed, its first block is evicted, and another
block of tokens of the same hash is committed as the first of a chain. -/
def replacedParent : List Call :=
  [.malloc 2, .freeWithCache [4055170728, 1868223811, 7, 8] [1, 2], .malloc 3,
    .insert [760266323, 3722183212] [3], .free [4, 1]]

/-- The second block of the first chain is then reused after the other parent,
although nobody has committed it for that prefix. -/
theorem replaced_parent_mistaken :
    let tokens := [760266323, 3722183212, 7, 8, 9]
    ∃ a grant a', newWith chainHash { blocks := 5, blockSize := 2 } = .ok a ∧
      mallocWithCache tokens true (play a replacedParent) = .ok grant a' ∧
      (1 + 1) * 2 ≤ grant.reused ∧ grant.ids[1]? = some 2 ∧
      (∀ m : Commit, m.Puts 2 a replacedParent → m.ids[1]? = some 2 →
        m.tokens.take ((1 + 1) * 2) ≠ tokens.take ((1 + 1) * 2)) ∧
      ∃ m : Commit, m.Puts 2 a replacedParent ∧
        ∃ j, m.ids[j]? = some 2 ∧ m.Mistaken chainHash 2 j tokens 1 := by
  intro tokens
  have hrun : (newWith chainHash { blocks := 5, blockSize := 2 }).toOption.map
      (fun a => match mallocWithCache tokens true (play a replacedParent) with
        | .ok grant _ => some (grant.ids, grant.reused)
        | .error _ _ => none) = some (some ([3, 2, 4], 4)) := by decide +kernel
  obtain ⟨a, hnew, hgrant⟩ := exists_newWith hrun
  obtain ⟨a', hgrant⟩ : ∃ a', mallocWithCache tokens true (play a replacedParent)
      = .ok ⟨[3, 2, 4], 4⟩ a' := by
    rcases hok : mallocWithCache tokens true (play a replacedParent) with ⟨⟨ids, n⟩, a'⟩ | ⟨e, a'⟩
    · rw [hok] at hgrant
      cases hgrant
      exact ⟨a', rfl⟩
    · rw [hok] at hgrant
      cases hgrant
  have hnever : ∀ m ∈ commits replacedParent, m.ids[1]? = some 2 →
      m.tokens.take ((1 + 1) * 2) ≠ tokens.take ((1 + 1) * 2) := by decide +kernel
  refine ⟨a, ⟨[3, 2, 4], 4⟩, a', hnew, hgrant, Nat.le_refl 4, rfl,
    fun m hm => hnever m hm.mem_commits, ?_⟩
  obtain ⟨-, b, hb, m, hputs, h⟩ :=
    reused_committed_or_mistaken hnew replacedParent hgrant (show (1 + 1) * 2 ≤ 4 by decide)
  obtain rfl : 2 = b := Option.some.inj hb
  rcases h with ⟨hid, hsame⟩ | hmistaken
  · exact absurd hsame (hnever m hputs.mem_commits hid)
  · exact ⟨m, hputs, hmistaken⟩

end Allocator

end PagedServe
