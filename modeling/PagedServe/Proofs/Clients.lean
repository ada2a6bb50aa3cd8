/-
PagedServe/Proofs/Clients.lean

An allocator with any number of clients.

A `World` is an allocator together with the references that its clients have in hand:
what a call returned to a client, until the client gave it back.  Clients call in any
order and with any arguments, but are honest (`World.Honest`): they give back no more
than they have, and commit blocks that they have.

Each call does to the ledger of the allocator what it does to the hands of its client
(`Books.carry`).  So the references of the pool are at any time those in the hands of
clients and those of the cache, one for each entry, whoever shares what with whom.

Main statement: then no call of an honest client ever finds the books in disorder, and a
block that is handed out as fresh was in nobody's hands (`honest_clients_accounted`).
-/
import PagedServe.Proofs.Provenance
import Mathlib.Data.List.Count

namespace PagedServe

namespace Allocator

/-- Clients are told apart by number. -/
abbrev Client := Nat

/-- What a call moves between the allocator and the hands of its client. -/
structure Transfer where
  received : List Nat := []
  /-- The blocks received that were not reused. -/
  fresh : List Nat := []
  returned : List Nat := []

/-- Carry out a call. -/
def carry : Call → AllocM Transfer
  | .malloc n => do
    let ids ← malloc n
    return { received := ids, fresh := ids }
  | .mallocWithCache tokens reuse => do
    let grant ← mallocWithCache tokens reuse
    let size := (← get).geometry.blockSize
    -- the reused blocks come first
    return { received := grant.ids, fresh := grant.ids.drop (grant.reused / size) }
  | .free ids => do
    let _ ← free ids
    return { returned := ids }
  | .insert tokens ids => do
    insertIntoCache tokens ids
    return {}
  | .freeWithCache tokens ids => do
    let _ ← freeWithCache tokens ids
    return { returned := ids }
  | .clearCache order => do
    let _ ← clearCache order
    return {}

/-- The call asks for blocks. -/
def Call.asks : Call → Bool
  | .malloc _ | .mallocWithCache .. => true
  | _ => false

/-- An allocator, and who has which references in hand: an entry for each. -/
structure World where
  allocator : Allocator
  held : List (Client × Nat)

namespace World

/-- The blocks in the hands of clients, once for each reference. -/
def blocks (w : World) : List Nat := w.held.map Prod.snd

/-- The references on a block: those in the hands of clients, and those of the cache. -/
def references (w : World) (b : Nat) : Nat := w.blocks.count b + w.allocator.cache.blocks.count b

/-- The client gives back only references that it has, and commits only blocks that it
has. -/
def Allowed (w : World) (c : Client) : Call → Prop
  | .free ids | .freeWithCache _ ids => ∀ b ∈ ids, ids.count b ≤ w.held.count (c, b)
  | .insert _ ids => ∀ b ∈ ids, (c, b) ∈ w.held
  | .malloc _ | .mallocWithCache .. | .clearCache _ => True

/-- What a client has in hand after it received and returned some blocks. -/
def exchange (held : List (Client × Nat)) (c : Client) (t : Transfer) : List (Client × Nat) :=
  t.received.map (Prod.mk c) ++ held.diff (t.returned.map (Prod.mk c))

/-- The world after a call of a client, failed or not. -/
def serve (w : World) (c : Client) (call : Call) : World :=
  match carry call w.allocator with
  | .ok t a => ⟨a, exchange w.held c t⟩
  | .error _ a => ⟨a, w.held⟩

/-- The world after calls of several clients, in the order in which they are served. -/
def serveAll (w : World) (calls : List (Client × Call)) : World :=
  calls.foldl (fun w call => w.serve call.1 call.2) w

/-- Every call is allowed when its client makes it. -/
def Honest (w : World) : List (Client × Call) → Prop
  | [] => True
  | (c, call) :: calls => w.Allowed c call ∧ (w.serve c call).Honest calls

instance (w : World) (c : Client) : (call : Call) → Decidable (w.Allowed c call)
  | .free ids | .freeWithCache _ ids =>
    inferInstanceAs (Decidable (∀ b ∈ ids, ids.count b ≤ w.held.count (c, b)))
  | .insert _ ids => inferInstanceAs (Decidable (∀ b ∈ ids, (c, b) ∈ w.held))
  | .malloc _ | .mallocWithCache .. | .clearCache _ => isTrue trivial

instance decidableHonest : (w : World) → (calls : List (Client × Call)) → Decidable (w.Honest calls)
  | _, [] => isTrue trivial
  | w, (c, call) :: calls =>
    have := decidableHonest (w.serve c call) calls
    inferInstanceAs (Decidable (w.Allowed c call ∧ (w.serve c call).Honest calls))

variable {w : World} {c : Client} {call : Call}

/-! ### One call -/

/-- What becomes of the blocks in all hands together. -/
theorem count_exchange (held : List (Client × Nat)) {t : Transfer}
    (hhas : ∀ b ∈ t.returned, t.returned.count b ≤ held.count (c, b)) (b : Nat) :
    t.returned.count b + ((exchange held c t).map Prod.snd).count b
      = t.received.count b + (held.map Prod.snd).count b := by
  -- what is given back and what is left make up what was held
  have hperm : (t.returned.map (Prod.mk c) ++ held.diff (t.returned.map (Prod.mk c))).Perm held := by
    refine List.subperm_append_diff_self_of_count_le fun x hx => ?_
    obtain ⟨b, hb, rfl⟩ := List.mem_map.mp hx
    rw [List.count_map_of_injective _ _ fun _ _ heq => (Prod.mk.inj heq).2]
    exact hhas b hb
  have hsnd : ∀ l : List Nat, (l.map (Prod.mk c)).map Prod.snd = l := fun l => by
    rw [List.map_map]
    exact List.map_id l
  rw [← (hperm.map Prod.snd).count_eq, exchange, List.map_append, List.map_append,
    List.count_append, List.count_append, hsnd, hsnd]
  omega

/-- The books of a world: everything in hand is accounted for. -/
def Books (w : World) : Prop := w.allocator.Ledger w.blocks

/-- Blocks that were handed out are in the hands of the client that asked for them. -/
theorem Books.received {a : Allocator} {t : Transfer} (L : a.Ledger (t.received ++ w.blocks))
    (ht : t.returned = []) : Books ⟨a, exchange w.held c t⟩ := by
  refine L.congr fun b => ?_
  have hcount := count_exchange (c := c) w.held (t := t) (by simp [ht]) b
  rw [ht, List.count_nil, Nat.zero_add] at hcount
  rw [List.count_append]
  exact hcount

/-- What a client may give back is in the books, beside what stays in all hands. -/
theorem Books.returned {ids : List Nat} (B : w.Books)
    (hhas : ∀ b ∈ ids, ids.count b ≤ w.held.count (c, b)) :
    w.allocator.Ledger (ids ++ (exchange w.held c { returned := ids }).map Prod.snd) := by
  refine Ledger.congr B fun b => ?_
  rw [List.count_append, count_exchange _ (t := { returned := ids }) hhas, List.count_nil,
    Nat.zero_add]
  rfl

/-- An allowed call moves what it says and keeps the books, or it asks for more blocks than
there are. -/
theorem Books.carry (B : w.Books) (hallowed : w.Allowed c call) :
    (∃ t a, Allocator.carry call w.allocator = .ok t a ∧ Books ⟨a, exchange w.held c t⟩ ∧
      SameShape w.allocator a ∧ ∀ b ∈ t.fresh, b ∉ w.blocks) ∨
    call.asks = true ∧ ∃ e a, Allocator.carry call w.allocator = .error e a ∧
      e.isInsufficientMemory = true ∧ Books ⟨a, w.held⟩ ∧ SameShape w.allocator a := by
  have L : w.allocator.Ledger w.blocks := B
  cases call with
  | malloc n =>
    rcases Nat.lt_or_ge w.allocator.availableCount n with hshort | henough
    · exact Or.inr ⟨rfl, _, _, bind_of_error (malloc_short L hshort), rfl, B, .refl _⟩
    · obtain ⟨ids, a, hok, -, H⟩ := L.malloc_ok henough
      refine Or.inl ⟨{ received := ids, fresh := ids }, a, ?_, ?_, H.shape, H.unheld⟩
      · exact (bind_of_ok hok).trans rfl
      · exact .received H.ledger rfl
  | mallocWithCache tokens reuse =>
    rcases L.mallocWithCache tokens reuse with ⟨grant, a, hok, G, -⟩ | ⟨e, a, n, herr, he, N, -⟩
    · refine Or.inl ⟨_, a, (bind_of_ok hok).trans rfl, .received G.ledger rfl, G.shape, ?_⟩
      -- a fresh block has the one reference of the client that it went to
      intro b hb hheld
      obtain ⟨matched, fresh, hids, hreused, hone, -⟩ := G.parts
      replace hb : b ∈ grant.ids.drop (grant.reused / a.geometry.blockSize) := hb
      rw [G.shape.geometry, hreused, Nat.mul_div_cancel _ L.sizePos, hids, List.drop_left] at hb
      have hbalance := G.ledger.balance b
      have hfresh : 0 < grant.ids.count b :=
        List.count_pos_iff.mpr (hids ▸ List.mem_append_right matched hb)
      have hhand : 0 < w.blocks.count b := List.count_pos_iff.mpr hheld
      rw [hone b hb, List.count_append] at hbalance
      omega
    · exact Or.inr ⟨rfl, e, a, bind_of_error herr, he, N.ledger, N.shape⟩
  | free ids =>
    -- the client's references are off the books of all hands before the call
    have L' := (B.returned hallowed).release
    exact Or.inl ⟨{ returned := ids }, _, (bind_of_ok (free_eq_ok _ _)).trans rfl, L', ⟨rfl, rfl⟩,
      fun b hb => absurd hb List.not_mem_nil⟩
  | insert tokens ids =>
    have hheld : ∀ b ∈ ids, b ∈ w.blocks := fun b hb =>
      List.mem_map.mpr ⟨(c, b), hallowed b hb, rfl⟩
    obtain ⟨a, hok, C⟩ := L.insertIntoCache tokens hheld
    exact Or.inl ⟨{}, a, (bind_of_ok hok).trans rfl, .received C.ledger rfl, C.shape,
      fun b hb => absurd hb List.not_mem_nil⟩
  | freeWithCache tokens ids =>
    obtain ⟨n, a, hok, C⟩ := (B.returned hallowed).freeWithCache tokens
    exact Or.inl ⟨{ returned := ids }, a, (bind_of_ok hok).trans rfl, C.ledger, C.shape,
      fun b hb => absurd hb List.not_mem_nil⟩
  | clearCache order =>
    obtain ⟨n, a, hok, N, -⟩ := L.clearCache order
    exact Or.inl ⟨{}, a, (bind_of_ok hok).trans rfl, .received N.ledger rfl, N.shape,
      fun b hb => absurd hb List.not_mem_nil⟩

/-- Allowed calls keep the books, also when they fail. -/
theorem Books.serve (B : w.Books) (hallowed : w.Allowed c call) :
    (w.serve c call).Books ∧ SameShape w.allocator (w.serve c call).allocator := by
  unfold World.serve
  rcases B.carry hallowed with ⟨t, a, hok, B', hshape, -⟩ | ⟨-, e, a, herr, -, B', hshape⟩
  · rw [hok]
    exact ⟨B', hshape⟩
  · rw [herr]
    exact ⟨B', hshape⟩

/-! ### Any number of calls -/

theorem Books.serveAll {calls : List (Client × Call)} (B : w.Books) (hhonest : w.Honest calls) :
    (w.serveAll calls).Books ∧ SameShape w.allocator (w.serveAll calls).allocator := by
  induction calls generalizing w with
  | nil => exact ⟨B, .refl _⟩
  | cons call calls ih =>
    obtain ⟨hallowed, hrest⟩ := hhonest
    obtain ⟨B', hshape⟩ := B.serve hallowed
    obtain ⟨B'', hshape'⟩ := ih B' hrest
    exact ⟨B'', hshape.trans hshape'⟩

/-- After any calls of honest clients a usable block has as many references as there are in
the hands of clients and entries of the cache on it, no other block has any, and the books
pass the check.  Whatever honest call comes next succeeds, and what it hands out as fresh is
in nobody's hands; or it asks for blocks and fails for lack of memory. -/
theorem honest_clients_accounted {hash : ChainHash} {g : Geometry} {a : Allocator}
    (hnew : newWith hash g = .ok a) {calls : List (Client × Call)}
    (hhonest : Honest ⟨a, []⟩ calls) :
    let w := serveAll ⟨a, []⟩ calls
    (∀ b, 0 < b → b < g.blocks → w.allocator.pool.refCount? b = some (w.references b)) ∧
    (∀ b, 0 < w.references b → 0 < b ∧ b < g.blocks) ∧
    w.allocator.check = .ok () ∧
    ∀ c call, w.Allowed c call →
      (∃ t a', Allocator.carry call w.allocator = .ok t a' ∧ ∀ b ∈ t.fresh, ∀ d, (d, b) ∉ w.held) ∨
      call.asks = true ∧ ∃ e a', Allocator.carry call w.allocator = .error e a' ∧
        e.isInsufficientMemory = true := by
  intro w
  obtain ⟨B, hshape⟩ : w.Books ∧ SameShape a w.allocator :=
    Books.serveAll (w := ⟨a, []⟩) (ledger_newWith hnew) hhonest
  have L : w.allocator.Ledger w.blocks := B
  have hgeometry : w.allocator.geometry = g := hshape.geometry.trans (newWith_eq_ok hnew).2.1
  refine ⟨fun b _ hlt => ?_, fun b hpos => ?_, L.check, fun c call hallowed => ?_⟩
  · -- the references on a usable block
    rw [show w.references b = w.allocator.pool.refsOf b from (L.balance b).symm]
    exact Pool.refCount?_eq_some_refsOf (by rw [L.total, hgeometry]; exact hlt)
  · -- no others are referred to
    rw [← hgeometry]
    exact L.usable_of_refsOf (Nat.lt_of_lt_of_eq hpos (L.balance b).symm)
  · -- the next call
    rcases B.carry hallowed with ⟨t, a', hok, -, -, hfresh⟩ | ⟨hasks, e, a', herr, he, -⟩
    · refine Or.inl ⟨t, a', hok, fun b hb d hd => hfresh b hb ?_⟩
      exact List.mem_map.mpr ⟨(d, b), hd, rfl⟩
    · exact Or.inr ⟨hasks, e, a', herr, he⟩

/-- Two clients share the blocks of a prefix and give them back, one after it has committed
them. -/
def sharing : List (Client × Call) :=
  [(0, .mallocWithCache [1, 2, 3, 4, 5] true), (0, .insert [1, 2, 3, 4, 5] [1, 2, 3]),
    (1, .mallocWithCache [1, 2, 3, 4, 6] true), (0, .freeWithCache [1, 2, 3, 4, 5] [1, 2, 3]),
    (1, .free [4, 1])]

/-- The second client has one block left.  A third one that asks for three blocks gets the
one that only the cache refers to, and not this one. -/
theorem honest_clients_accounted_sharing :
    ∃ a, newWith chainHash { blocks := 5, blockSize := 2 } = .ok a ∧
      Honest ⟨a, []⟩ sharing ∧
      let w := serveAll ⟨a, []⟩ sharing
      w.held = [(1, 2)] ∧ w.allocator.cache.blocks = [1, 2] ∧
      w.allocator.pool.refCount? 2 = some 2 ∧
      ∃ t a', Allocator.carry (.malloc 3) w.allocator = .ok t a' ∧ t.fresh = [3, 4, 1] ∧
        ∀ b ∈ t.fresh, ∀ d, (d, b) ∉ w.held := by
  have hrun : (newWith chainHash { blocks := 5, blockSize := 2 }).toOption.map
      (fun a =>
        let w := serveAll ⟨a, []⟩ sharing
        (decide (Honest ⟨a, []⟩ sharing), w.held, w.allocator.cache.blocks,
          match Allocator.carry (.malloc 3) w.allocator with
          | .ok t _ => some t.fresh
          | .error _ _ => none))
      = some (true, [(1, 2)], [1, 2], some [3, 4, 1]) := by decide +kernel
  obtain ⟨a, hnew, hfacts⟩ := exists_newWith hrun
  simp only [Prod.mk.injEq, decide_eq_true_eq] at hfacts
  obtain ⟨hhonest, hheld, hcached, hcarry⟩ := hfacts
  obtain ⟨hrefs, -, -, hnext⟩ := honest_clients_accounted hnew hhonest
  refine ⟨a, hnew, hhonest, hheld, hcached, ?_, ?_⟩
  · rw [hrefs 2 (by decide) (by decide), references, blocks, hheld, hcached]
    rfl
  · rcases hnext 2 (.malloc 3) trivial with ⟨t, a', hok, hfresh⟩ | ⟨-, e, a', herr, -⟩
    · rw [hok] at hcarry
      exact ⟨t, a', hok, Option.some.inj hcarry, hfresh⟩
    · rw [herr] at hcarry
      cases hcarry

end World

end Allocator

end PagedServe
