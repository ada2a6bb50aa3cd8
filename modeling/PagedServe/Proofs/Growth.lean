/-
PagedServe/Proofs/Growth.lean

The growth pass is a run of steps and never fails.

`tryGrow` either gives a stream all it is missing or finds the allocator short
and changes nothing.  So `growOver` takes the newest live stream off the batch
again and again; each round shortens what stands behind the stream or is the last
(`growOver_steps`).

The pass goes over positions.  A round at a position leaves the streams before it
where they are and either settles the stream there, which then holds a block for
every token counted, or takes it off the batch (`growAt_steps`).  What is behind
the position gets shorter each time, so the bound on the rounds is never reached.
Later rounds unsettle no one (`Step.settled`), so after the pass every live stream
of the batch is settled (`growRunning_steps`).  The same goes for anything else that a
round establishes and later steps keep (`growRunning_rounds`).
-/
import PagedServe.Proofs.Steps

namespace PagedServe

namespace Scheduler

variable {s s' : Scheduler} {h k : Handle}

/-! ### Operations on one part -/

section Part

variable {α : Type} {x : AllocM α} {a : Allocator}

theorem onAllocator_of_ok {r : α} (hx : x s.allocator = .ok r a) :
    onAllocator x s = .ok r { s with allocator := a } := by
  simp only [onAllocator, hx]

theorem onAllocator_of_error {e : Failure} (hx : x s.allocator = .error e a) :
    onAllocator x s = .error e { s with allocator := a } := by
  simp only [onAllocator, hx]

theorem ofResult_of_ok {r : Except Failure α} {v : α} (hr : r = .ok v) :
    ofResult r s = .ok v s := by
  rw [hr]
  rfl

end Part

theorem checkTimeout_eq (s : Scheduler) (h : Handle) :
    checkTimeout h s = .ok () (s.setStream h ((s.stream h).checkTimeout s.now)) := rfl

theorem update_eq (s : Scheduler) (h : Handle) (f : Stream → Stream) :
    update h f s = .ok () (s.setStream h (f (s.stream h))) := rfl

/-- Blocks can be dropped by the one who holds them. -/
theorem onAllocator_free {ids held : List Nat} (L : s.allocator.Ledger (ids ++ held)) :
    ∃ n a, onAllocator (Allocator.free ids) s = .ok n { s with allocator := a } ∧
      Allocator.Neutral s.allocator held a ∧ a.cache = s.allocator.cache :=
  ⟨_, _, onAllocator_of_ok (Allocator.free_eq_ok _ _), ⟨L.release, ⟨rfl, rfl⟩, .refl _⟩, rfl⟩

/-! ### Settled streams -/

/-- The stream holds a block for every token that it counts. -/
def Settled (s : Scheduler) (h : Handle) : Prop :=
  (s.stream h).missingBlocks s.blockSize = .ok 0

theorem missingBlocks_eq_ok (x : Stream) {size : Nat} (hs : 0 < size) :
    x.missingBlocks size = .ok ((x.seqLength + size - 1) / size - x.table.ids.length) := by
  rw [Stream.missingBlocks, blocksFor_eq_ok _ hs]
  rfl

/-- Only the length and the table count. -/
theorem missingBlocks_congr {x y : Stream} (hl : y.seqLength = x.seqLength)
    (ht : y.table.ids = x.table.ids) (size : Nat) :
    y.missingBlocks size = x.missingBlocks size := by
  rw [Stream.missingBlocks, Stream.missingBlocks, hl, ht]

/-- The live streams of the batch are settled, as far as this handle goes. -/
def LiveSettled (s : Scheduler) (h : Handle) : Prop :=
  h ∈ s.running → s.isLive h = true → s.Settled h

/-- A handle that is put back with the same length and blocks, or not at all. -/
theorem LiveSettled.setStream {x : Stream} {a : Allocator} {running waiting : List Handle}
    (hk : s.LiveSettled k) (hx : Stream.Continues (s.stream h) x)
    (hl : x.seqLength = (s.stream h).seqLength) (hg : a.geometry = s.allocator.geometry)
    (hrun : ∀ j ∈ running, j ∈ s.running) :
    LiveSettled { s.setStream h x with
      allocator := a, running := running, waiting := waiting } k := by
  intro hrun' hlive'
  have hcont := continues_setStream hx k
  -- a stream that is live now was live before
  have hlive : s.isLive k = true := by
    rcases hl : s.isLive k with - | -
    · have hend := hcont.isTerminal (not_isLive_iff.mp hl)
      have hcon : (!((s.setStream h x).stream k).isTerminal) = true := hlive'
      rw [hend] at hcon
      simp at hcon
    · rfl
  have hlength : ((s.setStream h x).stream k).seqLength = (s.stream k).seqLength := by
    rw [stream_setStream]
    split
    case isTrue heq =>
      rw [heq.1]
      exact hl
    case isFalse => rfl
  have hset := hk (hrun k hrun') hlive
  rw [Settled, ← missingBlocks_congr hlength (congrArg BlockTable.ids hcont.table)] at hset
  show ((s.setStream h x).stream k).missingBlocks a.geometry.blockSize = _
  rw [hg]
  exact hset

/-- A handle that a change leaves alone. -/
theorem LiveSettled.of_ne {x : Stream} {a : Allocator} {running waiting : List Handle}
    (hk : s.LiveSettled k) (hne : k ≠ h) (hg : a.geometry = s.allocator.geometry)
    (hrun : ∀ j ∈ running, j ∈ s.running) :
    LiveSettled { s.setStream h x with
      allocator := a, running := running, waiting := waiting } k := by
  have hsame : (s.setStream h x).stream k = s.stream k := stream_setStream_of_ne hne
  intro hrun' hlive'
  have hlive : (!((s.setStream h x).stream k).isTerminal) = true := hlive'
  rw [hsame] at hlive
  show ((s.setStream h x).stream k).missingBlocks a.geometry.blockSize = _
  rw [hsame, hg]
  exact hk (hrun k hrun') hlive

/-- A stream is settled once it is given what it is missing. -/
theorem settled_grow {ids : List Nat} {a : Allocator} (hh : h < s.streams.size)
    (hpos : 0 < s.blockSize) (hg : a.geometry = s.allocator.geometry)
    (hmissing : (s.stream h).missingBlocks s.blockSize = .ok ids.length) :
    Settled { s.setStream h ((s.stream h).grow ids) with allocator := a } h := by
  rw [missingBlocks_eq_ok _ hpos] at hmissing
  have hlength := Except.ok.inj hmissing
  have hsize : a.geometry.blockSize = s.blockSize := congrArg Geometry.blockSize hg
  show ((s.setStream h ((s.stream h).grow ids)).stream h).missingBlocks a.geometry.blockSize = _
  rw [stream_setStream_self hh, hsize, missingBlocks_eq_ok _ hpos, Stream.grow_ids,
    List.length_append]
  show Except.ok (((s.stream h).seqLength + s.blockSize - 1) / s.blockSize - _) = _
  rw [← hlength]
  exact congrArg Except.ok (by omega)

/-- A step of the growth pass unsettles no live stream of the batch. -/
theorem Step.settled (hstep : Step .growth s s') (B : s.Books) (hk : s.LiveSettled k) :
    s'.LiveSettled k := by
  have herase : ∀ h, ∀ j ∈ s.running.erase h, j ∈ s.running := fun _ _ => List.mem_of_mem_erase
  cases hstep with
  | expire hrun =>
    exact hk.setStream (Stream.continues_checkTimeout _ _)
      (Stream.sameTokens_checkTimeout _ _).seqLength rfl
      fun _ hj => hj
  | @grow _ h ids a hrun hlive hmissing ha =>
    by_cases hkh : k = h
    · subst hkh
      exact fun _ _ => settled_grow (B.known k hrun) B.blockSize_pos ha.shape.geometry hmissing
    · exact hk.of_ne hkh ha.shape.geometry fun _ hj => hj
  | commit hrun hlive hreuse hmissing ha =>
    exact hk.setStream (Stream.continues_setCommitted _ _) rfl ha.shape.geometry fun _ hj => hj
  | @preempt _ h older a hnewest holder ha =>
    -- the victim is no longer in the batch
    intro hrun
    exact hk.of_ne (fun he => not_mem_erase B.nodup (he ▸ hrun)) ha.shape.geometry (herase h) hrun
  | @abandon _ h n a honly hmissing hshort ha =>
    intro hrun
    exact hk.of_ne (fun he => not_mem_erase B.nodup (he ▸ hrun)) ha.shape.geometry (herase h) hrun

theorem Steps.settled (hsteps : Steps .growth s s') (B : s.Books) (hk : s.LiveSettled k) :
    s'.LiveSettled k := by
  have hboth := hsteps.keeps (P := fun s => s.Books ∧ s.LiveSettled k)
    (fun hstep hs => ⟨hstep.books hs.1, hstep.settled hs.1 hs.2⟩) ⟨B, hk⟩
  exact hboth.2

/-! ### Growing one stream -/

/-- Nothing is cached that was not cached before. -/
abbrev CachesOnly (s' s : Scheduler) : Prop :=
  s'.allocator.cache.content.Sublist s.allocator.cache.content

/-- Either the stream is given what it is missing, or the allocator is short and
nothing happens. -/
theorem tryGrow_steps (B : s.Books) (hrun : h ∈ s.running) (hlive : s.isLive h = true) :
    (∃ s', tryGrow h s = .ok true s' ∧ Steps .growth s s' ∧ s'.CachesOnly s ∧
        s'.running = s.running ∧ s'.isLive h = true ∧ s'.Settled h) ∨
      ∃ n, (s.stream h).missingBlocks s.blockSize = .ok n ∧ s.allocator.availableCount < n ∧
        tryGrow h s = .ok false s := by
  generalize hn : (((s.stream h).seqLength + s.blockSize - 1) / s.blockSize
    - (s.stream h).table.ids.length) = n
  have hmissing : (s.stream h).missingBlocks s.blockSize = .ok n := by
    rw [missingBlocks_eq_ok _ B.blockSize_pos, hn]
  have hopen : tryGrow h s = (if n = 0 then return true
      else tryCatch
        (do
          let ids ← onAllocator (Allocator.malloc n)
          update h (Stream.grow ids)
          return true)
        fun e => if e.isInsufficientMemory then return false else throw e : SchedM Bool) s := by
    unfold tryGrow
    simp only [bind_get, bind_of_ok (ofResult_of_ok hmissing)]
  rw [hopen]
  -- nothing missing, too little available, or served
  by_cases hzero : n = 0
  · rw [if_pos hzero]
    exact Or.inl ⟨s, rfl, .refl, .refl _, rfl, hlive, by rw [Settled, hmissing, hzero]⟩
  rw [if_neg hzero]
  rcases Nat.lt_or_ge s.allocator.availableCount n with hshort | henough
  · refine Or.inr ⟨n, hmissing, hshort, ?_⟩
    have hfail := onAllocator_of_error (Allocator.malloc_short B.ledger hshort)
    rw [tryCatch_of_error (bind_of_error hfail)]
    rfl
  · obtain ⟨ids, a, hok, rfl, H⟩ := B.ledger.malloc_ok henough
    have hstep := Step.grow hrun hlive hmissing H
    refine Or.inl ⟨_, ?_, .single hstep, H.content, rfl, (isLive_self (B.known h hrun)).trans hlive,
      settled_grow (B.known h hrun) B.blockSize_pos H.shape.geometry hmissing⟩
    rw [tryCatch_of_ok]
    rw [bind_of_ok (onAllocator_of_ok hok), bind_of_ok (update_eq _ _ _)]
    rfl

/-! ### Giving way -/

/-- The last item that passes a test, if there is one. -/
theorem exists_last (test : Handle → Bool) (l : List Handle) :
    (∀ k ∈ l, test k = false) ∨
      ∃ front v back, l = front ++ v :: back ∧ test v = true ∧ ∀ k ∈ back, test k = false := by
  induction l with
  | nil => exact Or.inl fun _ hk => absurd hk List.not_mem_nil
  | cons h l ih =>
    -- the tail's last one is the list's; if there is none, the head may be
    rcases ih with hnone | ⟨front, v, back, rfl, hv, hback⟩
    · rcases hh : test h with - | -
      · refine Or.inl fun k hk => ?_
        rcases List.mem_cons.mp hk with rfl | hk
        · exact hh
        · exact hnone k hk
      · exact Or.inr ⟨[], h, l, rfl, hh, hnone⟩
    · exact Or.inr ⟨h :: front, v, back, rfl, hv, hback⟩

theorem lastPosition_eq_none {test : Handle → Bool} {l : List Handle}
    (hl : ∀ k ∈ l, test k = false) : lastPosition test l = none := by
  induction l with
  | nil => rfl
  | cons h l ih =>
    have hrest := ih fun k hk => hl k (List.mem_cons_of_mem h hk)
    rw [lastPosition, hrest]
    simp only [hl h List.mem_cons_self, Bool.false_eq_true, if_false]

theorem lastPosition_append {test : Handle → Bool} (front : List Handle) {v : Handle}
    {back : List Handle} (hv : test v = true) (hback : ∀ k ∈ back, test k = false) :
    lastPosition test (front ++ v :: back) = some front.length := by
  induction front with
  | nil =>
    rw [List.nil_append, lastPosition, lastPosition_eq_none hback]
    simp only [hv, if_true, List.length_nil]
  | cons h front ih =>
    rw [List.cons_append, lastPosition, ih]
    rfl

theorem filter_last {test : Handle → Bool} (front : List Handle) {v : Handle} {back : List Handle}
    (hv : test v = true) (hback : ∀ k ∈ back, test k = false) :
    (front ++ v :: back).filter test = front.filter test ++ [v] := by
  have hnone : back.filter test = [] :=
    List.filter_eq_nil_iff.mpr fun k hk => by rw [hback k hk]; simp
  rw [List.filter_append, List.filter_cons_of_pos hv, hnone]

section Position

variable {front back : List Handle}

theorem erase_at (hd : s.running.Nodup) (hsplit : s.running = front ++ h :: back) :
    s.running.erase h = front ++ back := by
  rw [hsplit] at hd ⊢
  have hnot : h ∉ front := fun hmem =>
    (List.nodup_append.mp hd).2.2 h hmem h List.mem_cons_self rfl
  rw [List.erase_append_right _ hnot, List.erase_cons_head]

/-- A stream is taken off the batch by its position. -/
theorem removeAt_eq (hd : s.running.Nodup) (hsplit : s.running = front ++ h :: back) :
    removeAt front.length s = .ok h { s with running := s.running.erase h } := by
  have hitem : Word.item s.running front.length = .ok h := by rw [hsplit, Word.item_append]
  have herase : s.running.eraseIdx front.length = s.running.erase h := by
    rw [erase_at hd hsplit, hsplit, List.eraseIdx_append_of_length_le (Nat.le_refl _), Nat.sub_self]
    rfl
  unfold removeAt
  simp only [bind_get, bind_of_ok (ofResult_of_ok hitem), bind_modify, herase]
  rfl

/-- The newest of several live streams is preempted. -/
theorem preempt_step (B : s.Books) (hsplit : s.running = front ++ h :: back)
    (hlive : s.isLive h = true) (hback : ∀ k ∈ back, s.isLive k = false)
    (hmany : front.filter s.isLive ≠ []) :
    ∃ s', (removeAt front.length >>= preempt) s = .ok () s' ∧ Step .growth s s' ∧
      s'.CachesOnly s ∧ s'.running = front ++ back ∧ ∀ k, k ≠ h → s'.isLive k = s.isLive k := by
  have hrun : h ∈ s.running := hsplit ▸ List.mem_append_right _ List.mem_cons_self
  -- nobody behind it is live, so it is the last of the live ones
  have hnewest : s.running.filter s.isLive = front.filter s.isLive ++ [h] := by
    rw [hsplit, filter_last front hlive hback]
  have hsuspend : (stream { s with running := s.running.erase h } h).suspend
      = .ok (s.blocksOf h, (s.stream h).suspended) :=
    Stream.suspend_eq_ok (B.running_of_live hrun hlive)
  obtain ⟨n, a, hfree, ha, -⟩ := onAllocator_free (s := setStream h (s.stream h).suspended
    { s with running := s.running.erase h }) (B.ledger_of_mem hrun)
  refine ⟨_, ?_, Step.preempt hnewest hmany ha, ha.content, erase_at B.nodup hsplit, fun k hk =>
    isLive_of_ne hk⟩
  rw [bind_of_ok (removeAt_eq B.nodup hsplit)]
  unfold preempt
  simp only [bind_get, hsuspend, bind_of_ok (update_eq _ _ _), bind_of_ok hfree]
  rfl

/-- The only live stream is abandoned. -/
theorem abandon_step (B : s.Books) (hsplit : s.running = front ++ h :: back)
    (honly : s.running.filter s.isLive = [h]) {n : Nat}
    (hmissing : (s.stream h).missingBlocks s.blockSize = .ok n)
    (hshort : s.allocator.availableCount < n) :
    ∃ s', abandon h front.length s = .ok () s' ∧ Step .growth s s' ∧ s'.CachesOnly s ∧
      s'.running = front ++ back := by
  have hrun := (live_of_only honly).1
  have htake : ((s.stream h).stop .noMemory).takeBlocks
      = (s.blocksOf h, ((s.stream h).stop .noMemory).emptied) := by
    rw [Stream.takeBlocks_eq, (Stream.continues_stop _ _).table]
    rfl
  obtain ⟨m, a, hfree, ha, -⟩ := onAllocator_free
    (s := s.setStream h ((s.stream h).stop .noMemory).emptied) (B.ledger_of_mem hrun)
  have hremove := removeAt_eq (s := { s.setStream h ((s.stream h).stop .noMemory).emptied with
    allocator := a }) B.nodup hsplit
  refine ⟨_, ?_, Step.abandon honly hmissing hshort ha, ha.content, erase_at B.nodup hsplit⟩
  unfold abandon
  simp only [bind_get, htake, bind_of_ok (update_eq _ _ _), bind_of_ok hfree, bind_of_ok hremove]
  rfl

end Position

/-- A stream grows at the cost of those behind it in the batch, newest first, and
gives way itself if that is not enough.  The streams before it stay where they
are, and nothing is published. -/
theorem growOver_steps (B : s.Books) {older newer : List Handle}
    (hsplit : s.running = older ++ h :: newer) (hlive : s.isLive h = true) {rounds : Nat}
    (hrounds : newer.length < rounds) :
    ∃ grown s' newer', growOver h older.length rounds s = .ok grown s' ∧ Steps .growth s s' ∧
      s'.CachesOnly s ∧ newer'.length ≤ newer.length ∧
      if grown then s'.running = older ++ h :: newer' ∧ s'.isLive h = true ∧ s'.Settled h
      else s'.running = older ++ newer' := by
  -- on the bound: a round that is not the last takes a stream from behind this one
  induction rounds generalizing s newer with
  | zero => exact absurd hrounds (Nat.not_lt_zero _)
  | succ rounds ih =>
    have hrun : h ∈ s.running := hsplit ▸ List.mem_append_right _ List.mem_cons_self
    unfold growOver
    rcases tryGrow_steps B hrun hlive with
      ⟨s', hok, hsteps, honly, hsame, hgrown⟩ | ⟨n, hmissing, hshort, hok⟩
    · refine ⟨true, s', newer, ?_, hsteps, honly, Nat.le_refl _, hsame.trans hsplit, hgrown⟩
      rw [bind_of_ok hok]
      rfl
    simp only [bind_of_ok hok, bind_get, Bool.false_eq_true, if_false]
    rcases exists_last s.isLive newer with hlast | ⟨between, victim, dead, rfl, hvictim, hdead⟩
    · by_cases hmany : older.filter s.isLive = []
      · -- nobody could give way
        have honly : s.running.filter s.isLive = [h] := by
          rw [hsplit, filter_last older hlive hlast, hmany]
          rfl
        have hnone : s.victim? = none := by
          rw [victim?, honly]
          rfl
        obtain ⟨s', hok', hstep, hcached, hrest⟩ := abandon_step B hsplit honly hmissing hshort
        refine ⟨false, s', newer, ?_, .single hstep, hcached, Nat.le_refl _, hrest⟩
        simp only [hnone, bind_of_ok hok']
        rfl
      · -- older live streams run on without it
        have hself : s.victim? = some older.length := by
          have hlength : 1 < (s.running.filter s.isLive).length := by
            rw [hsplit, filter_last older hlive hlast, List.length_append, List.length_singleton]
            exact Nat.lt_add_of_pos_left (List.length_pos_of_ne_nil hmany)
          rw [victim?, if_pos hlength, hsplit, lastPosition_append older hlive hlast]
        obtain ⟨s', hok', hstep, hcached, hrest, -⟩ := preempt_step B hsplit hlive hlast hmany
        refine ⟨false, s', newer, ?_, .single hstep, hcached, Nat.le_refl _, hrest⟩
        simp only [hself]
        rw [← bind_assoc, bind_of_ok hok']
        simp only [if_true]
        rfl
    · -- the newest live stream stands behind this one
      have hbehind : s.running = (older ++ h :: between) ++ victim :: dead := by
        rw [hsplit, List.append_assoc, List.cons_append]
      have hmany : (older ++ h :: between).filter s.isLive ≠ [] :=
        List.ne_nil_of_mem (List.mem_filter.mpr
          ⟨List.mem_append_right _ List.mem_cons_self, hlive⟩)
      have hpick : s.victim? = some (older ++ h :: between).length := by
        have hlength : 1 < (s.running.filter s.isLive).length := by
          rw [hbehind, filter_last _ hvictim hdead, List.length_append, List.length_singleton]
          exact Nat.lt_add_of_pos_left (List.length_pos_of_ne_nil hmany)
        rw [victim?, if_pos hlength, hbehind, lastPosition_append _ hvictim hdead]
      have hother : (older ++ h :: between).length ≠ older.length := by
        rw [List.length_append, List.length_cons]
        omega
      have hne : h ≠ victim := by
        have hd := B.nodup
        rw [hbehind] at hd
        exact (List.nodup_append.mp hd).2.2 h (List.mem_append_right _ List.mem_cons_self) victim
          List.mem_cons_self
      obtain ⟨s₁, hok₁, hstep, hcached, hrest, hsame⟩ := preempt_step B hbehind hvictim hdead hmany
      have hsplit₁ : s₁.running = older ++ h :: (between ++ dead) := by
        rw [hrest, List.append_assoc, List.cons_append]
      have hfewer : (between ++ dead).length < (between ++ victim :: dead).length := by
        rw [List.length_append, List.length_append, List.length_cons]
        omega
      obtain ⟨grown, s', newer', hok', hsteps, hcached', hlength, hend⟩ := ih (hstep.books B)
        hsplit₁ ((hsame h hne).trans hlive) (by omega)
      refine ⟨grown, s', newer', ?_, hsteps.head hstep, hcached'.trans hcached, by omega, hend⟩
      simp only [hpick]
      rw [← bind_assoc, bind_of_ok hok₁]
      simp only [if_neg hother]
      exact hok'

/-! ### The pass -/

/-- The full blocks are published, or there are no more of them than before. -/
theorem commitFullBlocks_spec (B : s.Books) (hrun : h ∈ s.running) :
    commitFullBlocks h s = .ok () s ∨
      ∃ a, commitFullBlocks h s = .ok ()
          { s.setStream h ((s.stream h).setCommitted (s.stream h).fullBlockCount) with
            allocator := a } ∧
        Allocator.Committed s.allocator s.heldBlocks (s.stream h).fullTokens
          ((s.blocksOf h).take (s.stream h).fullBlockCount) a := by
  unfold commitFullBlocks
  simp only [bind_get, bind_of_ok (ofResult_of_ok (s.stream h).fullPrefix_eq_ok),
    Stream.length_take_fullBlockCount]
  by_cases hfull : (s.stream h).fullBlockCount ≤ (s.stream h).committed
  · exact Or.inl (by rw [if_pos hfull]; rfl)
  -- the blocks are held by a stream of the batch, so they have references
  · have hheld : ∀ b ∈ (s.blocksOf h).take (s.stream h).fullBlockCount, b ∈ s.heldBlocks :=
      fun b hb => mem_heldBlocks.mpr ⟨h, hrun, List.mem_of_mem_take hb⟩
    obtain ⟨a, hok, C⟩ := B.ledger.insertIntoCache (s.stream h).fullTokens hheld
    refine Or.inr ⟨a, ?_, C⟩
    rw [if_neg hfull]
    exact bind_of_ok (onAllocator_of_ok hok)

/-- A stream that is settled publishes its full blocks. -/
theorem commitFullBlocks_steps (B : s.Books) (hrun : h ∈ s.running) (hlive : s.isLive h = true)
    (hreuse : (s.stream h).reuse = true) (hsettled : s.Settled h) :
    ∃ s', commitFullBlocks h s = .ok () s' ∧ Steps .growth s s' ∧ s'.running = s.running := by
  rcases commitFullBlocks_spec B hrun with hok | ⟨a, hok, C⟩
  · exact ⟨s, hok, .refl, rfl⟩
  · exact ⟨_, hok, .single (Step.commit hrun hlive hreuse hsettled C), rfl⟩

/-- After the round at a position the stream there is settled or has ended, and the
next round is for the position behind it; or it has left the batch. -/
theorem growAt_steps (B : s.Books) {older newer : List Handle}
    (hsplit : s.running = older ++ h :: newer) :
    ∃ next s' newer', growAt older.length s = .ok next s' ∧ Steps .growth s s' ∧
      newer'.length ≤ newer.length ∧
      (next = older.length + 1 ∧ s'.running = older ++ h :: newer' ∧ s'.LiveSettled h ∨
        next = older.length ∧ s'.running = older ++ newer') := by
  have hrun : h ∈ s.running := hsplit ▸ List.mem_append_right _ List.mem_cons_self
  have hitem : Word.item s.running older.length = .ok h := by rw [hsplit, Word.item_append]
  have hexpire := Step.expire hrun
  have B₁ := hexpire.books B
  have hsplit₁ : (s.setStream h ((s.stream h).checkTimeout s.now)).running
      = older ++ h :: newer := hsplit
  have hrounds : newer.length < s.running.length := by
    rw [hsplit, List.length_append, List.length_cons]
    omega
  have hcheck := checkTimeout_eq s h
  generalize s.setStream h ((s.stream h).checkTimeout s.now) = s₁ at hexpire B₁ hsplit₁ hcheck
  unfold growAt
  simp only [bind_get, bind_of_ok (ofResult_of_ok hitem), bind_of_ok hcheck]
  rcases hlive : s₁.isLive h with - | -
  · -- the stream has ended
    refine ⟨older.length + 1, s₁, newer, rfl, .single hexpire, Nat.le_refl _,
      Or.inl ⟨rfl, hsplit₁, fun _ hlive' => ?_⟩⟩
    rw [hlive] at hlive'
    simp at hlive'
  obtain ⟨grown, s₂, newer', hgrow, hsteps, -, hlength, hend⟩ :=
    growOver_steps B₁ hsplit₁ hlive hrounds
  have hall := hsteps.head hexpire
  simp only [if_true, bind_of_ok hgrow]
  cases grown with
  | false => exact ⟨older.length, s₂, newer', rfl, hall, hlength, Or.inr ⟨rfl, hend⟩⟩
  | true =>
    -- what it holds now covers its tokens, so the full blocks can be published
    obtain ⟨hsplit₂, hlive₂, hsettled₂⟩ := hend
    simp only [if_true, bind_get]
    rcases hreuse : (s₂.stream h).reuse with - | -
    · exact ⟨older.length + 1, s₂, newer', rfl, hall, hlength,
        Or.inl ⟨rfl, hsplit₂, fun _ _ => hsettled₂⟩⟩
    · have B₂ := hsteps.keeps Step.books B₁
      have hrun₂ : h ∈ s₂.running := hsplit₂ ▸ List.mem_append_right _ List.mem_cons_self
      obtain ⟨s₃, hok, hcommit, hsame⟩ := commitFullBlocks_steps B₂ hrun₂ hlive₂ hreuse hsettled₂
      refine ⟨older.length + 1, s₃, newer', ?_, hall.trans hcommit, hlength,
        Or.inl ⟨rfl, hsame.trans hsplit₂, hcommit.settled B₂ fun _ _ => hsettled₂⟩⟩
      rw [if_pos rfl, bind_of_ok hok]
      rfl

section Pass

variable {Q : Scheduler → Handle → Prop}
    (hkeep : ∀ ⦃s s' : Scheduler⦄ ⦃k : Handle⦄, Step .growth s s' → s.Books → Q s k → Q s' k)
    (hround : ∀ ⦃s s' : Scheduler⦄ ⦃h : Handle⦄ ⦃older newer : List Handle⦄, s.Books →
      s.running = older ++ h :: newer →
      growAt older.length s = .ok (older.length + 1) s' → Q s' h)

include hkeep hround

/-- What a round establishes for the stream at its position, and later steps keep, the pass
establishes from that position on. -/
theorem growFrom_steps (B : s.Books) {older rest : List Handle}
    (hsplit : s.running = older ++ rest) (holder : ∀ h ∈ older, Q s h) {rounds : Nat}
    (hrounds : rest.length ≤ rounds) :
    ∃ s', growFrom older.length rounds s = .ok () s' ∧ Steps .growth s s' ∧
      ∀ h ∈ s'.running, Q s' h := by
  induction rounds generalizing s older rest with
  | zero =>
    -- no rounds left, and nobody left to grow
    have hnil : rest = [] := List.eq_nil_of_length_eq_zero (Nat.le_zero.mp hrounds)
    rw [hnil, List.append_nil] at hsplit
    have hend : ¬ older.length < s.running.length := by rw [hsplit]; exact Nat.lt_irrefl _
    refine ⟨s, ?_, .refl, fun h hh => holder h (hsplit ▸ hh)⟩
    unfold growFrom
    simp only [bind_get, if_neg hend]
    rfl
  | succ rounds ih =>
    unfold growFrom
    cases rest with
    | nil =>
      rw [List.append_nil] at hsplit
      have hend : ¬ older.length < s.running.length := by rw [hsplit]; exact Nat.lt_irrefl _
      refine ⟨s, ?_, .refl, fun h hh => holder h (hsplit ▸ hh)⟩
      simp only [bind_get, if_neg hend]
      rfl
    | cons h newer =>
      have hin : older.length < s.running.length := by
        rw [hsplit, List.length_append, List.length_cons]
        omega
      rw [List.length_cons] at hrounds
      obtain ⟨next, s₁, newer', hok, hsteps, hlength, hcase⟩ := growAt_steps B hsplit
      have B₁ := hsteps.keeps Step.books B
      have holder₁ : ∀ k ∈ older, Q s₁ k := fun k hk =>
        (hsteps.keepsBooks (P := fun t => Q t k) (fun hstep => hkeep hstep) B (holder k hk)).2
      simp only [bind_get, if_pos hin, bind_of_ok hok]
      rcases hcase with ⟨rfl, hsplit₁, -⟩ | ⟨rfl, hsplit₁⟩
      · -- the position moves on: the stream is one of the older ones from now on
        have hmore : s₁.running = (older ++ [h]) ++ newer' := by
          rw [hsplit₁, List.append_assoc, List.singleton_append]
        have hone : older.length + 1 = (older ++ [h]).length := by
          rw [List.length_append, List.length_singleton]
        obtain ⟨s', hok', hsteps', hall⟩ := ih B₁ hmore (fun k hk => by
          rcases List.mem_append.mp hk with hk | hk
          · exact holder₁ k hk
          · exact List.mem_singleton.mp hk ▸ hround B hsplit hok) (by omega)
        exact ⟨s', hone ▸ hok', hsteps.trans hsteps', hall⟩
      · -- it left the batch, and the next one stands in its place
        obtain ⟨s', hok', hsteps', hall⟩ := ih B₁ hsplit₁ holder₁ (by omega)
        exact ⟨s', hok', hsteps.trans hsteps', hall⟩

/-- The growth pass comes to its end, and the streams it leaves in the batch have had their
rounds. -/
theorem growRunning_rounds (B : s.Books) :
    ∃ s', growRunning s = .ok () s' ∧ Steps .growth s s' ∧ ∀ h ∈ s'.running, Q s' h := by
  have hall : s.running = [] ++ s.running := (List.nil_append _).symm
  exact growFrom_steps hkeep hround B hall (fun _ hh => absurd hh List.not_mem_nil) (Nat.le_refl _)

end Pass

/-- The growth pass settles the batch. -/
theorem growRunning_steps (B : s.Books) :
    ∃ s', growRunning s = .ok () s' ∧ Steps .growth s s' ∧
      ∀ h ∈ s'.running, s'.isLive h = true → s'.Settled h := by
  obtain ⟨s', hok, hsteps, hsettled⟩ := growRunning_rounds (Q := LiveSettled)
    (fun s s' k hstep => hstep.settled)
    (fun s s' h older newer B hsplit hok => by
      obtain ⟨next, s', newer', hok', -, -, hcase⟩ := growAt_steps B hsplit
      cases hok.symm.trans hok'
      rcases hcase with ⟨-, -, hsettled⟩ | ⟨hstay, -⟩
      · exact hsettled
      · omega) B
  exact ⟨s', hok, hsteps, fun h hh hlive => hsettled h hh hh hlive⟩

end Scheduler

end PagedServe
