/-
PagedServe/Proofs/Admission.lean

The passes that shrink and fill the batch are runs of steps and never fail.

Release takes the ended streams off the batch at once and gives their blocks up
one by one; a run of steps takes them off one by one.  The order does not show,
since giving blocks up does not look at the batch (`releaseEnded_steps`).

Admission asks the allocator for the blocks of the head of the queue
(`tryGrant_spec`).  Whatever the answer, the allocator has the same holders
afterwards but for the grant, so each round is one step (`admitFrom_cons`) and the
pass is a run of them (`admitFrom_steps`).
-/
import PagedServe.Proofs.Growth

namespace PagedServe

namespace Scheduler

open Allocator (Neutral Committed Granted Short)

variable {s s' : Scheduler} {h k : Handle}

/-! ### Release -/

/-- A stream gives up its blocks, perhaps after publishing the full ones. -/
theorem releaseStream_spec {held : List Nat} (L : s.allocator.Ledger (s.blocksOf h ++ held)) :
    ∃ a, releaseStream h s = .ok () { s.setStream h (s.stream h).emptied with allocator := a } ∧
      Committed s.allocator held (s.stream h).fullTokens (s.blocksOf h) a := by
  unfold releaseStream
  rcases hpub : (s.stream h).isFinished && (s.stream h).reuse with - | -
  · -- not to be published: its blocks are freed
    obtain ⟨n, a, hfree, ha, hcache⟩ :=
      onAllocator_free (s := s.setStream h (s.stream h).emptied) L
    refine ⟨a, ?_, ha.ledger, ha.shape, [], ?_, fun _ _ _ hx => absurd hx List.not_mem_nil⟩
    · simp only [bind_get, bind_of_ok (ofResult_of_ok (s.stream h).fullPrefix_eq_ok),
        Stream.takeBlocks_eq, bind_of_ok (update_eq _ _ _), hpub, Bool.false_eq_true, if_false]
      exact bind_of_ok hfree
    · rw [hcache, List.append_nil]
      rfl
  · -- finished with reuse: they are freed behind a commit
    obtain ⟨n, a, hok, C⟩ := L.freeWithCache (s.stream h).fullTokens
    refine ⟨a, ?_, C⟩
    simp only [bind_get, bind_of_ok (ofResult_of_ok (s.stream h).fullPrefix_eq_ok),
      Stream.takeBlocks_eq, bind_of_ok (update_eq _ _ _), hpub, if_true]
    exact bind_of_ok (onAllocator_of_ok hok)

/-- Ended streams give up their blocks one after another, whatever the batch is
called meanwhile. -/
theorem forM_releaseStream_steps {ended : List Handle} (B : s.Books) (hd : ended.Nodup)
    (hended : ∀ h ∈ ended, h ∈ s.running ∧ s.isLive h = false) (running : List Handle) :
    ∃ s', ended.forM releaseStream { s with running := running }
        = .ok () { s' with running := running } ∧
      Steps .release s s' ∧ s'.running = s.running.filter (· ∉ ended) := by
  induction ended generalizing s with
  | nil => exact ⟨s, rfl, .refl, by simp⟩
  | cons h ended ih =>
    obtain ⟨hrun, hend⟩ := hended h List.mem_cons_self
    obtain ⟨hnot, hd⟩ := List.nodup_cons.mp hd
    -- the pass has set the batch already; the steps still see the stream in it
    obtain ⟨a, hok, C⟩ := releaseStream_spec (s := { s with running := running })
      (B.ledger_of_mem hrun)
    have hstep := Step.release hrun hend C
    have B₁ := hstep.books B
    have hlater : ∀ k ∈ ended, k ∈ s.running.erase h ∧
        isLive { s.setStream h (s.stream h).emptied with
          allocator := a, running := s.running.erase h } k = false := by
      intro k hk
      have hkh : k ≠ h := fun he => hnot (he ▸ hk)
      obtain ⟨hkr, hkl⟩ := hended k (List.mem_cons_of_mem h hk)
      exact ⟨B.nodup.mem_erase_iff.mpr ⟨hkh, hkr⟩, (isLive_of_ne hkh).trans hkl⟩
    obtain ⟨s', hok', hsteps, hrest⟩ := ih B₁ hd hlater
    refine ⟨s', ?_, hsteps.head hstep, ?_⟩
    · show (releaseStream h >>= fun _ => ended.forM releaseStream) _ = _
      rw [bind_of_ok hok]
      exact hok'
    · rw [hrest]
      show (s.running.erase h).filter _ = _
      rw [B.nodup.erase_eq_filter, List.filter_filter]
      apply List.filter_congr
      intro k _
      by_cases hk : k = h
      · simp [hk]
      · simp [hk]

theorem Step.isLive_eq (hstep : Step .release s s') (B : s.Books) (k : Handle) :
    s'.isLive k = s.isLive k := by
  cases hstep with
  | @release _ h a hrun hended ha =>
    by_cases hk : k = h
    · subst hk
      exact isLive_self (B.known k hrun)
    · exact isLive_of_ne hk

/-- The release pass leaves the live streams in the batch. -/
theorem releaseEnded_steps (B : s.Books) :
    ∃ s', releaseEnded s = .ok () s' ∧ Steps .release s s' ∧
      ∀ h ∈ s'.running, s'.isLive h = true := by
  have hended : ∀ h ∈ s.running.filter (not ∘ s.isLive), h ∈ s.running ∧ s.isLive h = false := by
    intro h hh
    obtain ⟨hrun, hend⟩ := List.mem_filter.mp hh
    exact ⟨hrun, by simpa using hend⟩
  obtain ⟨s', hok, hsteps, hrest⟩ := forM_releaseStream_steps B (B.nodup.filter _) hended
    (s.running.filter s.isLive)
  -- the releases end nobody, so those that are left are the live ones
  have hlive : ∀ k, s'.isLive k = s.isLive k := by
    intro k
    exact (hsteps.keepsBooks (P := fun t => t.isLive k = s.isLive k)
      (fun hstep B ht => (hstep.isLive_eq B k).trans ht) B rfl).2
  have hrunning : s'.running = s.running.filter s.isLive := by
    rw [hrest]
    apply List.filter_congr
    intro k hk
    rcases hl : s.isLive k with - | -
    · simp [hk, hl]
    · simp [hl]
  refine ⟨s', ?_, hsteps, ?_⟩
  · unfold releaseEnded
    simp only [bind_get, List.partition_eq_filter_filter, bind_set]
    rw [hok, ← hrunning]
  · intro h hh
    rw [hrunning] at hh
    rw [hlive]
    exact (List.mem_filter.mp hh).2

/-! ### Admission -/

/-- The longer of two lists needs the more blocks of the two. -/
theorem blocksFor_max {size m n i j : Nat} (hm : blocksFor m size = .ok i)
    (hn : blocksFor n size = .ok j) : blocksFor (max m n) size = .ok (max i j) := by
  unfold blocksFor Word.ceilDiv at *
  split at hm
  · simp at hm
  case isFalse hs =>
    rw [if_neg hs] at hn ⊢
    rw [← Except.ok.inj hm, ← Except.ok.inj hn]
    congr 1
    rcases Nat.le_total m n with hle | hle
    · rw [Nat.max_eq_right hle, Nat.max_eq_right]
      exact Nat.div_le_div_right (by omega)
    · rw [Nat.max_eq_left hle, Nat.max_eq_left]
      exact Nat.div_le_div_right (by omega)

/-- Either all the blocks that a stream asks for are granted, or the allocator is
short of them and has the holders it had. -/
theorem grantFor_spec (B : s.Books) (h : Handle) :
    (∃ grant a, grantFor h s = .ok grant { s with allocator := a } ∧
        Granted s.allocator s.heldBlocks (s.stream h).tokens grant a ∧
        blocksFor (max (s.stream h).tokens.length (s.stream h).seqLength) s.blockSize
          = .ok grant.ids.length) ∨
      ∃ e a n, grantFor h s = .error e { s with allocator := a } ∧
        e.isInsufficientMemory = true ∧ Neutral s.allocator s.heldBlocks a ∧
        blocksFor (max (s.stream h).tokens.length (s.stream h).seqLength) s.blockSize = .ok n ∧
        Short s.allocator s.heldBlocks n := by
  have hseq := blocksFor_eq_ok (s.stream h).seqLength B.blockSize_pos
  generalize ((s.stream h).seqLength + s.blockSize - 1) / s.blockSize = needed at hseq
  rcases B.ledger.mallocWithCache (s.stream h).tokens (s.stream h).reuse with
    ⟨grant, a, hok, G, hcount⟩ | ⟨e, a, n, herr, hshort, hneutral, hcount, hS⟩
  · have hmax : blocksFor (max (s.stream h).tokens.length (s.stream h).seqLength) s.blockSize
        = .ok (max grant.ids.length needed) := blocksFor_max hcount hseq
    have hopen : grantFor h s = (if needed - grant.ids.length = 0 then return grant
        else do
          let rest ← tryCatch (onAllocator (Allocator.malloc (needed - grant.ids.length)))
            fun e => do
              let _ ← onAllocator (Allocator.free grant.ids)
              throw e
          return { grant with ids := grant.ids ++ rest } : SchedM Grant)
        { s with allocator := a } := by
      unfold grantFor
      simp only [bind_get, bind_of_ok (onAllocator_of_ok hok)]
      rw [bind_of_ok (ofResult_of_ok hseq)]
    rw [hopen]
    -- a stream that was preempted may count more tokens than it has
    by_cases hzero : needed - grant.ids.length = 0
    · rw [if_pos hzero]
      refine Or.inl ⟨grant, a, rfl, G, ?_⟩
      rw [Nat.max_eq_left (Nat.sub_eq_zero_iff_le.mp hzero)] at hmax
      exact hmax
    rw [if_neg hzero]
    rcases Nat.lt_or_ge a.availableCount (needed - grant.ids.length) with hlt | hge
    · have hfail : onAllocator (Allocator.malloc (needed - grant.ids.length))
          { s with allocator := a }
          = .error (.error (.insufficientMemory (needed - grant.ids.length) a.pool.freeCount))
            { s with allocator := a } :=
        onAllocator_of_error (Allocator.malloc_short G.ledger hlt)
      -- the first part of the grant is given back
      obtain ⟨m, a', hfree, ha', -⟩ := onAllocator_free (s := { s with allocator := a }) G.ledger
      refine Or.inr ⟨.error (.insufficientMemory (needed - grant.ids.length) a.pool.freeCount), a',
        max grant.ids.length needed, ?_, rfl,
        ⟨ha'.ledger, G.shape.trans ha'.shape, ha'.content.trans G.content⟩, hmax, grant.ids, a,
        ⟨G.ledger, G.shape, G.content⟩, by omega⟩
      rw [bind_of_error]
      rw [tryCatch_of_error hfail, bind_of_ok hfree]
      rfl
    · obtain ⟨ids, a', hok', hlength, H⟩ := G.ledger.malloc_ok hge
      refine Or.inl ⟨{ grant with ids := grant.ids ++ ids }, a', ?_, G.extend H, ?_⟩
      · rw [bind_of_ok (tryCatch_of_ok (onAllocator_of_ok hok'))]
        rfl
      · rw [hmax]
        show _ = Except.ok (grant.ids ++ ids).length
        rw [List.length_append, hlength]
        exact congrArg Except.ok (by omega)
  · refine Or.inr ⟨e, a, max n needed, ?_, hshort, hneutral, blocksFor_max hcount hseq,
      hS.mono (Nat.le_max_left _ _)⟩
    unfold grantFor
    simp only [bind_get]
    exact bind_of_error (onAllocator_of_error herr)

theorem tryGrant_of_ok {grant : Grant} (hok : grantFor h s = .ok grant s') :
    tryGrant h s = .ok (.granted grant) s' := by
  unfold tryGrant
  rw [tryCatch_of_ok]
  rw [bind_of_ok hok]
  rfl

theorem tryGrant_of_error {e : Failure} (herr : grantFor h s = .error e s') :
    tryGrant h s = if e.isInsufficientMemory then .ok .short s' else .error e s' := by
  unfold tryGrant
  rw [tryCatch_of_error (bind_of_error herr)]
  split
  · rfl
  · rfl

theorem tryGrant_spec (B : s.Books) (h : Handle) :
    (∃ grant a, tryGrant h s = .ok (.granted grant) { s with allocator := a } ∧
        Granted s.allocator s.heldBlocks (s.stream h).tokens grant a ∧
        blocksFor (max (s.stream h).tokens.length (s.stream h).seqLength) s.blockSize
          = .ok grant.ids.length) ∨
      ∃ a n, tryGrant h s = .ok .short { s with allocator := a } ∧
        Neutral s.allocator s.heldBlocks a ∧
        blocksFor (max (s.stream h).tokens.length (s.stream h).seqLength) s.blockSize = .ok n ∧
        Short s.allocator s.heldBlocks n := by
  rcases grantFor_spec B h with ⟨grant, a, hok, G, hcount⟩ | ⟨e, a, n, herr, hmem, ha, hn, hS⟩
  · exact Or.inl ⟨grant, a, tryGrant_of_ok hok, G, hcount⟩
  · exact Or.inr ⟨a, n, by rw [tryGrant_of_error herr, if_pos hmem], ha, hn, hS⟩

/-- A granted stream is started, or passed over if it does not wait. -/
theorem begin_step (B : s.Books) {rest : List Handle} {grant : Grant} {a : Allocator}
    (hwait : s.waiting = h :: rest)
    (G : Granted s.allocator s.heldBlocks (s.stream h).tokens grant a)
    (hcovers : blocksFor (max (s.stream h).tokens.length (s.stream h).seqLength) s.blockSize
      = .ok grant.ids.length) :
    ∃ s', begin h grant { s with allocator := a, waiting := rest } = .ok () s' ∧
      Step .admission s s' ∧ s'.waiting = rest := by
  have hsize : a.geometry.blockSize = s.blockSize := congrArg Geometry.blockSize G.shape.geometry
  unfold begin
  by_cases hphase : (s.stream h).phase = .waiting
  · have hstart : (stream { s with allocator := a, waiting := rest } h).start grant
        (blockSize { s with allocator := a, waiting := rest })
        = .ok ((s.stream h).started grant s.blockSize) := by
      show (s.stream h).start grant a.geometry.blockSize = _
      rw [hsize]
      exact Stream.start_eq_ok hphase (Nat.pos_iff_ne_zero.mp B.blockSize_pos)
    refine ⟨_, ?_, Step.enter hwait hphase hcovers G, rfl⟩
    simp only [bind_get, hstart]
    rfl
  · obtain ⟨e, hstart⟩ : ∃ e, (stream { s with allocator := a, waiting := rest } h).start grant
        (blockSize { s with allocator := a, waiting := rest }) = .error e :=
      Stream.start_eq_error hphase
    -- the stream runs or has ended meanwhile, and the grant is given back
    obtain ⟨n, a', hfree, ha', -⟩ := onAllocator_free
      (s := { s with allocator := a, waiting := rest }) G.ledger
    refine ⟨_, ?_, Step.skip hwait hphase
      ⟨ha'.ledger, G.shape.trans ha'.shape, ha'.content.trans G.content⟩, rfl⟩
    simp only [bind_get, hstart]
    exact bind_of_ok hfree

/-- Whether waiting is hopeless does not depend on what is cached. -/
theorem isHopeless_eq (B : s.Books) {n : Nat} {a : Allocator}
    (ha : Neutral s.allocator s.heldBlocks a)
    (hn : blocksFor (max (s.stream h).tokens.length (s.stream h).seqLength) s.blockSize = .ok n) :
    isHopeless { s with allocator := a } h
      = .ok (s.running.isEmpty || s.allocator.pool.usable < n) := by
  have hsize : blockSize { s with allocator := a } = s.blockSize :=
    congrArg Geometry.blockSize ha.shape.geometry
  -- the size of the pool is in the geometry, whatever is cached
  have husable : a.pool.usable = s.allocator.pool.usable := by
    rw [ha.ledger.usable_eq, B.ledger.usable_eq, ha.shape.geometry]
  have hn' : blocksFor (max (stream { s with allocator := a } h).tokens.length
      (stream { s with allocator := a } h).seqLength) (blockSize { s with allocator := a })
      = .ok n := by
    rw [hsize]
    exact hn
  unfold isHopeless
  simp only [hn']
  show Except.ok (s.running.isEmpty || decide (a.pool.usable < n)) = _
  rw [husable]

/-- The blocks that the head of the queue needs cannot be had, and it is not given up. -/
structure HeldUp (s : Scheduler) (h : Handle) : Prop where
  head : ∃ rest, s.waiting = h :: rest
  short : ∃ n,
    blocksFor (max (s.stream h).tokens.length (s.stream h).seqLength) s.blockSize = .ok n ∧
    Short s.allocator s.heldBlocks n ∧
    (s.admission.fallback = true → s.running ≠ [] ∧ n ≤ s.allocator.pool.usable)

/-- A round of admission is a step that takes the head off the queue, or the head is tried in
vain and the pass ends there. -/
theorem admitFrom_cons (B : s.Books) {rest : List Handle} (hl : s.waiting = h :: rest) :
    (∃ s₁, admitFrom (h :: rest) s = admitFrom rest s₁ ∧ Step .admission s s₁ ∧
        s₁.waiting = rest) ∨
      ∃ a, tryGrant h s = .ok .short { s with allocator := a } ∧
        admitFrom (h :: rest) s = .ok () { s with allocator := a } ∧ HeldUp s h ∧
        Neutral s.allocator s.heldBlocks a := by
  rcases tryGrant_spec B h with ⟨grant, a, hok, G, hcovers⟩ | ⟨a, n, hok, ha, hn, hS⟩
  · obtain ⟨s₁, hbegin, hstep, hwait⟩ := begin_step B hl G hcovers
    refine Or.inl ⟨s₁, ?_, hstep, hwait⟩
    rw [admitFrom]
    simp only [bind_of_ok hok, bind_modify]
    rw [bind_of_ok hbegin]
  · have hhopeless := ofResult_of_ok (s := { s with allocator := a }) (isHopeless_eq B ha hn)
    rcases hgive : s.admission.fallback
      && (s.running.isEmpty || decide (s.allocator.pool.usable < n)) with - | -
    · -- the head waits, and so does everybody behind it
      refine Or.inr ⟨a, hok, ?_, ⟨⟨rest, hl⟩, n, hn, hS, fun hfallback => ?_⟩, ha⟩
      · rw [admitFrom]
        simp only [bind_of_ok hok, bind_get, bind_of_ok hhopeless, hgive]
        rfl
      · simpa [hfallback] using hgive
    · obtain ⟨hfallback, hwhy⟩ := Bool.and_eq_true_iff.mp hgive
      refine Or.inl ⟨_, ?_, Step.refuse hl hfallback hn hS (by simpa using hwhy) ha, rfl⟩
      rw [admitFrom]
      simp only [bind_of_ok hok, bind_get, bind_of_ok hhopeless, hgive, if_true, bind_modify,
        bind_of_ok (update_eq _ _ _)]
      rfl

/-- Admission from the head of the queue on.  It ends when the queue is empty or its
head is held up. -/
theorem admitFrom_steps (B : s.Books) :
    ∃ s', admitFrom s.waiting s = .ok () s' ∧ Steps .admission s s' ∧
      (s'.waiting = [] ∨ ∃ t h a, Steps .admission s t ∧ HeldUp t h ∧
        Neutral t.allocator t.heldBlocks a ∧ s' = { t with allocator := a }) := by
  generalize hl : s.waiting = l
  induction l generalizing s with
  | nil => exact ⟨s, rfl, .refl, Or.inl hl⟩
  | cons h rest ih =>
    rcases admitFrom_cons B hl with ⟨s₁, hround, hstep, hwait⟩ | ⟨a, -, hok, hheld, ha⟩
    · -- the head is admitted or stopped: go on with the rest
      obtain ⟨s', hok, hsteps, hend⟩ := ih (hstep.books B) hwait
      refine ⟨s', hround.trans hok, hsteps.head hstep, hend.imp_right ?_⟩
      exact fun ⟨t, k, a, ht, hrest⟩ => ⟨t, k, a, ht.head hstep, hrest⟩
    · -- the head is held up: admission ends here
      exact ⟨_, hok, .single (Step.wait ha), Or.inr ⟨s, h, a, .refl, hheld, ha, rfl⟩⟩

/-- The admission pass comes to its end. -/
theorem admitWaiting_steps (B : s.Books) :
    ∃ s', admitWaiting s = .ok () s' ∧ Steps .admission s s' ∧
      (s'.waiting = [] ∨ ∃ t h a, Steps .admission s t ∧ HeldUp t h ∧
        Neutral t.allocator t.heldBlocks a ∧ s' = { t with allocator := a }) :=
  admitFrom_steps B

end Scheduler

end PagedServe
