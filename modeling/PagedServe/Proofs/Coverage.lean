/-
PagedServe/Proofs/Coverage.lean

Running streams hold as many blocks as their tokens need, and no more.

At least so many: growth settles the live streams of the batch, release takes the
ended ones away, and admission grants all blocks at once (`Tick.covered`).

At most so many, as long as nobody sets lengths: then a stream counts the tokens it
has, and blocks are only ever granted for tokens counted (`Stream.Counted`).  Tokens
are counted up to the end of the 64-bit numbers; a stream that gets there counts on
no longer, and nothing is said of it.
-/
import PagedServe.Proofs.Runs

namespace PagedServe

/-! ### Tokens and their count -/

namespace Stream

variable {x y : Stream} {size : Nat}

/-- The stream counts the tokens it has and holds no more blocks than they need, or it
can count no further. -/
def Counted (size : Nat) (x : Stream) : Prop :=
  Word.limit ≤ x.seqLength + 1 ∨
    (x.seqLength = x.tokens.length ∧ x.table.ids.length ≤ (x.seqLength + size - 1) / size)

theorem counted_new (id : UInt64) (request : Request) (now : Nat) :
    (Stream.new id request now).Counted size := by
  refine Or.inr ⟨?_, Nat.zero_le _⟩
  show request.input.length = (request.input ++ []).length
  rw [List.append_nil]

/-- The same tokens, and no further blocks. -/
theorem Counted.of_same (hx : x.Counted size) (hsame : SameTokens x y)
    (hids : y.table.ids.length ≤ x.table.ids.length) : y.Counted size := by
  rcases hx with hlast | ⟨hlength, hfit⟩
  · exact Or.inl (by rw [hsame.seqLength]; exact hlast)
  · refine Or.inr ⟨?_, ?_⟩
    · rw [hsame.seqLength, hsame.tokens, hlength]
    · rw [hsame.seqLength]
      exact Nat.le_trans hids hfit

theorem Counted.of_continues (hx : x.Counted size) (hsame : SameTokens x y)
    (hxy : Continues x y) : y.Counted size :=
  hx.of_same hsame (Nat.le_of_eq (congrArg (fun t => t.ids.length) hxy.table))

theorem counted_append (hx : x.Counted size) (token : UInt32) :
    (stateAfter (append token) x).Counted size := by
  unfold append stateAfter
  rcases hadd : Word.add x.seqLength 1 with e | n
  · -- the count stays at the last number
    refine Or.inl ?_
    simp only [hadd]
    by_contra hlt
    have hok := Word.add_eq_ok.mpr ⟨Nat.lt_of_not_le hlt, rfl⟩
    rw [hadd] at hok
    simp at hok
  · obtain ⟨hlt, rfl⟩ := Word.add_eq_ok.mp hadd
    simp only [hadd]
    rcases hx with hlast | ⟨hlength, hfit⟩
    · omega
    · refine Or.inr ⟨?_, ?_⟩
      · show x.seqLength + 1 = (x.request.input ++ (x.output ++ [token])).length
        rw [← List.append_assoc, List.length_append, hlength]
        rfl
      · show x.table.ids.length ≤ (x.seqLength + 1 + size - 1) / size
        exact Nat.le_trans hfit (Nat.div_le_div_right (by omega))

/-- The call does not set the length. -/
def Call.counts : Call → Bool
  | .setSeqLength _ => false
  | _ => true

theorem counted_call (hx : x.Counted size) {c : Call} (hc : c.counts = true) :
    (stateAfter (call c) x).Counted size := by
  cases c with
  | append token => exact counted_append hx token
  | setSeqLength n => exact absurd hc (by simp [Call.counts])
  | setReuse on => exact hx.of_same ⟨rfl, rfl, rfl⟩ (Nat.le_refl _)
  | finish => exact hx.of_continues (sameTokens_finish x) (continues_finish x)
  | stop reason => exact hx.of_continues (sameTokens_stop reason x) (continues_stop reason x)

end Stream

namespace Scheduler

variable {s s' : Scheduler} {h k : Handle}

/-! ### No more blocks than needed -/

/-- The passes give a stream the blocks it is missing or all it needs. -/
theorem Step.counted {p : Stage} (hp : p ≠ .outside) (hstep : Step p s s') (B : s.Books)
    (hs : ∀ k, (s.stream k).Counted s.blockSize) : ∀ k, (s'.stream k).Counted s'.blockSize := by
  have hsize : s'.blockSize = s.blockSize := congrArg Geometry.blockSize hstep.sameShape.geometry
  rw [hsize]
  cases hstep with
  | register | enqueue | call | clear | sleep => exact absurd rfl hp
  | drop | skip | wait => exact hs
  | lapse | expire =>
    exact forall_setStream hs ((hs _).of_continues (Stream.sameTokens_checkTimeout _ _)
      (Stream.continues_checkTimeout _ _))
  | @grow _ h ids a hrun hlive hmissing ha =>
    -- it is given just what it lacks
    refine forall_setStream hs ?_
    rcases hs h with hlast | ⟨hlength, hfit⟩
    · exact Or.inl hlast
    · rw [missingBlocks_eq_ok _ B.blockSize_pos] at hmissing
      have hcount := Except.ok.inj hmissing
      refine Or.inr ⟨hlength, ?_⟩
      show ((s.stream h).table.ids ++ ids).length ≤ ((s.stream h).seqLength + _ - 1) / _
      rw [List.length_append]
      omega
  | commit =>
    exact forall_setStream hs ((hs _).of_continues (Stream.sameTokens_setCommitted _ _)
      (Stream.continues_setCommitted _ _))
  | preempt =>
    exact forall_setStream hs ((hs _).of_same (Stream.sameTokens_suspended _) (Nat.zero_le _))
  | abandon =>
    exact forall_setStream hs ((hs _).of_same
      ((Stream.sameTokens_stop _ _).trans (Stream.sameTokens_emptied _)) (Nat.zero_le _))
  | release =>
    exact forall_setStream hs ((hs _).of_same (Stream.sameTokens_emptied _) (Nat.zero_le _))
  | @enter _ h rest grant a hwait hphase hcovers ha =>
    -- it holds nothing yet, and the grant covers its length
    refine forall_setStream hs ?_
    rcases hs h with hlast | ⟨hlength, -⟩
    · exact Or.inl hlast
    · rw [← hlength, Nat.max_self, blocksFor_eq_ok _ B.blockSize_pos] at hcovers
      exact Or.inr ⟨hlength, Nat.le_of_eq (Except.ok.inj hcovers).symm⟩
  | refuse =>
    exact forall_setStream hs ((hs _).of_continues (Stream.sameTokens_stop _ _)
      (Stream.continues_stop _ _))

/-- The event does not set a length. -/
def Event.counts : Event → Bool
  | .call _ c => c.counts
  | _ => true

theorem counted_perform {e : Event} (he : e ≠ .schedule) (hc : e.counts = true) (B : s.Books)
    (hs : ∀ k, (s.stream k).Counted s.blockSize) :
    ∀ k, ((perform e s).stream k).Counted (perform e s).blockSize := by
  have hshape : Allocator.SameShape s.allocator (perform e s).allocator := sameShape_play B [e]
  have hsize : (perform e s).blockSize = s.blockSize :=
    congrArg Geometry.blockSize hshape.geometry
  rw [hsize]
  refine forall_perform he B hs (fun id request _ => Stream.counted_new id request s.now)
    (fun h _ => (hs h).of_same ⟨rfl, rfl, rfl⟩ (Nat.le_refl _)) ?_
  rintro h c rfl
  exact Stream.counted_call (hs h) hc

theorem counted_play {hash : ChainHash} {g : Geometry} {a : Allocator}
    (hnew : Allocator.newWith hash g = .ok a) (admission : Admission) {events : List Event}
    (hcounts : ∀ e ∈ events, e.counts = true) :
    ∀ k, ((play (start admission a) events).stream k).Counted
      (play (start admission a) events).blockSize := by
  refine play_keeps_of (P := fun t => ∀ k, (t.stream k).Counted t.blockSize)
    (fun hp hstep B => hstep.counted hp B) (fun e he hc B => counted_perform he hc B)
    (books_start hnew admission) (fun k => ?_) events hcounts
  rw [stream_of_le (Nat.zero_le k)]
  exact Stream.counted_new 0 ⟨[], 0, 0⟩ 0

/-! ### No less -/

/-- Release settles the batch, since only ended streams leave it. -/
theorem Step.settled_of_release (hstep : Step .release s s')
    (hs : ∀ k ∈ s.running, s.isLive k = true → s.Settled k) (B : s.Books) :
    ∀ k ∈ s'.running, s'.isLive k = true → s'.Settled k := by
  cases hstep with
  | @release _ h a hrun hended ha =>
    intro k hk hlive
    have hmem := B.nodup.mem_erase_iff.mp hk
    have hsettled : s.LiveSettled k := hs k
    exact hsettled.of_ne hmem.1 ha.shape.geometry (fun _ => List.mem_of_mem_erase) hk hlive

/-- Admission starts streams with all the blocks they need. -/
theorem Step.settled_of_admission (hstep : Step .admission s s')
    (hs : ∀ k ∈ s.running, s.Settled k) (B : s.Books) : ∀ k ∈ s'.running, s'.Settled k := by
  have hsize : s'.blockSize = s.blockSize := congrArg Geometry.blockSize hstep.sameShape.geometry
  intro k hk
  rw [Settled, hsize]
  cases hstep with
  | @enter _ h rest grant a hwait hphase hcovers ha =>
    show ((s.setStream h _).stream k).missingBlocks _ = _
    by_cases hkh : k = h
    · subst hkh
      -- the grant covers tokens and length, whichever is more
      have hle : ((s.stream k).seqLength + s.blockSize - 1) / s.blockSize ≤ grant.ids.length := by
        rw [blocksFor_eq_ok _ B.blockSize_pos] at hcovers
        rw [← Except.ok.inj hcovers]
        exact Nat.div_le_div_right (by omega)
      rw [stream_setStream_self (B.queued k (hwait ▸ List.mem_cons_self)),
        missingBlocks_eq_ok _ B.blockSize_pos]
      exact congrArg Except.ok (Nat.sub_eq_zero_of_le hle)
    · rw [stream_setStream_of_ne hkh]
      rcases List.mem_append.mp hk with hk | hk
      · exact hs k hk
      · exact absurd (List.mem_singleton.mp hk) hkh
  | skip => exact hs k hk
  | @refuse _ h rest n a hwait hfallback hneed hshort hhopeless ha =>
    -- a stop changes neither length nor blocks
    have hcont := continues_setStream (Stream.continues_stop .noMemory (s.stream h)) k
    have hsame := sameTokens_setStream (Stream.sameTokens_stop .noMemory (s.stream h)) k
    exact (missingBlocks_congr hsame.seqLength (congrArg BlockTable.ids hcont.table) _).trans
      (hs k hk)
  | wait => exact hs k hk

/-- After a tick every stream of the batch has a block for each token it counts. -/
theorem Tick.covered {s₁ s₂ s₃ : Scheduler} (T : Tick s s₁ s₂ s₃ s') (B : s.Books) :
    ∀ k ∈ s'.running, s'.Settled k := by
  have B₂ := T.growth.keeps Step.books (T.sweep.keeps Step.books B)
  obtain ⟨B₃, h₃⟩ := T.release.keepsBooks
    (P := fun t => ∀ k ∈ t.running, t.isLive k = true → t.Settled k)
    (fun hstep B ht => hstep.settled_of_release ht B) B₂ T.settled
  exact (T.admission.keepsBooks (P := fun t => ∀ k ∈ t.running, t.Settled k)
    (fun hstep B ht => hstep.settled_of_admission ht B) B₃
    fun k hk => h₃ k hk (T.live k hk)).2

/-! ### As many as needed -/

/-- A settled stream that counts its tokens holds just the blocks that they need. -/
theorem blocksFor_of_settled (hpos : 0 < s.blockSize) (hcounted : (s.stream h).Counted s.blockSize)
    (hsettled : s.Settled h) (hcount : (s.stream h).seqLength + 1 < Word.limit) :
    (s.stream h).seqLength = (s.stream h).tokens.length ∧
      blocksFor (s.stream h).seqLength s.blockSize = .ok (s.blocksOf h).length := by
  rcases hcounted with hlast | ⟨hlength, hfit⟩
  · exact absurd hcount (Nat.not_lt.mpr hlast)
  · refine ⟨hlength, ?_⟩
    rw [Settled, missingBlocks_eq_ok _ hpos] at hsettled
    have hzero := Except.ok.inj hsettled
    rw [blocksFor_eq_ok _ hpos]
    exact congrArg Except.ok (Nat.le_antisymm (Nat.sub_eq_zero_iff_le.mp hzero) hfit)

end Scheduler

end PagedServe
