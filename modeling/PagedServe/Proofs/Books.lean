/-
PagedServe/Proofs/Books.lean

The books of a scheduler: every reference to a block is a place in the table of
a running stream or an entry of the prefix cache.

`heldBlocks` lists the blocks in the tables of the running streams, one after
another.  `Books` says that it is the list of holders in the allocator's ledger,
that no handle runs twice, and that a stream outside the batch holds nothing.

Main statements: changes that leave the tables alone keep the books
(`Books.frame`); what one stream holds can be taken out of the list and put back
(`heldBlocks_perm`), so a change to one table changes the list there and nowhere
else (`heldBlocks_of_erase`, `heldBlocks_of_append`, `heldBlocks_of_update`).
-/
import PagedServe.Scheduler.Basic
import PagedServe.Proofs.Ledger
import PagedServe.Proofs.Stream

namespace PagedServe

namespace Scheduler

variable {s s' : Scheduler} {h k : Handle}

theorem isLive_iff : s.isLive h = true ↔ (s.stream h).isTerminal = false := by
  rw [isLive, Bool.not_eq_true']

theorem not_isLive_iff : s.isLive h = false ↔ (s.stream h).isTerminal = true := by
  rw [isLive, Bool.not_eq_false']

/-- The blocks in the table of a stream. -/
def blocksOf (s : Scheduler) (h : Handle) : List Nat := (s.stream h).table.ids

/-- The blocks in the tables of the running streams. -/
def heldBlocks (s : Scheduler) : List Nat := s.running.flatMap s.blocksOf

/-- The same without those of one stream. -/
def heldWithout (s : Scheduler) (h : Handle) : List Nat := (s.running.erase h).flatMap s.blocksOf

/-- Every reference is accounted for, and only running streams hold blocks. -/
structure Books (s : Scheduler) : Prop where
  ledger : s.allocator.Ledger s.heldBlocks
  nodup : s.running.Nodup
  started : ∀ h ∈ s.running, (s.stream h).phase ≠ .waiting
  tables : ∀ h ∈ s.running, (s.stream h).table.blockSize = s.blockSize
  idle : ∀ h, h ∉ s.running → s.blocksOf h = []
  known : ∀ h ∈ s.running, h < s.streams.size
  queued : ∀ h ∈ s.waiting, h < s.streams.size

/-! ### The streams of a changed table -/

@[simp] theorem size_setStream (s : Scheduler) (h : Handle) (x : Stream) :
    (s.setStream h x).streams.size = s.streams.size := Array.size_setIfInBounds

theorem stream_setStream_self {x : Stream} (hh : h < s.streams.size) :
    (s.setStream h x).stream h = x := by
  rw [stream_setStream, if_pos ⟨rfl, hh⟩]

theorem stream_setStream_of_ne {x : Stream} (hk : k ≠ h) :
    (s.setStream h x).stream k = s.stream k := by
  rw [stream_setStream, if_neg fun hc => hk hc.1]

theorem setStream_setStream (s : Scheduler) (h : Handle) (x y : Stream) :
    (s.setStream h x).setStream h y = s.setStream h y := by
  rw [setStream, setStream, setStream, Array.setIfInBounds_setIfInBounds]

/-- A stream that is put back as it was. -/
theorem setStream_stream (s : Scheduler) (h : Handle) : s.setStream h (s.stream h) = s := by
  have hsame : s.streams.setIfInBounds h (s.stream h) = s.streams := by
    ext i hi hi'
    · exact Array.size_setIfInBounds
    · rw [Array.getElem_setIfInBounds hi']
      split
      case isTrue heq =>
        subst heq
        exact (Array.getElem_eq_getD _).symm
      case isFalse => rfl
  rw [setStream, hsame]

/-- A handle outside the table names a blank stream. -/
theorem stream_of_le (hh : s.streams.size ≤ h) : s.stream h = Stream.new 0 ⟨[], 0, 0⟩ 0 := by
  rw [Scheduler.stream, Array.getD_eq_getD_getElem?, Array.getElem?_eq_none hh]
  rfl

/-- A new stream has the next handle. -/
theorem stream_push {x : Stream} (hk : k ≠ s.streams.size) :
    stream { s with streams := s.streams.push x } k = s.stream k := by
  simp only [Scheduler.stream, Array.getD_eq_getD_getElem?, Array.getElem?_push, if_neg hk]

theorem stream_push_size {x : Stream} :
    stream { s with streams := s.streams.push x } s.streams.size = x := by
  simp only [Scheduler.stream, Array.getD_eq_getD_getElem?, Array.getElem?_push, if_true,
    Option.getD_some]

/-- What holds of every stream and of the new one. -/
theorem forall_push {P : Stream → Prop} {x : Stream} (hs : ∀ k, P (s.stream k)) (hx : P x)
    (k : Handle) : P (stream { s with streams := s.streams.push x } k) := by
  by_cases hk : k = s.streams.size
  · rw [hk, stream_push_size]
    exact hx
  · rw [stream_push hk]
    exact hs k

/-- A stream that is put back later on, wherever it stands. -/
theorem continues_setStream {x : Stream} (hx : Stream.Continues (s.stream h) x) (k : Handle) :
    Stream.Continues (s.stream k) ((s.setStream h x).stream k) := by
  rw [stream_setStream]
  split
  case isTrue hk =>
    rw [hk.1]
    exact hx
  case isFalse => exact .refl _

/-- What holds of every stream and of the one put back. -/
theorem forall_setStream {P : Stream → Prop} {x : Stream} (hs : ∀ k, P (s.stream k)) (hx : P x)
    (k : Handle) : P ((s.setStream h x).stream k) := by
  rw [stream_setStream]
  split
  · exact hx
  · exact hs k

/-! ### Taking one stream out of the list -/

theorem heldBlocks_perm (hh : h ∈ s.running) :
    s.heldBlocks.Perm (s.blocksOf h ++ s.heldWithout h) := by
  have hperm := (List.perm_cons_erase hh).flatMap_right s.blocksOf
  rwa [List.flatMap_cons] at hperm

theorem heldBlocks_congr (hrun : s'.running = s.running)
    (hsame : ∀ k ∈ s.running, s'.blocksOf k = s.blocksOf k) : s'.heldBlocks = s.heldBlocks := by
  rw [heldBlocks, heldBlocks, hrun]
  exact List.flatMap_congr hsame

theorem not_mem_erase (hd : s.running.Nodup) : h ∉ s.running.erase h := by
  rw [hd.mem_erase_iff]
  exact fun hc => hc.1 rfl

/-- A stream leaves the batch with its blocks. -/
theorem heldBlocks_of_erase (hd : s.running.Nodup) (hrun : s'.running = s.running.erase h)
    (hsame : ∀ k, k ≠ h → s'.blocksOf k = s.blocksOf k) : s'.heldBlocks = s.heldWithout h := by
  rw [heldBlocks, heldWithout, hrun]
  refine List.flatMap_congr fun k hk => hsame k ?_
  rintro rfl
  exact not_mem_erase hd hk

/-- A stream joins the batch with its blocks. -/
theorem heldBlocks_of_append (hh : h ∉ s.running) (hrun : s'.running = s.running ++ [h])
    (hsame : ∀ k, k ≠ h → s'.blocksOf k = s.blocksOf k) :
    s'.heldBlocks = s.heldBlocks ++ s'.blocksOf h := by
  rw [heldBlocks, heldBlocks, hrun, List.flatMap_append, List.flatMap_cons, List.flatMap_nil,
    List.append_nil]
  congr 1
  refine List.flatMap_congr fun k hk => hsame k ?_
  rintro rfl
  exact hh hk

/-- A stream of the batch changes its blocks. -/
theorem heldBlocks_of_update (hd : s.running.Nodup) (hh : h ∈ s.running)
    (hrun : s'.running = s.running) (hsame : ∀ k, k ≠ h → s'.blocksOf k = s.blocksOf k) :
    s'.heldBlocks.Perm (s'.blocksOf h ++ s.heldWithout h) := by
  have hrest : s'.heldWithout h = s.heldWithout h := by
    rw [heldWithout, heldWithout, hrun]
    refine List.flatMap_congr fun k hk => hsame k ?_
    rintro rfl
    exact not_mem_erase hd hk
  rw [← hrest]
  exact heldBlocks_perm (hrun ▸ hh)

theorem mem_heldBlocks {b : Nat} : b ∈ s.heldBlocks ↔ ∃ h ∈ s.running, b ∈ s.blocksOf h :=
  List.mem_flatMap

/-! ### The books -/

namespace Books

variable (B : s.Books)

include B

/-- The ledger, with the blocks of one stream in front. -/
theorem ledger_of_mem (hh : h ∈ s.running) :
    s.allocator.Ledger (s.blocksOf h ++ s.heldWithout h) :=
  B.ledger.congr fun _ => ((heldBlocks_perm hh).count_eq _).symm

theorem blockSize_pos : 0 < s.blockSize := B.ledger.sizePos

/-- A stream of the batch that has not ended is running. -/
theorem running_of_live (hh : h ∈ s.running) (hlive : s.isLive h = true) :
    (s.stream h).phase = .running :=
  Stream.phase_of_live (isLive_iff.mp hlive) (B.started h hh)

/-- As large blocks and as many of them. -/
theorem sameRoom (B' : s'.Books) (hshape : Allocator.SameShape s.allocator s'.allocator) :
    s'.blockSize = s.blockSize ∧ s'.allocator.pool.usable = s.allocator.pool.usable :=
  ⟨congrArg Geometry.blockSize hshape.geometry, by
    rw [B'.ledger.usable_eq, B.ledger.usable_eq, hshape.geometry]⟩

/-- Blocks that a scheduler knows of are usable ones. -/
theorem usable {b : Nat} (hb : b ∈ s.heldBlocks ∨ b ∈ s.allocator.cache.blocks) :
    0 < b ∧ b < s.allocator.geometry.blocks := by
  rcases hb with hb | hb
  · exact B.ledger.usable_of_refsOf (B.ledger.refsOf_pos_of_mem hb)
  · exact B.ledger.usable_of_refsOf (B.ledger.refsOf_pos_of_cached hb)

/-- A change that leaves tables and batch alone keeps the books. -/
theorem frame (hrun : s'.running = s.running) (hledger : s'.allocator.Ledger s.heldBlocks)
    (hgeometry : s'.allocator.geometry = s.allocator.geometry)
    (htable : ∀ k, (s'.stream k).table = (s.stream k).table)
    (hphase : ∀ k ∈ s.running, (s'.stream k).phase ≠ .waiting)
    (hsize : s.streams.size ≤ s'.streams.size)
    (hqueued : ∀ k ∈ s'.waiting, k < s'.streams.size) : s'.Books := by
  have hblocks : ∀ k, s'.blocksOf k = s.blocksOf k := fun k => by rw [blocksOf, htable]; rfl
  -- ledger and geometry are the new allocator's, all else is read off tables and phases
  refine ⟨?_, ?_, ?_, ?_, ?_, ?_, hqueued⟩
  · rw [heldBlocks_congr hrun fun k _ => hblocks k]
    exact hledger
  · rw [hrun]
    exact B.nodup
  · rw [hrun]
    exact hphase
  · rw [hrun, blockSize, hgeometry]
    intro k hk
    rw [htable]
    exact B.tables k hk
  · intro k hk
    rw [hblocks]
    exact B.idle k (hrun ▸ hk)
  · intro k hk
    exact Nat.lt_of_lt_of_le (B.known k (hrun ▸ hk)) hsize

/-- Putting a stream back later on keeps the books.  The allocator may change as
long as the holders stay, and the queue as long as its handles are in the table. -/
theorem touch {x : Stream} {a : Allocator} {w : List Handle}
    (hx : Stream.Continues (s.stream h) x) (ha : a.Ledger s.heldBlocks)
    (hg : a.geometry = s.allocator.geometry) (hw : ∀ k ∈ w, k < s.streams.size) :
    Books { s.setStream h x with allocator := a, waiting := w } := by
  refine B.frame rfl ha hg (fun k => (continues_setStream hx k).table) ?_ ?_ ?_
  · intro k hk
    exact (continues_setStream hx k).phase_ne rfl (B.started k hk)
  · exact Nat.le_of_eq (size_setStream s h x).symm
  · intro k hk
    exact Nat.lt_of_lt_of_eq (hw k hk) (size_setStream s h x).symm

theorem setStream {x : Stream} (hx : Stream.Continues (s.stream h) x) : (s.setStream h x).Books :=
  B.touch hx B.ledger rfl B.queued

theorem setQueue {a : Allocator} {w : List Handle} (ha : a.Ledger s.heldBlocks)
    (hg : a.geometry = s.allocator.geometry) (hw : ∀ k ∈ w, k < s.streams.size) :
    Books { s with allocator := a, waiting := w } :=
  B.frame rfl ha hg (fun _ => rfl) B.started (Nat.le_refl _) hw

end Books

end Scheduler

end PagedServe
