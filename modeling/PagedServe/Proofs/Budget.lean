/-
PagedServe/Proofs/Budget.lean

What a sizing that succeeds has found.

The settings need not have been accepted: whatever they are, a geometry comes out only if every
checked step on the way went well (`forBudget_of_ok`).  The last step divides the budget by the
bytes of a block, so these are not zero, and no factor of them is.  Nothing else is checked, but
all later sizes follow from the quotient: the bytes of all blocks stay within the budget, and
those of one array are half of them (`two_mul_arrayBytes`).  So no product over the dimensions
overflows in whatever order it is taken (`elementCount_eq`), and half of a number of 64 bits is
room that one array can have.

Main statement: a geometry that comes out of a sizing fills its budget (`forBudget_fills`).
-/
import PagedServe.Proofs.Ledger
import PagedServe.Proofs.Sizing
import Mathlib.Tactic.Ring

namespace PagedServe

namespace BlockMemory

/-! ### Products of dimensions -/

/-- Factors that are not zero can be multiplied one after another just if the product fits. -/
theorem foldlM_mul {dims : List Nat} (h : ∀ d ∈ dims, 0 < d) (n : Nat) :
    (Word.fit n >>= fun m => dims.foldlM Word.mul m) = Word.fit (n * dims.prod) := by
  induction dims generalizing n with
  | nil =>
    rw [List.prod_nil, Nat.mul_one]
    exact bind_pure _
  | cons d dims ih =>
    have hd : 0 < d := h d List.mem_cons_self
    show (Word.fit n >>= fun m => Word.mul m d >>= fun k => dims.foldlM Word.mul k) = _
    rw [← bind_assoc, Word.fit_bind_mul n hd, ih fun x hx => h x (List.mem_cons_of_mem d hx),
      List.prod_cons, Nat.mul_assoc]

theorem product_eq {dims : List Nat} (h : ∀ d ∈ dims, 0 < d) :
    product dims = Word.fit dims.prod := by
  have hone : Word.fit 1 = .ok 1 := Word.fit_of_lt (by decide)
  have hfold := foldlM_mul h 1
  rw [hone, Nat.one_mul] at hfold
  exact hfold

/-- The order in which the dimensions are multiplied does not matter if none is zero. -/
theorem elementCount_eq {dims : List Nat} (h : ∀ d ∈ dims, 0 < d) :
    elementCount dims = Word.fit dims.prod := by
  have hreverse : product dims.reverse = Word.fit dims.prod := by
    rw [product_eq fun d hd => h d (List.mem_reverse.mp hd), List.prod_reverse]
  show (product dims.reverse >>= fun _ => product dims) = _
  rw [hreverse, product_eq h]
  rcases Nat.lt_or_ge dims.prod Word.limit with hfits | hover
  · rw [Word.fit_of_lt hfits]
    rfl
  · rw [Word.fit_of_le hover]
    rfl

end BlockMemory

namespace Geometry

variable {g : Geometry} {memory : MemoryBudget} {deviceFree : Nat}

/-! ### A sizing that succeeds -/

theorem blockBytes_of_ok {bytes : Nat} (h : g.blockBytes = .ok bytes) :
    bytes = g.bytesPerBlock := by
  obtain ⟨stride, hstride, h⟩ := except_bind_eq_ok.mp h
  obtain ⟨layers, hlayers, h⟩ := except_bind_eq_ok.mp h
  obtain ⟨components, hcomponents, hstride⟩ := except_bind_eq_ok.mp hstride
  obtain ⟨tokens, htokens, hstride⟩ := except_bind_eq_ok.mp hstride
  rw [(Word.mul_eq_ok.mp h).2, (Word.mul_eq_ok.mp hlayers).2, (Word.mul_eq_ok.mp hstride).2,
    (Word.mul_eq_ok.mp htokens).2, (Word.mul_eq_ok.mp hcomponents).2]
  rfl

theorem budgetBytes_of_ok {budget : Nat} (hfree : deviceFree < Word.limit)
    (h : budgetBytes memory deviceFree = .ok budget) :
    budget = budgetOf memory deviceFree ∧ budget < Word.limit := by
  rw [budgetBytes_eq] at h
  split at h
  case isTrue => cases h
  case isFalse hset =>
  split at h
  case isTrue => cases h
  case isFalse hleft =>
  obtain rfl := Except.ok.inj h
  refine ⟨rfl, ?_⟩
  -- without a set budget it is a part of what is free
  by_cases hnone : memory.cacheMiB = none
  · rw [budgetOf_of_unset hnone]
    omega
  · rw [budgetOf_of_set hnone]
    exact Nat.not_le.mp hset

/-- A geometry comes out just if a block has bytes and the budget holds two blocks. -/
theorem forBudget_of_ok {model : ModelShape} (hfree : deviceFree < Word.limit)
    (h : forBudget model memory deviceFree = .ok g) :
    g.blockBytes = .ok g.bytesPerBlock ∧ 0 < g.bytesPerBlock ∧ 2 ≤ g.blocks ∧
      g.blocks = budgetOf memory deviceFree / g.bytesPerBlock ∧
      budgetOf memory deviceFree < Word.limit := by
  obtain ⟨shape, -, h⟩ := except_bind_eq_ok.mp h
  obtain ⟨budget, hbudget, h⟩ := except_bind_eq_ok.mp h
  obtain ⟨rfl, hlt⟩ := budgetBytes_of_ok hfree hbudget
  obtain ⟨bytes, hbytes, h⟩ := except_bind_eq_ok.mp h
  obtain rfl := blockBytes_of_ok hbytes
  obtain ⟨blocks, hblocks, h⟩ := except_bind_eq_ok.mp h
  unfold Word.div at hblocks
  split at hblocks
  case isTrue => cases hblocks
  case isFalse hpos =>
  obtain rfl := Except.ok.inj hblocks
  split at h
  case isTrue => cases h
  case isFalse htwo =>
  -- the number of blocks is no factor of the bytes of one
  obtain rfl := Except.ok.inj h
  exact ⟨hbytes, Nat.pos_of_ne_zero hpos, Nat.not_lt.mp htwo, rfl, hlt⟩

/-! ### The arrays and the pool of such a geometry -/

theorem dims_pos (hbytes : 0 < g.bytesPerBlock) (hblocks : 0 < g.blocks) :
    ∀ d ∈ BlockMemory.dims g, 0 < d := by
  have hfactors : g.bytesPerBlock ≠ 0 := Nat.pos_iff_ne_zero.mp hbytes
  simp only [bytesPerBlock, mul_ne_zero_iff] at hfactors
  simp only [BlockMemory.dims, List.forall_mem_cons]
  simp [Nat.pos_iff_ne_zero, hfactors, Nat.pos_iff_ne_zero.mp hblocks]

/-- One array takes half of the bytes of all blocks. -/
theorem two_mul_arrayBytes (g : Geometry) :
    2 * ((BlockMemory.dims g).prod * g.element.bytes) = g.bytesPerBlock * g.blocks := by
  simp only [BlockMemory.dims, bytesPerBlock, List.prod_cons, List.prod_nil]
  ring

theorem arrays_of_fit (hpos : ∀ d ∈ BlockMemory.dims g, 0 < d)
    (htotal : g.bytesPerBlock * g.blocks < Word.limit) {α : Type} (zero : α) :
    ∃ m, BlockMemory.new g zero = .ok m ∧ m.geometry = g ∧
      m.totalBytes = .ok (g.bytesPerBlock * g.blocks) := by
  -- the bytes of all blocks are those of two arrays, multiplied in another order
  have hhalf := two_mul_arrayBytes g
  have helement := g.element.bytes_pos
  have hbytes : (BlockMemory.dims g).prod ≤ (BlockMemory.dims g).prod * g.element.bytes :=
    Nat.le_mul_of_pos_right _ helement
  have hcount : BlockMemory.elementCount (BlockMemory.dims g) = .ok (BlockMemory.dims g).prod := by
    rw [BlockMemory.elementCount_eq hpos, Word.fit_of_lt (by omega)]
  have hroom : Word.room (BlockMemory.dims g).prod g.element.bytes = .ok () := by
    have hlimit : Word.limit = 2 * (Word.maxBytes + 1) := rfl
    exact Word.room_eq_ok.mpr (by omega)
  have hshape : BlockMemory.checkShape (BlockMemory.dims g) g.element = .ok () :=
    except_bind_eq_ok.mpr ⟨_, hcount, hroom⟩
  refine ⟨_, except_bind_eq_ok.mpr ⟨_, hshape, rfl⟩, rfl, ?_⟩
  refine except_bind_eq_ok.mpr ⟨_, hcount, ?_⟩
  refine except_bind_eq_ok.mpr ⟨_, Word.add_eq_ok.mpr ⟨by omega, rfl⟩, ?_⟩
  -- both arrays together, by the memory and by the geometry
  have hdouble : ((BlockMemory.dims g).prod + (BlockMemory.dims g).prod) * g.element.bytes =
      g.bytesPerBlock * g.blocks := by
    rw [← hhalf]
    ring
  refine Word.mul_eq_ok.mpr ⟨?_, hdouble.symm⟩
  show (_ + _) * g.element.bytes < _
  rw [hdouble]
  exact htotal

/-- An allocator is made if its arrays and the records of its pool find room. -/
theorem newWith_iff_room {hash : ChainHash} {memory : BlockMemory UInt32}
    (hsize : g.blockSize ≠ 0) (hmemory : BlockMemory.new g 0 = .ok memory) :
    (∃ a, Allocator.newWith hash g = .ok a) ↔ g.blocks * Pool.recordBytes ≤ Word.maxBytes := by
  have hunfold : Allocator.newWith hash g = (Pool.create g.blocks >>= fun pool =>
      .ok ⟨g, pool, PrefixCache.new g.blockSize hash, memory⟩) := by
    unfold Allocator.newWith
    rw [if_neg hsize, hmemory]
    rfl
  rw [hunfold]
  constructor
  · rintro ⟨a, ha⟩
    obtain ⟨pool, hpool, -⟩ := except_bind_eq_ok.mp ha
    obtain ⟨⟨⟩, hroom, -⟩ := except_bind_eq_ok.mp hpool
    exact Word.room_eq_ok.mp hroom
  · exact fun hroom => ⟨_, except_bind_eq_ok.mpr ⟨_, Pool.create_of_room hroom, rfl⟩⟩

/-! ### What the sizing promises -/

/-- A geometry uses a budget of so many bytes as well as can be, and everything that is made
of it has the size that was planned. -/
structure Fills (g : Geometry) (budget : Nat) : Prop where
  /-- One block is reserved, so there is another. -/
  two_le : 2 ≤ g.blocks
  /-- The bytes of a block are computed without leaving 64 bits. -/
  blockBytes : g.blockBytes = .ok g.bytesPerBlock
  /-- The budget holds this number of blocks and no more. -/
  largest : ∀ n, n * g.bytesPerBlock ≤ budget ↔ n ≤ g.blocks
  /-- So are the bytes of all blocks, and the budget holds them. -/
  totalBytes : g.totalBytes = .ok (g.bytesPerBlock * g.blocks)
  within : g.bytesPerBlock * g.blocks ≤ budget
  /-- The arrays can be made, whatever they are filled with, and hold just these bytes. -/
  arrays : ∀ {α : Type} (zero : α), ∃ m, BlockMemory.new g zero = .ok m ∧ m.geometry = g ∧
    m.totalBytes = g.totalBytes
  /-- An allocator can be made just if a list can have a record for every block. -/
  allocator : ∀ hash, (∃ a, Allocator.newWith hash g = .ok a) ↔
    g.blocks * Pool.recordBytes ≤ Word.maxBytes
  /-- All blocks of such an allocator but the reserved one can be handed out, and there is one. -/
  usable : ∀ hash a, Allocator.newWith hash g = .ok a →
    a.pool.usable = g.blocks - 1 ∧ 1 ≤ a.pool.usable

/-- Whatever the model and the memory settings, on a device with any number of bytes free: a
geometry that comes out of the sizing fills the budget that they leave. -/
theorem forBudget_fills {model : ModelShape} (hfree : deviceFree < Word.limit)
    (h : forBudget model memory deviceFree = .ok g) : g.Fills (budgetOf memory deviceFree) := by
  obtain ⟨hbytes, hpos, htwo, hquot, hbudget⟩ := forBudget_of_ok hfree h
  have hlargest : ∀ n, n * g.bytesPerBlock ≤ budgetOf memory deviceFree ↔ n ≤ g.blocks :=
    fun n => hquot ▸ (Nat.le_div_iff_mul_le hpos).symm
  have hwithin : g.bytesPerBlock * g.blocks ≤ budgetOf memory deviceFree :=
    Nat.mul_comm .. ▸ (hlargest g.blocks).mpr Nat.le.refl
  have hfits : g.bytesPerBlock * g.blocks < Word.limit := Nat.lt_of_le_of_lt hwithin hbudget
  have htotal : g.totalBytes = .ok (g.bytesPerBlock * g.blocks) :=
    except_bind_eq_ok.mpr ⟨_, hbytes, Word.fit_of_lt hfits⟩
  have hdims := dims_pos hpos (by omega)
  refine ⟨htwo, hbytes, hlargest, htotal, hwithin,
    fun zero => htotal ▸ arrays_of_fit hdims hfits zero, fun hash => ?_, fun hash a ha => ?_⟩
  · -- an allocator needs room for its pool as well
    obtain ⟨memory, hmemory, -⟩ := arrays_of_fit hdims hfits (0 : UInt32)
    have hsize : 0 < g.blockSize := hdims _ (by simp [BlockMemory.dims])
    exact newWith_iff_room (Nat.pos_iff_ne_zero.mp hsize) hmemory
  · -- one block of those is reserved
    obtain ⟨-, -, hpool, -⟩ := Allocator.newWith_eq_ok ha
    have husable : a.pool.usable = g.blocks - 1 := by
      rw [hpool]
      exact congrArg (· - 1) (Pool.total_new g.blocks)
    exact ⟨husable, by omega⟩

/-- The model with the smallest block: two bytes of keys and two of values. -/
def smallest : ModelShape := { hiddenSize := 1, layers := 1, heads := 1, kvHeads := 1 }

/-- The largest budget in such blocks: the arrays take all but `2 ^ 20` bytes of the address
space, each of them nearly half. -/
theorem forBudget_fills_largest :
    forBudget smallest { blockSize := 1, cacheMiB := some (Word.limit / mebibyte - 1) } 0 =
        .ok { blocks := 2 ^ 62 - 2 ^ 18, blockSize := 1 } ∧
      Fills { blocks := 2 ^ 62 - 2 ^ 18, blockSize := 1 } (2 ^ 64 - 2 ^ 20) := by
  have hsized : forBudget smallest
      { blockSize := 1, cacheMiB := some (Word.limit / mebibyte - 1) } 0 =
        .ok { blocks := 2 ^ 62 - 2 ^ 18, blockSize := 1 } := rfl
  exact ⟨hsized, forBudget_fills (by decide) hsized⟩

end Geometry

end PagedServe
