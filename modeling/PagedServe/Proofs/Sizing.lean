/-
PagedServe/Proofs/Sizing.lean

When the cache can be sized.

Two quantities are computed on the way from the settings to the number of blocks: the bytes of
one block, a product of six factors, and the bytes of the one setting that is given in units of
`2 ^ 20` bytes, be it the budget or the reserve.  Both are taken in 64 bits, and accepted
settings bound neither.

A product that is taken factor by factor stays in range just if the whole does, because none
of the later factors is zero (`Word.fit_bind_mul`).  So each of the two quantities is a number
that fits or an overflow (`blockBytes_eq`, `budgetBytes_eq`), and the sizing of accepted settings
is a list of cases between plain numbers (`forBudget_eq`).

Main statement: accepted settings are sized or refused with a reason, unless a quantity that is
needed leaves 64 bits; then, and only then, the sizing aborts, and the fault is an overflow
(`sized_or_overlarge`).  A reserve of `2 ^ 44` units is such a case (`overlarge_reserve_aborts`).
-/
import PagedServe.Geometry

namespace PagedServe

namespace Geometry

/-! ### The bytes of a block -/

/-- Bytes of one block over all layers, keys and values, whether or not they fit. -/
def bytesPerBlock (g : Geometry) : Nat :=
  g.heads * g.headDim * g.blockSize * g.element.bytes * g.layers * 2

theorem strideBytes_eq {g : Geometry} (hsize : 0 < g.blockSize) :
    g.strideBytes = Word.fit (g.heads * g.headDim * g.blockSize * g.element.bytes) := by
  show (Word.fit (g.heads * g.headDim) >>= fun m => Word.mul m g.blockSize >>= fun m =>
    Word.mul m g.element.bytes) = _
  rw [← bind_assoc, Word.fit_bind_mul _ hsize, Word.fit_bind_mul _ g.element.bytes_pos]

theorem blockBytes_eq {g : Geometry} (hsize : 0 < g.blockSize) (hlayers : 0 < g.layers) :
    g.blockBytes = Word.fit g.bytesPerBlock := by
  show (g.strideBytes >>= fun m => Word.mul m g.layers >>= fun m => Word.mul m 2) = _
  rw [← bind_assoc, strideBytes_eq hsize, Word.fit_bind_mul _ hlayers,
    Word.fit_bind_mul _ Nat.two_pos]
  rfl

/-! ### The budget -/

/-- The bytes of the one setting that is in use: the budget, or the reserve if there is none. -/
def settingBytes (memory : MemoryBudget) : Nat :=
  memory.cacheMiB.getD memory.reserveMiB * mebibyte

/-- No budget is set, and the device has no more memory than the reserve. -/
def NothingLeft (memory : MemoryBudget) (deviceFree : Nat) : Prop :=
  memory.cacheMiB = none ∧ deviceFree ≤ settingBytes memory

instance (memory : MemoryBudget) (deviceFree : Nat) : Decidable (NothingLeft memory deviceFree) :=
  inferInstanceAs (Decidable (_ ∧ _))

/-- The bytes for the cache: what is set, or what the reserve leaves. -/
def budgetOf (memory : MemoryBudget) (deviceFree : Nat) : Nat :=
  if memory.cacheMiB = none then deviceFree - settingBytes memory else settingBytes memory

theorem budgetOf_of_set {memory : MemoryBudget} (h : memory.cacheMiB ≠ none) (deviceFree : Nat) :
    budgetOf memory deviceFree = settingBytes memory := if_neg h

theorem budgetOf_of_unset {memory : MemoryBudget} (h : memory.cacheMiB = none)
    (deviceFree : Nat) : budgetOf memory deviceFree = deviceFree - settingBytes memory := if_pos h

theorem budgetBytes_eq (memory : MemoryBudget) (deviceFree : Nat) :
    budgetBytes memory deviceFree =
      if Word.limit ≤ settingBytes memory then .error (.fault .overflow)
      else if NothingLeft memory deviceFree then
        .error (.error (.settings (.withinReserve deviceFree (settingBytes memory))))
      else .ok (budgetOf memory deviceFree) := by
  obtain ⟨blockSize, cacheMiB, reserveMiB⟩ := memory
  rcases Nat.lt_or_ge (settingBytes ⟨blockSize, cacheMiB, reserveMiB⟩) Word.limit with hfits | hover
  · -- the bytes that are set fit into 64 bits
    rw [if_neg (Nat.not_le.mpr hfits)]
    cases cacheMiB with
    | some mib =>
      have hset : (⟨blockSize, some mib, reserveMiB⟩ : MemoryBudget).cacheMiB ≠ none :=
        Option.some_ne_none mib
      rw [if_neg fun h => hset h.1, budgetOf_of_set hset]
      exact Word.fit_of_lt hfits
    | none =>
      show (Word.fit (settingBytes ⟨blockSize, none, reserveMiB⟩) >>= _) = _
      rw [Word.fit_of_lt hfits, budgetOf_of_unset rfl]
      by_cases hleft : deviceFree ≤ settingBytes ⟨blockSize, none, reserveMiB⟩
      · rw [if_pos ⟨rfl, hleft⟩]
        exact if_pos hleft
      · rw [if_neg fun h => hleft h.2]
        exact if_neg hleft
  · -- they do not
    rw [if_pos hover]
    cases cacheMiB with
    | some mib => exact Word.fit_of_le hover
    | none =>
      show (Word.fit (settingBytes ⟨blockSize, none, reserveMiB⟩) >>= _) = _
      rw [Word.fit_of_le hover]
      rfl

/-! ### The sizing -/

/-- The shape of one block of a model. -/
def shapeOf (s : Settings) : Geometry where
  layers := s.model.layers
  blocks := 0
  heads := s.model.kvHeads
  headDim := s.model.hiddenSize / s.model.heads
  blockSize := s.memory.blockSize
  element := s.model.element

/-- A block of an accepted shape takes some bytes. -/
theorem bytesPerBlock_pos {s : Settings} (h : s.validate = .ok ())
    (hdim : s.model.hiddenSize / s.model.heads ≠ 0) : 0 < (shapeOf s).bytesPerBlock := by
  obtain ⟨hsize, -, hkv, hlayers, -⟩ := Settings.validate_eq_ok.mp h
  have hfactors : ∀ {a b : Nat}, a ≠ 0 → b ≠ 0 → a * b ≠ 0 := fun ha hb => Nat.mul_ne_zero ha hb
  refine Nat.pos_of_ne_zero (hfactors (hfactors (hfactors (hfactors (hfactors hkv hdim) hsize) ?_)
    hlayers) (by decide))
  exact Nat.pos_iff_ne_zero.mp s.model.element.bytes_pos

/-- The sizing of accepted settings as a list of cases between plain numbers. -/
theorem forBudget_eq {s : Settings} (h : s.validate = .ok ()) (deviceFree : Nat) :
    forBudget s.model s.memory deviceFree =
      let bytes := (shapeOf s).bytesPerBlock
      let budget := budgetOf s.memory deviceFree
      if s.model.hiddenSize / s.model.heads = 0 then
        .error (.error (.settings .noAttentionHeads))
      else if Word.limit ≤ settingBytes s.memory then .error (.fault .overflow)
      else if NothingLeft s.memory deviceFree then
        .error (.error (.settings (.withinReserve deviceFree (settingBytes s.memory))))
      else if Word.limit ≤ bytes then .error (.fault .overflow)
      else if budget / bytes < 2 then
        .error (.error (.settings (.tooFewBlocks budget (budget / bytes) bytes)))
      else .ok { shapeOf s with blocks := budget / bytes } := by
  obtain ⟨hsize, hheads, -, hlayers, -⟩ := Settings.validate_eq_ok.mp h
  have hdiv : s.model.headDim = .ok (s.model.hiddenSize / s.model.heads) := if_neg hheads
  have hmodel : forModel s.model s.memory =
      if s.model.hiddenSize / s.model.heads = 0 then
        .error (.error (.settings .noAttentionHeads))
      else .ok (shapeOf s) := by
    unfold forModel
    rw [if_neg hsize, if_neg hheads, hdiv]
    rfl
  have hbytes : (shapeOf s).blockBytes = Word.fit (shapeOf s).bytesPerBlock :=
    blockBytes_eq (Nat.pos_of_ne_zero hsize) (Nat.pos_of_ne_zero hlayers)
  unfold forBudget
  rw [hmodel]
  -- one check after the other, in the order in which the sizing makes them
  by_cases hdim : s.model.hiddenSize / s.model.heads = 0
  · rw [if_pos hdim, if_pos hdim]
    rfl
  rw [if_neg hdim, if_neg hdim]
  show (budgetBytes s.memory deviceFree >>= _) = _
  rw [budgetBytes_eq]
  by_cases hset : Word.limit ≤ settingBytes s.memory
  · rw [if_pos hset, if_pos hset]
    rfl
  rw [if_neg hset, if_neg hset]
  by_cases hleft : NothingLeft s.memory deviceFree
  · rw [if_pos hleft, if_pos hleft]
    rfl
  rw [if_neg hleft, if_neg hleft]
  show ((shapeOf s).blockBytes >>= _) = _
  rw [hbytes]
  by_cases hover : Word.limit ≤ (shapeOf s).bytesPerBlock
  · rw [Word.fit_of_le hover, if_pos hover]
    rfl
  rw [Word.fit_of_lt (Nat.not_le.mp hover), if_neg hover]
  have hquot : Word.div (budgetOf s.memory deviceFree) (shapeOf s).bytesPerBlock =
      .ok (budgetOf s.memory deviceFree / (shapeOf s).bytesPerBlock) :=
    if_neg (Nat.pos_iff_ne_zero.mp (bytesPerBlock_pos h hdim))
  show (Word.div _ _ >>= _) = _
  rw [hquot]
  rfl

/-- A quantity leaves 64 bits on the way to the number of blocks: the setting that is scaled,
or, if there is a budget at all, the bytes of a block. -/
def Overlarge (s : Settings) (deviceFree : Nat) : Prop :=
  s.model.hiddenSize / s.model.heads ≠ 0 ∧
    (Word.limit ≤ settingBytes s.memory ∨
      ¬ NothingLeft s.memory deviceFree ∧ Word.limit ≤ (shapeOf s).bytesPerBlock)

instance (s : Settings) (deviceFree : Nat) : Decidable (Overlarge s deviceFree) :=
  inferInstanceAs (Decidable (_ ∧ (_ ∨ _)))

/-- Accepted settings of any size, on a device with any number of bytes free: the sizing
overflows just if a quantity that it needs leaves 64 bits.  Otherwise it gives a geometry or
says what is wrong with the settings.  There is no other fault: nothing is divided by zero. -/
theorem sized_or_overlarge {s : Settings} (h : s.validate = .ok ()) (deviceFree : Nat) :
    (Overlarge s deviceFree ∧
      forBudget s.model s.memory deviceFree = .error (.fault .overflow)) ∨
    (¬ Overlarge s deviceFree ∧
      ((∃ g, forBudget s.model s.memory deviceFree = .ok g) ∨
        ∃ cause, forBudget s.model s.memory deviceFree = .error (.error (.settings cause)))) := by
  rw [forBudget_eq h]
  dsimp only
  split
  case isTrue hdim => exact Or.inr ⟨fun ho => ho.1 hdim, Or.inr ⟨_, rfl⟩⟩
  case isFalse hdim =>
  split
  case isTrue hset => exact Or.inl ⟨⟨hdim, Or.inl hset⟩, rfl⟩
  case isFalse hset =>
  split
  case isTrue hleft =>
    exact Or.inr ⟨fun ho => ho.2.elim hset fun hb => hb.1 hleft, Or.inr ⟨_, rfl⟩⟩
  case isFalse hleft =>
  split
  case isTrue hbytes => exact Or.inl ⟨⟨hdim, Or.inr ⟨hleft, hbytes⟩⟩, rfl⟩
  case isFalse hbytes =>
  have hno : ¬ Overlarge s deviceFree := fun ho => ho.2.elim hset fun hb => hbytes hb.2
  split
  case isTrue => exact Or.inr ⟨hno, Or.inr ⟨_, rfl⟩⟩
  case isFalse => exact Or.inr ⟨hno, Or.inl ⟨_, rfl⟩⟩

/-- Settings with the largest reserve that fits in bytes. -/
def hoarding : Settings := { memory := { reserveMiB := Word.limit / mebibyte - 1 } }

/-- The reserve takes all but `2 ^ 20 - 1` bytes of the largest device, and these hold five
blocks. -/
theorem sized_or_overlarge_hoarding : hoarding.validate = .ok () ∧
    ¬ Overlarge hoarding (Word.limit - 1) ∧
    ∃ g, forBudget hoarding.model hoarding.memory (Word.limit - 1) = .ok g ∧ g.blocks = 5 := by
  have hvalid : hoarding.validate = .ok () := rfl
  have hsmall : ¬ Overlarge hoarding (Word.limit - 1) := by decide
  have hblocks : (forBudget hoarding.model hoarding.memory (Word.limit - 1)).toOption.map (·.blocks)
      = some 5 := rfl
  refine ⟨hvalid, hsmall, ?_⟩
  rcases sized_or_overlarge hvalid (Word.limit - 1) with
    ⟨hlarge, -⟩ | ⟨-, ⟨g, hok⟩ | ⟨cause, herr⟩⟩
  · exact absurd hlarge hsmall
  · rw [hok] at hblocks
    exact ⟨g, hok, Option.some.inj hblocks⟩
  · rw [herr] at hblocks
    cases hblocks

/-- With one unit more in the reserve the settings are accepted as well.  No device has so much
memory, so that nothing is left for the cache, but the sizing does not come to say so. -/
theorem overlarge_reserve_aborts :
    let s : Settings := { memory := { reserveMiB := Word.limit / mebibyte } }
    s.validate = .ok () ∧ s.memory.reserveMiB < Word.limit ∧
      forBudget s.model s.memory (8192 * mebibyte) = .error (.fault .overflow) :=
  ⟨rfl, by decide, rfl⟩

end Geometry

end PagedServe
