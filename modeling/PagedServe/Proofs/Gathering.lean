/-
PagedServe/Proofs/Gathering.lean

Several blocks read at once against the same blocks read one by one.

The two reads go different ways.  A single read takes a row out of a row, a gathered one passes
the block numbers on in 32 bits to an operation that accepts contiguous arrays only.  The blocks
of one layer are such an array whatever the strides of the whole (`layer_holds`), also when
copies have left the storage block by block, so the operation never refuses.  Its result is the
sequence of the runs that single reads show (`gather_eq`), and a block is a slice of it
(`slice_runs`).

Two things can still come between.  The result is an array of its own, and a shape may be too
large for one, even without elements; a shape that repeats no more blocks than there are always
finds room (`checkShape_of_fewer`).  And a number that needs more than 32 bits names another
block (`vast_gather_disagrees`).

Main statement: a gathered read succeeds just if its arguments are in range and its result can
exist, and then agrees with the single reads, after any copies (`gather_agrees`).
-/
import PagedServe.Proofs.BlockMemory

namespace PagedServe

/-- One of the parts that lie one after another in a slab. -/
def Slab.slice {α : Type} (s : Slab α) (k : Nat) : Slab α where
  dims := s.dims.tail
  data := (s.data.drop (k * volume s.dims.tail)).take (volume s.dims.tail)

/-- A slice of a list that is given by places. -/
theorem slice_map_range {α : Type} {n c k : Nat} (f : Nat → α) (hk : k < n) :
    (((List.range (n * c)).map f).drop (k * c)).take c =
      (List.range c).map fun i => f (k * c + i) := by
  apply List.ext_getElem?
  intro i
  rw [List.getElem?_take, List.getElem?_drop, List.getElem?_map, List.getElem?_map]
  split
  case isTrue hi =>
    rw [List.getElem?_range (place_lt hk hi), List.getElem?_range hi]
    rfl
  case isFalse hi => rw [List.getElem?_eq_none (by rw [List.length_range]; omega)]; rfl

/-- A computation that nothing but a fault can end early. -/
def OnlyFaults {α : Type} (x : Except Failure α) : Prop := ∀ e, x ≠ .error (.error e)

theorem OnlyFaults.bind {α β : Type} {x : Except Failure α} {f : α → Except Failure β}
    (hx : OnlyFaults x) (hf : ∀ a, OnlyFaults (f a)) : OnlyFaults (x >>= f) := by
  rcases x with e | a
  · exact fun e' h => hx e' (congrArg Except.error (Except.error.inj h))
  · exact hf a

theorem OnlyFaults.ok_or_fault {x : Except Failure Unit} (h : OnlyFaults x) :
    x = .ok () ∨ ∃ f, x = .error (.fault f) := by
  rcases x with e | ⟨⟩
  · rcases e with e | f
    · exact absurd rfl (h e)
    · exact Or.inr ⟨f, rfl⟩
  · exact Or.inl rfl

theorem onlyFaults_mul (a b : Nat) : OnlyFaults (Word.mul a b) := by
  intro e
  unfold Word.mul Word.fit
  split <;> simp

namespace BlockMemory

variable {α : Type} {m : BlockMemory α} {layer : Nat} {ids : List Nat}

/-! ### Shapes that an array can have -/

theorem onlyFaults_foldlM (dims : List Nat) (n : Nat) : OnlyFaults (dims.foldlM Word.mul n) := by
  induction dims generalizing n with
  | nil => exact fun _ h => nomatch h
  | cons d dims ih => exact (onlyFaults_mul n d).bind fun p => ih p

theorem onlyFaults_checkShape (dims : List Nat) (element : ElementType) :
    OnlyFaults (checkShape dims element) := by
  have hroom : ∀ count, OnlyFaults (Word.room count element.bytes) := fun count e => by
    unfold Word.room
    split <;> simp
  refine OnlyFaults.bind ?_ hroom
  exact (onlyFaults_foldlM dims.reverse 1).bind fun _ => onlyFaults_foldlM dims 1

/-- A product that fits does so as well if it starts from less. -/
theorem foldlM_mul_mono {dims : List Nat} {a b p : Nat} (h : dims.foldlM Word.mul b = .ok p)
    (hab : a ≤ b) : ∃ q ≤ p, dims.foldlM Word.mul a = .ok q := by
  induction dims generalizing a b with
  | nil =>
    obtain rfl := Except.ok.inj h
    exact ⟨a, hab, rfl⟩
  | cons d dims ih =>
    obtain ⟨r, hr, h⟩ := except_bind_eq_ok.mp h
    obtain ⟨hfits, rfl⟩ := Word.mul_eq_ok.mp hr
    have hle : a * d ≤ b * d := Nat.mul_le_mul_right d hab
    obtain ⟨q, hq, hrest⟩ := ih h hle
    exact ⟨q, hq, except_bind_eq_ok.mpr
      ⟨a * d, Word.mul_eq_ok.mpr ⟨Nat.lt_of_le_of_lt hle hfits, rfl⟩, hrest⟩⟩

/-- Where the arrays of a memory have room, there is room for as many blocks as they hold. -/
theorem checkShape_of_fewer {g : Geometry} {n : Nat}
    (h : checkShape (dims g) g.element = .ok ()) (hn : n ≤ g.layers * g.blocks) :
    checkShape (n :: blockDims g) g.element = .ok () := by
  obtain ⟨count, hcount, hroom⟩ := except_bind_eq_ok.mp h
  obtain ⟨backward, hbackward, hforward⟩ := except_bind_eq_ok.mp hcount
  -- from the front: the first two dimensions make one
  obtain ⟨layers, hlayers, hforward⟩ := except_bind_eq_ok.mp hforward
  obtain ⟨blocks, hblocks, hforward⟩ := except_bind_eq_ok.mp hforward
  obtain ⟨-, rfl⟩ := Word.mul_eq_ok.mp hlayers
  obtain ⟨hfits, rfl⟩ := Word.mul_eq_ok.mp hblocks
  rw [Nat.one_mul] at hfits hforward
  obtain ⟨count', hle, hforward'⟩ := foldlM_mul_mono hforward hn
  have hfront : product (n :: blockDims g) = .ok count' := by
    refine except_bind_eq_ok.mpr ⟨n, Word.mul_eq_ok.mpr ⟨?_, (Nat.one_mul n).symm⟩, hforward'⟩
    rw [Nat.one_mul]
    exact Nat.lt_of_le_of_lt hn hfits
  -- from the back: the dimensions of a block come first
  obtain ⟨d, hd, hbackward⟩ := except_bind_eq_ok.mp hbackward
  obtain ⟨s, hs, hbackward⟩ := except_bind_eq_ok.mp hbackward
  obtain ⟨c, hc, hbackward⟩ := except_bind_eq_ok.mp hbackward
  obtain ⟨b, hb, hbackward⟩ := except_bind_eq_ok.mp hbackward
  obtain ⟨l, hl, -⟩ := except_bind_eq_ok.mp hbackward
  obtain ⟨-, rfl⟩ := Word.mul_eq_ok.mp hb
  obtain ⟨hall, -⟩ := Word.mul_eq_ok.mp hl
  have hback : product (n :: blockDims g).reverse = .ok (c * n) := by
    refine except_bind_eq_ok.mpr ⟨d, hd, except_bind_eq_ok.mpr ⟨s, hs,
      except_bind_eq_ok.mpr ⟨c, hc, except_bind_eq_ok.mpr ⟨c * n, ?_, rfl⟩⟩⟩⟩
    refine Word.mul_eq_ok.mpr ⟨?_, rfl⟩
    calc c * n ≤ c * (g.layers * g.blocks) := Nat.mul_le_mul_left c hn
      _ = c * g.blocks * g.layers := by rw [Nat.mul_assoc, Nat.mul_comm g.layers]
      _ < Word.limit := hall
  refine except_bind_eq_ok.mpr ⟨count', except_bind_eq_ok.mpr ⟨_, hback, hfront⟩, ?_⟩
  refine Word.room_eq_ok.mpr (Nat.le_trans (Nat.mul_le_mul_right _ hle) ?_)
  exact Word.room_eq_ok.mp hroom

/-! ### The runs one after another -/

/-- A block number as it is passed on. -/
def passedOn (id : Nat) : Nat := (UInt32.ofNat id).toNat

theorem passedOn_le (id : Nat) : passedOn id ≤ id := by
  rw [passedOn, UInt32.toNat_ofNat']
  exact Nat.mod_le _ _

theorem passedOn_of_lt {id : Nat} (h : id < UInt32.size) : passedOn id = id :=
  UInt32.toNat_ofNat_of_lt' h

/-- The elements of several blocks of one layer. -/
def runs (m : BlockMemory α) (a : BlockArray α) (layer : Nat) (ids : List Nat) : List α :=
  (List.range (ids.length * volume (blockDims m.geometry))).map fun i =>
    (m.view a).element ((layer * m.geometry.blocks +
      passedOn (ids[i / volume (blockDims m.geometry)]?.getD 0)) * volume (blockDims m.geometry) +
        i % volume (blockDims m.geometry))

theorem slice_runs (a : BlockArray α) {k : Nat} (hk : k < ids.length)
    (hid : ids[k] < UInt32.size) :
    Slab.slice ⟨ids.length :: blockDims m.geometry, m.runs a layer ids⟩ k =
      ⟨blockDims m.geometry, m.run a layer ids[k]⟩ := by
  refine congrArg (Slab.mk _) ?_
  rw [List.tail_cons, runs, slice_map_range _ hk]
  refine List.map_congr_left fun i hi => ?_
  have hlt : i < volume (blockDims m.geometry) := List.mem_range.mp hi
  obtain ⟨hrow, hrest⟩ := split_place (k := k) hlt
  rw [hrow, hrest, List.getElem?_eq_getElem hk, Option.getD_some, passedOn_of_lt hid]

/-- The blocks of a layer are contiguous, so any of them can be taken out. -/
theorem select_layer (a : BlockArray α) (hlayer : layer < m.geometry.layers)
    (hrange : ∀ id ∈ ids, id < m.geometry.blocks) :
    ∃ blocks rows, (m.view a).get layer = .ok blocks ∧
      blocks.select (ids.map UInt32.ofNat) = .ok rows ∧
      rows.toSlab = ⟨ids.length :: blockDims m.geometry, m.runs a layer ids⟩ := by
  obtain ⟨blocks, hblocks, hholds⟩ := layer_holds (m := m) a hlayer
  -- what is left of a number in 32 bits is no larger, so it is in range too
  have hpassed : ∀ id ∈ ids.map UInt32.ofNat, id.toNat < m.geometry.blocks := by
    intro id hid
    obtain ⟨id, hmem, rfl⟩ := List.mem_map.mp hid
    exact Nat.lt_of_le_of_lt (passedOn_le id) (hrange id hmem)
  obtain ⟨rows, hrows, hrowsHold⟩ :=
    Strided.select_holds hholds.contiguous hholds.dims_eq hpassed
  refine ⟨blocks, rows, hblocks, hrows, ?_⟩
  rw [Strided.toSlab, hrowsHold.dims_eq, hrowsHold.toList, List.length_map]
  -- element by element: the row, then the place in the row
  refine congrArg (Slab.mk _) (List.map_congr_left fun i hi => ?_)
  rw [List.mem_range, volume_cons] at hi
  obtain ⟨hk, hinner⟩ := split_place_lt hi
  rw [List.getElem?_map, List.getElem?_eq_getElem hk]
  rw [Option.map_some, Option.getD_some, Option.getD_some, hholds.element, place_in_layer]
  · rfl
  · rw [volume_cons]
    exact place_lt (Nat.lt_of_le_of_lt (passedOn_le _) (hrange _ (List.getElem_mem hk))) hinner

/-- A gathered read refuses its arguments, finds no room, or shows the runs of its blocks. -/
theorem gather_eq (m : BlockMemory α) (a : BlockArray α) (layer : Nat) (hids : ids ≠ []) :
    m.gather a layer ids = (validate m.geometry layer ids >>= fun _ =>
      checkShape (ids.length :: blockDims m.geometry) m.geometry.element >>= fun _ =>
        .ok ⟨ids.length :: blockDims m.geometry, m.runs a layer ids⟩) := by
  have hempty : ids.isEmpty = false := List.isEmpty_eq_false_iff.mpr hids
  have hgather : m.gather a layer ids = (validate m.geometry layer ids >>= fun _ =>
      (m.view a).get layer >>= fun blocks =>
        checkShape (ids.length :: blockDims m.geometry) m.geometry.element >>= fun _ =>
          blocks.select (ids.map UInt32.ofNat) >>= fun rows => .ok rows.toSlab) := by
    rw [gather, if_neg (by rw [hempty]; decide)]
    rfl
  rw [hgather]
  rcases hvalid : validate m.geometry layer ids with e | ⟨⟩
  · rfl
  obtain ⟨hlayer, hrange⟩ := validate_eq_ok.mp hvalid
  obtain ⟨blocks, rows, hblocks, hrows, hslab⟩ := select_layer (m := m) a hlayer hrange
  -- the room is asked for between the two reads, which cannot fail by now
  rw [hblocks, ← hslab]
  show (checkShape _ _ >>= fun _ => blocks.select _ >>= fun rows => Except.ok rows.toSlab) = _
  rw [hrows]
  rfl

/-! ### Agreement -/

/-- A gathered read shows what single reads of the same blocks show. -/
structure Agrees (g : Geometry) (layer : Nat) (ids : List Nat)
    (gathered : Except Failure (Slab α)) (single : Nat → Except Failure (Slab α)) : Prop where
  succeeds : (∃ slab, gathered = .ok slab) ↔
    layer < g.layers ∧ (∀ id ∈ ids, id < g.blocks) ∧
      checkShape (ids.length :: blockDims g) g.element = .ok ()
  dims_eq : ∀ slab, gathered = .ok slab →
    slab.dims = ids.length :: blockDims g ∧ slab.data.length = volume slab.dims
  slices : ∀ slab, gathered = .ok slab → ∀ k (hk : k < ids.length), ids[k] < UInt32.size →
    single ids[k] = .ok (slab.slice k)
  refused : ¬ (layer < g.layers ∧ ∀ id ∈ ids, id < g.blocks) →
    ∃ cause, gathered = .error (.error (.invalidInput cause))
  overlarge : layer < g.layers → (∀ id ∈ ids, id < g.blocks) →
    checkShape (ids.length :: blockDims g) g.element ≠ .ok () →
      ∃ fault, gathered = .error (.fault fault)

theorem gather_agrees_with_block (m : BlockMemory α) (a : BlockArray α) (layer : Nat)
    (hids : ids ≠ []) :
    Agrees m.geometry layer ids (m.gather a layer ids) (m.block a layer) := by
  rw [gather_eq m a layer hids]
  by_cases hvalid : layer < m.geometry.layers ∧ ∀ id ∈ ids, id < m.geometry.blocks
  case neg =>
    -- a number out of range: refused, so there is nothing to compare
    obtain ⟨cause, hcause⟩ := validate_refuses hvalid
    rw [hcause]
    exact {
      succeeds := ⟨fun ⟨_, h⟩ => (nomatch h), fun h => absurd ⟨h.1, h.2.1⟩ hvalid⟩
      dims_eq := fun _ h => nomatch h
      slices := fun _ h => nomatch h
      refused := fun _ => ⟨cause, rfl⟩
      overlarge := fun hlayer hrange => absurd ⟨hlayer, hrange⟩ hvalid }
  rw [validate_eq_ok.mpr hvalid]
  rcases (onlyFaults_checkShape (ids.length :: blockDims m.geometry)
    m.geometry.element).ok_or_fault with hroom | ⟨fault, hfault⟩
  · -- the result can exist
    rw [hroom]
    refine ⟨⟨fun _ => ⟨hvalid.1, hvalid.2, hroom⟩, fun _ => ⟨_, rfl⟩⟩, fun slab hslab => ?_,
      fun slab hslab k hk hid => ?_, fun h => absurd hvalid h, fun _ _ h => absurd hroom h⟩
    · obtain rfl := Except.ok.inj hslab
      refine ⟨rfl, ?_⟩
      rw [runs, List.length_map, List.length_range, volume_cons]
    · obtain rfl := Except.ok.inj hslab
      have hsingle : validate m.geometry layer [ids[k]] = .ok () :=
        validate_eq_ok.mpr ⟨hvalid.1, by simpa using hvalid.2 _ (List.getElem_mem hk)⟩
      rw [slice_runs a hk hid, block_eq, hsingle]
      rfl
  · -- it cannot: a fault, whatever the numbers are
    rw [hfault]
    exact {
      succeeds := ⟨fun ⟨_, h⟩ => (nomatch h), fun h => (nomatch hfault.symm.trans h.2.2)⟩
      dims_eq := fun _ h => nomatch h
      slices := fun _ h => nomatch h
      refused := fun h => absurd hvalid h
      overlarge := fun _ _ _ => ⟨fault, rfl⟩ }

/-- Whatever the arrays hold and whatever was copied before, a gathered read of any blocks in any
order succeeds just if its arguments are in range and its result can exist as an array, and
its parts are then what single reads show, of keys as of values.  No blocks at all are refused,
and as many as a memory holds always find room. -/
theorem gather_agrees (m : BlockMemory α) (calls : List (Nat × Nat)) (layer : Nat)
    (ids : List Nat) :
    let now := m.copies calls
    (ids ≠ [] →
      Agrees m.geometry layer ids (now.gatherKeys layer ids) (now.blockKeys layer) ∧
      Agrees m.geometry layer ids (now.gatherValues layer ids) (now.blockValues layer)) ∧
    (now.gatherKeys layer [] = .error (.error (.invalidInput .noBlocks)) ∧
      now.gatherValues layer [] = .error (.error (.invalidInput .noBlocks))) ∧
    (∀ zero made, new m.geometry zero = .ok (made : BlockMemory α) →
      ids.length ≤ m.geometry.layers * m.geometry.blocks →
        checkShape (ids.length :: blockDims m.geometry) m.geometry.element = .ok ()) := by
  intro now
  refine ⟨fun hids => ?_, ⟨rfl, rfl⟩, fun zero made hnew hfew => ?_⟩
  · have hgeometry : now.geometry = m.geometry := (copies_shows m calls).geometry_eq
    rw [← hgeometry]
    exact ⟨gather_agrees_with_block now now.keys layer hids,
      gather_agrees_with_block now now.values layer hids⟩
  · obtain ⟨_, hroom, -⟩ := except_bind_eq_ok.mp hnew
    exact checkShape_of_fewer hroom hfew

/-- Block 1 was copied to 3, and is read from there twice. -/
theorem gather_agrees_twice :
    ∃ slab, (numbered.copies [(1, 3), (3, 9)]).gatherKeys 1 [3, 0, 3] = .ok slab ∧
      slab.dims = [3, 1, 2, 1] ∧
      slab.slice 0 = ⟨[1, 2, 1], [10, 11]⟩ ∧
      slab.slice 1 = ⟨[1, 2, 1], [8, 9]⟩ ∧
      slab.slice 2 = ⟨[1, 2, 1], [10, 11]⟩ := by
  obtain ⟨hkeys, -⟩ := (gather_agrees numbered [(1, 3), (3, 9)] 1 [3, 0, 3]).1 (by decide)
  obtain ⟨slab, hslab⟩ := hkeys.succeeds.mpr ⟨by decide, by decide, rfl⟩
  have hslices := hkeys.slices slab hslab
  refine ⟨slab, hslab, (hkeys.dims_eq slab hslab).1, ?_, ?_, ?_⟩
  · exact (Except.ok.inj (hslices 0 (by decide) (by decide))).symm
  · exact (Except.ok.inj (hslices 1 (by decide) (by decide))).symm
  · exact (Except.ok.inj (hslices 2 (by decide) (by decide))).symm

/-- A memory without elements. Four of its blocks or more, one after another, have no shape. -/
def hollow : Geometry where
  layers := 1
  blocks := 2
  heads := Word.limit / 4
  headDim := 0
  blockSize := 1
  element := .fp16

/-- More blocks than 32 bits can number, each with its number in it. -/
def crowded : BlockMemory Nat where
  geometry := ⟨1, UInt32.size + 1, 1, 1, 1, .fp16⟩
  keys := ⟨fun i => i⟩
  values := ⟨fun i => i⟩
  axes := Axis.rowMajor [1, UInt32.size + 1, 1, 1, 1]
  axes_length := rfl

/-- Five blocks that are in range find no room, and a block whose number needs 33 bits is taken
for another. -/
theorem vast_gather_disagrees :
    (0 < hollow.layers ∧ (∀ id ∈ [0, 1, 0, 1, 0], id < hollow.blocks) ∧
      (new hollow 0 >>= fun m => m.gatherKeys 0 [0, 1, 0, 1, 0]) = .error (.fault .overflow) ∧
      (new hollow 0 >>= fun m => m.blockKeys 0 1) = .ok ⟨[Word.limit / 4, 1, 0], []⟩) ∧
    crowded.blockKeys 0 UInt32.size = .ok ⟨[1, 1, 1], [UInt32.size]⟩ ∧
    crowded.gatherKeys 0 [UInt32.size] = .ok ⟨[1, 1, 1, 1], [0]⟩ := by
  refine ⟨⟨by decide, by decide, ?_, ?_⟩, ?_, ?_⟩
  · rfl
  · rfl
  · rfl
  · rfl

end BlockMemory

end PagedServe
