/-
PagedServe/Proofs/BlockMemory.lean

What the blocks hold after blocks were copied over one another.

A read that is let through shows a run of elements of its array (`block_eq`), counted in
row-major order whatever the strides.  Copying makes new arrays in which every run is one of the
old ones: that of the source where the target is asked for, and its own elsewhere
(`copyBlock_spec`).  So a whole history of copies is a function on block numbers, which tells
where the content of a block was at the start (`origin`), and it is followed backwards from the
last copy to the first (`copies_shows`).

An operation that returns a new memory could not change the old one if it wanted to.  So
`copyInPlace` replaces the two arrays one after the other and keeps what it has done when it
fails; it comes to the same (`called_in_place`), since nothing can fail once the arguments are
let through.

Main statement: a copy succeeds just for numbers in range and then changes one block in every
layer of both arrays, whatever was copied before; one that is refused leaves both arrays alone
(`copyBlock_copies`).
-/
import PagedServe.BlockMemory
import PagedServe.Proofs.Outcome
import PagedServe.Proofs.Strided

namespace PagedServe

namespace BlockMemory

variable {α : Type} {m next : BlockMemory α} {layer id source target : Nat} {ids : List Nat}

/-! ### Arguments in range -/

theorem validate_eq_ok {g : Geometry} : validate g layer ids = .ok () ↔
    layer < g.layers ∧ ∀ id ∈ ids, id < g.blocks := by
  unfold validate
  split
  case isTrue h => simp only [reduceCtorEq, false_iff]; omega
  case isFalse h =>
    split
    case h_1 bad hbad =>
      have hmem := List.mem_of_find?_eq_some hbad
      have hlimit : g.blocks ≤ bad := by simpa using List.find?_some hbad
      simp only [reduceCtorEq, false_iff]
      exact fun hok => Nat.not_lt.mpr hlimit (hok.2 bad hmem)
    case h_2 hnone =>
      simp only [true_iff]
      refine ⟨Nat.not_le.mp h, fun id hid => ?_⟩
      exact Nat.not_le.mp fun hle => List.find?_eq_none.mp hnone id hid (decide_eq_true hle)

/-- What is not let through is refused as a fault of the request. -/
theorem validate_refuses {g : Geometry} (h : ¬ (layer < g.layers ∧ ∀ id ∈ ids, id < g.blocks)) :
    ∃ cause, validate g layer ids = .error (.error (.invalidInput cause)) := by
  have hno := fun hok => h (validate_eq_ok.mp hok)
  unfold validate at hno ⊢
  split
  case isTrue => exact ⟨_, rfl⟩
  case isFalse hlayer =>
    rw [if_neg hlayer] at hno
    split
    case h_1 => exact ⟨_, rfl⟩
    case h_2 hnone =>
      rw [hnone] at hno
      exact absurd rfl hno

/-! ### One block -/

/-- The dimensions of one block of one layer. -/
def blockDims (g : Geometry) : List Nat := [g.heads, g.blockSize, g.headDim]

theorem dims_view (m : BlockMemory α) (a : BlockArray α) :
    (m.view a).dims = m.geometry.layers :: m.geometry.blocks :: blockDims m.geometry :=
  m.axes_length

/-- The elements of one block of one layer. -/
def run (m : BlockMemory α) (a : BlockArray α) (layer id : Nat) : List α :=
  (List.range (volume (blockDims m.geometry))).map fun i =>
    (m.view a).element ((layer * m.geometry.blocks + id) * volume (blockDims m.geometry) + i)

/-- The blocks of one layer, one after another. -/
theorem layer_holds (a : BlockArray α) (hlayer : layer < m.geometry.layers) :
    ∃ w, (m.view a).get layer = .ok w ∧
      w.Holds (m.geometry.blocks :: blockDims m.geometry) fun i =>
        (m.view a).element (layer * (m.geometry.blocks * volume (blockDims m.geometry)) + i) := by
  obtain ⟨w, hget, hholds⟩ := Strided.get_holds (dims_view m a) hlayer
  rw [volume_cons] at hholds
  exact ⟨w, hget, hholds⟩

theorem place_in_layer (g : Geometry) (layer id i : Nat) :
    layer * (g.blocks * volume (blockDims g)) + (id * volume (blockDims g) + i) =
      (layer * g.blocks + id) * volume (blockDims g) + i := by
  rw [Nat.add_mul, Nat.mul_assoc, Nat.add_assoc]

/-- A read refuses its arguments or shows the run of its block. -/
theorem block_eq (m : BlockMemory α) (a : BlockArray α) (layer id : Nat) :
    m.block a layer id = (validate m.geometry layer [id]).map fun _ =>
      ⟨blockDims m.geometry, m.run a layer id⟩ := by
  unfold block
  rcases hvalid : validate m.geometry layer [id] with e | ⟨⟩
  · rfl
  obtain ⟨hlayer, hids⟩ := validate_eq_ok.mp hvalid
  have hid : id < m.geometry.blocks := hids id List.mem_cons_self
  obtain ⟨blocks, hblocks, hlayerHolds⟩ := layer_holds a hlayer
  obtain ⟨part, hpart, hholds⟩ := Strided.get_holds hlayerHolds.dims_eq hid
  -- element `i` of the block is one of the layer's, at a place `id` blocks on
  have hdata : part.toList = m.run a layer id := by
    rw [hholds.toList]
    refine List.map_congr_left fun i hi => ?_
    have hplace : id * volume (blockDims m.geometry) + i <
        volume (m.geometry.blocks :: blockDims m.geometry) := by
      rw [volume_cons]
      exact place_lt hid (List.mem_range.mp hi)
    rw [hlayerHolds.element _ hplace, place_in_layer]
  refine except_bind_eq_ok.mpr ⟨(), rfl, except_bind_eq_ok.mpr ⟨blocks, hblocks,
    except_bind_eq_ok.mpr ⟨part, hpart, ?_⟩⟩⟩
  show Except.ok (⟨part.dims, part.toList⟩ : Slab α) = .ok ⟨blockDims m.geometry, _⟩
  rw [hholds.dims_eq, hdata]

/-! ### One copy -/

/-- The block that has, before `source` is copied over `target`, what `id` has after it. -/
def before (source target id : Nat) : Nat := if id = target then source else id

/-- Two numbers in range are let through alike. -/
theorem validate_congr {g : Geometry} {id' : Nat} (hid : id < g.blocks) (hid' : id' < g.blocks) :
    validate g layer [id] = validate g layer [id'] := by
  simp [validate, Nat.not_le.mpr hid, Nat.not_le.mpr hid']

/-- If the runs were exchanged, so are the reads, also those that are refused. -/
theorem block_of_run {a b : BlockArray α} (hg : next.geometry = m.geometry)
    (hs : source < m.geometry.blocks) (ht : target < m.geometry.blocks)
    (h : ∀ layer < m.geometry.layers, ∀ id < m.geometry.blocks,
      next.run b layer id = m.run a layer (before source target id)) (layer id : Nat) :
    next.block b layer id = m.block a layer (before source target id) := by
  -- source and target are both in range, so reads of them are refused alike
  have hvalid : validate m.geometry layer [id] =
      validate m.geometry layer [before source target id] := by
    unfold before
    split
    case isTrue heq => exact validate_congr (heq ▸ ht) hs
    case isFalse => rfl
  rw [block_eq, block_eq, hg, ← hvalid]
  rcases hok : validate m.geometry layer [id] with e | ⟨⟩
  · rfl
  obtain ⟨hlayer, hids⟩ := validate_eq_ok.mp hok
  show Except.ok (⟨_, _⟩ : Slab α) = Except.ok ⟨_, _⟩
  rw [h layer hlayer id (hids id List.mem_cons_self)]

/-- The new array for one of the two old ones. -/
theorem overwrite_element (a : BlockArray α) (hs : source < m.geometry.blocks)
    (ht : target < m.geometry.blocks) :
    ∃ w, overwrite (m.view a) source target = .ok w ∧ w.1.start = 0 ∧
      w.1.axes = exchange (Axis.rowMajor (exchange (dims m.geometry))) ∧
      ∀ layer < m.geometry.layers, ∀ id < m.geometry.blocks,
        ∀ i < volume (blockDims m.geometry),
          w.1.element ((layer * m.geometry.blocks + id) * volume (blockDims m.geometry) + i) =
            (m.view a).element ((layer * m.geometry.blocks + before source target id) *
              volume (blockDims m.geometry) + i) := by
  obtain ⟨part, hnarrow, hpart, hcell⟩ := Strided.narrow_second (dims_view m a) hs
  obtain ⟨w, hscatter, hstart, haxes, helement⟩ :=
    Strided.scatterSecond_element (dims_view m a) hpart ht
  refine ⟨w, except_bind_eq_ok.mpr ⟨part, hnarrow, hscatter⟩, hstart, haxes.trans ?_,
    fun layer hlayer id hid i hi => ?_⟩
  · rw [dims_view]
    rfl
  -- the part written in block `target` is the one cut out of block `source`
  rw [helement layer hlayer id hid i hi]
  unfold before
  split
  case isTrue => rw [hcell layer hlayer i hi]
  case isFalse => rfl

/-- What reads see of two memories of one shape: block `id` of the second is block `source id`
of the first, in every layer of both arrays, and what is refused is refused alike. -/
structure Shows (m next : BlockMemory α) (source : Nat → Nat) : Prop where
  geometry_eq : next.geometry = m.geometry
  dims_eq : next.axes.map Axis.length = m.axes.map Axis.length
  totalBytes_eq : next.totalBytes = m.totalBytes
  keys : ∀ layer id, next.blockKeys layer id = m.blockKeys layer (source id)
  values : ∀ layer id, next.blockValues layer id = m.blockValues layer (source id)

theorem Shows.refl (m : BlockMemory α) : Shows m m (fun id => id) where
  geometry_eq := rfl
  dims_eq := rfl
  totalBytes_eq := rfl
  keys _ _ := rfl
  values _ _ := rfl

theorem Shows.trans {last : BlockMemory α} {f f' : Nat → Nat} (h : Shows m next f)
    (h' : Shows next last f') : Shows m last (f ∘ f') where
  geometry_eq := h'.geometry_eq.trans h.geometry_eq
  dims_eq := h'.dims_eq.trans h.dims_eq
  totalBytes_eq := h'.totalBytes_eq.trans h.totalBytes_eq
  keys layer id := (h'.keys layer id).trans (h.keys layer (f' id))
  values layer id := (h'.values layer id).trans (h.values layer (f' id))

/-- A copy from one block to another can be made. -/
def Copyable (g : Geometry) (source target : Nat) : Prop :=
  0 < g.layers ∧ source < g.blocks ∧ target < g.blocks

instance (g : Geometry) (source target : Nat) : Decidable (Copyable g source target) :=
  inferInstanceAs (Decidable (_ ∧ _ ∧ _))

/-- The two arrays, each with strides of its own. -/
structure Arrays (α : Type) where
  keys : Strided α
  values : Strided α

/-- The arrays that a memory holds. -/
def arrays (m : BlockMemory α) : Arrays α := ⟨m.view m.keys, m.view m.values⟩

/-- Copy a block in the arrays themselves, first the keys and then the values; what was done
before a failure stays. -/
def copyInPlace (g : Geometry) (source target : Nat) : EStateM Failure (Arrays α) Unit := do
  ofExcept (validate g 0 [source, target])
  let keys ← ofExcept (overwrite (← get).keys source target)
  modify fun a => { a with keys := keys.1 }
  let values ← ofExcept (overwrite (← get).values source target)
  modify fun a => { a with values := values.1 }

theorem copyInPlace_of_ok {a : Arrays α} {g : Geometry} {keys : { w // w.dims = a.keys.dims }}
    {values : { w // w.dims = a.values.dims }} (hvalid : validate g 0 [source, target] = .ok ())
    (hkeys : overwrite a.keys source target = .ok keys)
    (hvalues : overwrite a.values source target = .ok values) :
    copyInPlace g source target a = .ok () ⟨keys.1, values.1⟩ := by
  unfold copyInPlace
  rw [bind_of_ok (ofExcept_of_ok hvalid), bind_get, bind_of_ok (ofExcept_of_ok hkeys), bind_modify,
    bind_get, bind_of_ok (ofExcept_of_ok hvalues)]
  rfl

/-- A copy in range is made, and made in place it leaves the same two arrays. -/
theorem copyBlock_spec (h : Copyable m.geometry source target) :
    ∃ next, m.copyBlock source target = .ok next ∧ Shows m next (before source target) ∧
      copyInPlace m.geometry source target m.arrays = .ok () next.arrays := by
  obtain ⟨hlayers, hs, ht⟩ := h
  have hvalid : validate m.geometry 0 [source, target] = .ok () :=
    validate_eq_ok.mpr ⟨hlayers, by simp [hs, ht]⟩
  obtain ⟨⟨keys, hkeys⟩, hkeysOk, hkeysStart, hkeysAxes, hkeysElement⟩ :=
    overwrite_element m.keys hs ht
  obtain ⟨⟨values, hvalues⟩, hvaluesOk, hvaluesStart, hvaluesAxes, hvaluesElement⟩ :=
    overwrite_element m.values hs ht
  let next : BlockMemory α := { m with
    keys := ⟨keys.stored⟩
    values := ⟨values.stored⟩
    axes := keys.axes
    axes_length := hkeys.trans m.axes_length }
  have hcopy : m.copyBlock source target = .ok next :=
    except_bind_eq_ok.mpr ⟨_, hvalid, except_bind_eq_ok.mpr ⟨_, hkeysOk,
      except_bind_eq_ok.mpr ⟨_, hvaluesOk, rfl⟩⟩⟩
  -- both new arrays lie in the same order, so one list of strides still serves for both
  have hkeysView : next.view next.keys = keys := by
    show (⟨keys.stored, keys.axes, 0⟩ : Strided α) = keys
    rw [← hkeysStart]
  have hvaluesView : next.view next.values = values := by
    show (⟨values.stored, keys.axes, 0⟩ : Strided α) = values
    rw [hkeysAxes, ← hvaluesAxes, ← hvaluesStart]
  have hplace : copyInPlace m.geometry source target m.arrays = .ok () next.arrays := by
    rw [copyInPlace_of_ok (a := m.arrays) hvalid hkeysOk hvaluesOk]
    show EStateM.Result.ok () (⟨keys, values⟩ : Arrays α)
      = .ok () ⟨next.view next.keys, next.view next.values⟩
    rw [hkeysView, hvaluesView]
  refine ⟨next, hcopy, ⟨rfl, hkeys, rfl, ?_, ?_⟩, hplace⟩
  · refine block_of_run rfl hs ht fun layer hlayer id hid => List.map_congr_left fun i hi => ?_
    rw [hkeysView]
    exact hkeysElement layer hlayer id hid i (List.mem_range.mp hi)
  · refine block_of_run rfl hs ht fun layer hlayer id hid => List.map_congr_left fun i hi => ?_
    rw [hvaluesView]
    exact hvaluesElement layer hlayer id hid i (List.mem_range.mp hi)

/-- Any other copy is refused before an array is touched. -/
theorem copyBlock_refuses (h : ¬ Copyable m.geometry source target) :
    ∃ cause, m.copyBlock source target = .error (.error (.invalidInput cause)) ∧
      copyInPlace m.geometry source target m.arrays
        = .error (.error (.invalidInput cause)) m.arrays := by
  have hno : ¬ (0 < m.geometry.layers ∧ ∀ id ∈ [source, target], id < m.geometry.blocks) :=
    fun hok => h ⟨hok.1, hok.2 source (by simp), hok.2 target (by simp)⟩
  obtain ⟨cause, hcause⟩ := validate_refuses hno
  refine ⟨cause, ?_, ?_⟩
  · unfold copyBlock
    rw [hcause]
    rfl
  · exact bind_of_error (ofExcept_of_error hcause)

/-! ### A history of copies -/

/-- The memory after a call; one that is refused leaves it as it is. -/
def called (m : BlockMemory α) (call : Nat × Nat) : BlockMemory α :=
  match m.copyBlock call.1 call.2 with
  | .ok next => next
  | .error _ => m

/-- The memory after calls to copy one block over another, the first call first. -/
def copies (m : BlockMemory α) (calls : List (Nat × Nat)) : BlockMemory α := calls.foldl called m

/-- Where the content of a block was before the calls. -/
def origin (g : Geometry) : List (Nat × Nat) → Nat → Nat
  | [], id => id
  | (source, target) :: calls, id =>
    if Copyable g source target then before source target (origin g calls id)
    else origin g calls id

/-- A call leaves the arrays that it leaves in place, refused or not. -/
theorem called_in_place (m : BlockMemory α) (source target : Nat) :
    (m.called (source, target)).arrays
      = stateAfter (copyInPlace m.geometry source target) m.arrays := by
  by_cases h : Copyable m.geometry source target
  · obtain ⟨next, hcopy, -, hplace⟩ := copyBlock_spec h
    rw [called, hcopy, stateAfter_of_ok hplace]
  · obtain ⟨cause, hrefused, hplace⟩ := copyBlock_refuses h
    rw [called, hrefused, stateAfter_of_error hplace]

theorem called_shows (m : BlockMemory α) (source target : Nat) :
    Shows m (m.called (source, target))
      (if Copyable m.geometry source target then before source target else fun id => id) := by
  by_cases h : Copyable m.geometry source target
  · obtain ⟨next, hcopy, hshows, -⟩ := copyBlock_spec h
    have hcalled : m.called (source, target) = next := by rw [called, hcopy]
    rwa [if_pos h, hcalled]
  · obtain ⟨cause, hrefused, -⟩ := copyBlock_refuses h
    have hcalled : m.called (source, target) = m := by rw [called, hrefused]
    rw [if_neg h, hcalled]
    exact Shows.refl m

theorem copies_shows (m : BlockMemory α) (calls : List (Nat × Nat)) :
    Shows m (m.copies calls) (origin m.geometry calls) := by
  induction calls generalizing m with
  | nil => exact Shows.refl m
  | cons call calls ih =>
    obtain ⟨source, target⟩ := call
    have hfirst := called_shows m source target
    have hrest := ih (m.called (source, target))
    rw [hfirst.geometry_eq] at hrest
    -- the calls lead back from the last to the first, so the first is outermost
    have horigin : origin m.geometry ((source, target) :: calls) =
        (if Copyable m.geometry source target then before source target else fun id => id) ∘
          origin m.geometry calls := by
      funext id
      rw [origin]
      split <;> rfl
    rw [horigin]
    exact hfirst.trans hrest

/-- After any calls the arrays are those that the calls leave in place. -/
theorem copies_in_place (m : BlockMemory α) (calls : List (Nat × Nat)) :
    (m.copies calls).arrays = calls.foldl
      (fun a call => stateAfter (copyInPlace m.geometry call.1 call.2) a) m.arrays := by
  induction calls generalizing m with
  | nil => rfl
  | cons call calls ih =>
    have hrest := ih (m.called call)
    rw [(called_shows m call.1 call.2).geometry_eq, called_in_place m call.1 call.2] at hrest
    exact hrest

theorem before_self (block : Nat) : before block block = fun id => id := by
  funext other
  unfold before
  split
  case isTrue heq => exact heq.symm
  case isFalse => rfl

/-- Whatever the arrays hold, whatever their strides, and after any calls: a copy between blocks
in range makes the target read as the source did and all other blocks as before, in every layer
of keys and values, with the shape and the size as they were; onto itself it changes no block.
Any other copy is refused and changes nothing, also when the arrays are replaced in place one
after the other, as the calls before were.  So each block reads as the one that the calls lead
back to. -/
theorem copyBlock_copies (m : BlockMemory α) (calls : List (Nat × Nat)) (source target : Nat) :
    let now := m.copies calls
    Shows m now (origin m.geometry calls) ∧
    now.arrays = calls.foldl
      (fun a call => stateAfter (copyInPlace m.geometry call.1 call.2) a) m.arrays ∧
    (Copyable m.geometry source target →
      ∃ next, now.copyBlock source target = .ok next ∧
        copyInPlace m.geometry source target now.arrays = .ok () next.arrays ∧
        next.geometry = now.geometry ∧
        next.axes.map Axis.length = now.axes.map Axis.length ∧
        next.totalBytes = now.totalBytes ∧
        (∀ layer, next.blockKeys layer target = now.blockKeys layer source ∧
          next.blockValues layer target = now.blockValues layer source) ∧
        (∀ layer id, id ≠ target → next.blockKeys layer id = now.blockKeys layer id ∧
          next.blockValues layer id = now.blockValues layer id) ∧
        (source = target → Shows now next fun id => id)) ∧
    (¬ Copyable m.geometry source target →
      (∃ cause, now.copyBlock source target = .error (.error (.invalidInput cause)) ∧
        copyInPlace m.geometry source target now.arrays
          = .error (.error (.invalidInput cause)) now.arrays) ∧
      m.copies (calls ++ [(source, target)]) = now) := by
  intro now
  have hnow : Shows m now (origin m.geometry calls) := copies_shows m calls
  refine ⟨hnow, copies_in_place m calls, fun h => ?_, fun h => ?_⟩
  · -- numbers in range
    rw [← hnow.geometry_eq] at h ⊢
    obtain ⟨next, hcopy, hshows, hplace⟩ := copyBlock_spec h
    have htarget : before source target target = source := if_pos rfl
    refine ⟨next, hcopy, hplace, hshows.geometry_eq, hshows.dims_eq, hshows.totalBytes_eq,
      fun layer => ?_, fun layer id hid => ?_, fun heq => ?_⟩
    · -- the target
      rw [hshows.keys, hshows.values, htarget]
      exact ⟨rfl, rfl⟩
    · -- any other block
      have hother : before source target id = id := if_neg hid
      rw [hshows.keys, hshows.values, hother]
      exact ⟨rfl, rfl⟩
    · -- onto itself
      subst heq
      rwa [before_self] at hshows
  · -- a number out of range
    rw [← hnow.geometry_eq] at h ⊢
    obtain ⟨cause, hrefused, hplace⟩ := copyBlock_refuses h
    refine ⟨⟨cause, hrefused, hplace⟩, ?_⟩
    rw [copies, List.foldl_append]
    show now.called (source, target) = now
    rw [called, hrefused]

/-- Two layers of four blocks of two elements, each element its own place in the storage. -/
def numbered : BlockMemory Nat where
  geometry := { layers := 2, blocks := 4, blockSize := 2 }
  keys := ⟨fun i => i⟩
  values := ⟨fun i => 100 + i⟩
  axes := Axis.rowMajor [2, 4, 1, 2, 1]
  axes_length := rfl

/-- Block 1 is copied to 3, a copy to block 9 is refused, and block 3 is copied to 0: this one
now reads as block 1 did, and block 2 as it did itself. -/
theorem copyBlock_copies_onwards :
    let now := numbered.copies [(1, 3), (3, 9)]
    Copyable numbered.geometry 3 0 ∧ ¬ Copyable numbered.geometry 3 9 ∧
      ∃ next, now.copyBlock 3 0 = .ok next ∧
        next.blockKeys 1 0 = .ok ⟨[1, 2, 1], [10, 11]⟩ ∧
        next.blockValues 0 0 = .ok ⟨[1, 2, 1], [102, 103]⟩ ∧
        next.blockKeys 0 2 = .ok ⟨[1, 2, 1], [4, 5]⟩ ∧
        ∃ cause, now.copyBlock 3 9 = .error (.error (.invalidInput cause)) ∧
          copyInPlace numbered.geometry 3 9 now.arrays
            = .error (.error (.invalidInput cause)) now.arrays := by
  intro now
  have hcopyable : Copyable numbered.geometry 3 0 := by decide
  have hrefused : ¬ Copyable numbered.geometry 3 9 := by decide
  obtain ⟨hnow, -, hcopy, -⟩ := copyBlock_copies numbered [(1, 3), (3, 9)] 3 0
  obtain ⟨next, hnext, -, -, -, -, htarget, hother, -⟩ := hcopy hcopyable
  refine ⟨hcopyable, hrefused, next, hnext, ?_, ?_, ?_,
    ((copyBlock_copies numbered [(1, 3), (3, 9)] 3 9).2.2.2 hrefused).1⟩
  · rw [(htarget 1).1, hnow.keys]
    rfl
  · rw [(htarget 0).2, hnow.values]
    rfl
  · rw [(hother 0 2 (by decide)).1, hnow.keys]
    rfl

end BlockMemory

end PagedServe
