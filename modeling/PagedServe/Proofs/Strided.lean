/-
PagedServe/Proofs/Strided.lean

What the operations on arrays do to the elements.

The statements are about dimensions and elements in row-major order, and hold for arrays with
any strides.  What takes a part out of an array leaves a contiguous one (`get_holds`,
`select_holds`), so it does not matter in which order writing has left the storage.

The place of an element depends on its row, and within the row only on the strides of the other
dimensions (`Axis.locate_row`); with two dimensions in front this gives the place as a sum of
three parts (`Axis.locate_cell`), from which exchanging, narrowing and writing over are read off
(`element_transpose`, `narrow_second`, `scatterSecond_element`).
-/
import PagedServe.Strided
import PagedServe.Proofs.Outcome

namespace PagedServe

/-- A place inside a row of an array, counted from its first element. -/
theorem place_lt {k n i c : Nat} (hk : k < n) (hi : i < c) : k * c + i < n * c :=
  Nat.lt_of_lt_of_le (Nat.add_lt_add_left hi _) (Nat.succ_mul k c ▸ Nat.mul_le_mul_right c hk)

/-- The row of a place, and how far it is inside. -/
theorem split_place {k i c : Nat} (hi : i < c) :
    (k * c + i) / c = k ∧ (k * c + i) % c = i := by
  have hpos : 0 < c := by omega
  rw [Nat.add_comm, Nat.add_mul_div_right _ _ hpos, Nat.div_eq_of_lt hi, Nat.zero_add,
    Nat.add_mul_mod_self_right, Nat.mod_eq_of_lt hi]
  exact ⟨rfl, rfl⟩

/-- Every place lies in some row. -/
theorem split_place_lt {n c i : Nat} (h : i < n * c) : i / c < n ∧ i % c < c := by
  have hpos : 0 < c := Nat.pos_of_ne_zero fun hzero => by
    rw [hzero, Nat.mul_zero] at h
    exact Nat.not_lt_zero i h
  exact ⟨Nat.div_lt_of_lt_mul (Nat.mul_comm n c ▸ h), Nat.mod_lt i hpos⟩

namespace Axis

variable {axis : Axis} {axes : List Axis} {dims : List Nat} {i k l : Nat}

/-! ### Places -/

theorem locate_row (hi : i < count axes) :
    locate (axis :: axes) (k * count axes + i) = k * axis.stride + locate axes i := by
  obtain ⟨hrow, hrest⟩ := split_place (k := k) hi
  rw [locate, hrow, hrest]

/-- The place of an element from its indices in the first two dimensions. -/
theorem locate_cell {second : Axis} (hk : k < second.length) (hi : i < count axes) :
    locate (axis :: second :: axes) ((l * second.length + k) * count axes + i) =
      l * axis.stride + (k * second.stride + locate axes i) := by
  have hrow : count (second :: axes) = second.length * count axes := volume_cons
  have hcell : k * count axes + i < count (second :: axes) := by
    rw [hrow]
    exact place_lt hk hi
  have hsplit : (l * second.length + k) * count axes + i =
      l * count (second :: axes) + (k * count axes + i) := by
    rw [hrow, Nat.add_mul, Nat.mul_assoc, Nat.add_assoc]
  rw [hsplit, locate_row hcell, locate_row hi]

theorem locate_of_isContiguous (h : isContiguous axes = true) (hi : i < count axes) :
    locate axes i = i := by
  induction axes generalizing i with
  | nil =>
    have hone : count [] = 1 := volume_nil
    rw [locate]
    omega
  | cons axis axes ih =>
    have hcount : count (axis :: axes) = axis.length * count axes := volume_cons
    obtain ⟨hstride, haxes⟩ := Bool.and_eq_true_iff.mp h
    obtain ⟨-, hinner⟩ := split_place_lt (hcount ▸ hi)
    -- along a dimension with one index there is no step to make
    have hstep : i / count axes * axis.stride = i / count axes * count axes := by
      rcases Bool.or_eq_true_iff.mp hstride with hshort | hgapless
      · have hone : axis.length ≤ 1 := of_decide_eq_true hshort
        have hlt : i < count axes := calc
          i < axis.length * count axes := hcount ▸ hi
          _ ≤ 1 * count axes := Nat.mul_le_mul_right _ hone
          _ = count axes := Nat.one_mul _
        rw [Nat.div_eq_of_lt hlt, Nat.zero_mul, Nat.zero_mul]
      · rw [eq_of_beq hgapless]
    rw [locate, hstep, ih haxes hinner, Nat.div_add_mod']

theorem isContiguous_rowMajor (dims : List Nat) : isContiguous (rowMajor dims) = true := by
  induction dims with
  | nil => rfl
  | cons n dims ih => simp [rowMajor, isContiguous, ih]

theorem locate_rowMajor (hi : i < volume dims) : locate (rowMajor dims) i = i :=
  locate_of_isContiguous (isContiguous_rowMajor dims) (by rwa [count_rowMajor])

end Axis

namespace Strided

variable {α : Type} {v w : Strided α} {n m c i k l : Nat} {dims : List Nat}

theorem count_eq (v : Strided α) : v.count = volume v.dims := rfl

theorem axes_of_dims (h : v.dims = n :: dims) :
    ∃ axis axes, v.axes = axis :: axes ∧ axis.length = n ∧ axes.map Axis.length = dims ∧
      Axis.count axes = volume dims := by
  obtain ⟨axis, axes, haxes, hlength, hdims⟩ := List.map_eq_cons_iff.mp h
  exact ⟨axis, axes, haxes, hlength, hdims, congrArg volume hdims⟩

/-! ### Contiguous parts -/

/-- An array has these dimensions and elements, and its elements lie in row-major order. -/
structure Holds (w : Strided α) (dims : List Nat) (f : Nat → α) : Prop where
  dims_eq : w.dims = dims
  contiguous : Axis.isContiguous w.axes = true
  element : ∀ i < volume dims, w.element i = f i

theorem Holds.toList {f : Nat → α} (h : w.Holds dims f) :
    w.toList = (List.range (volume dims)).map f := by
  rw [Strided.toList, count_eq, h.dims_eq]
  exact List.map_congr_left fun i hi => h.element i (List.mem_range.mp hi)

theorem Holds.of_rowMajor (stored : Nat → α) (dims : List Nat) (start : Nat) :
    Holds ⟨stored, Axis.rowMajor dims, start⟩ dims fun i => stored (start + i) where
  dims_eq := Axis.length_rowMajor dims
  contiguous := Axis.isContiguous_rowMajor dims
  element _ hi := congrArg (fun place => stored (start + place)) (Axis.locate_rowMajor hi)

theorem Holds.congr {f f' : Nat → α} (h : w.Holds dims f) (hf : ∀ i < volume dims, f i = f' i) :
    w.Holds dims f' :=
  ⟨h.dims_eq, h.contiguous, fun i hi => (h.element i hi).trans (hf i hi)⟩

theorem element_of_isContiguous (h : Axis.isContiguous v.axes = true) (hi : i < v.count) :
    v.element i = v.stored (v.start + i) := by
  rw [element, Axis.locate_of_isContiguous h hi]

/-- Whether it shows the old storage or copies, reshaping leaves a contiguous array. -/
theorem reshape_holds (h : volume dims = v.count) :
    ∃ w, v.reshape dims = .ok w ∧ w.Holds dims v.element := by
  unfold reshape
  rw [if_neg fun hne => hne h]
  split
  case isTrue hcontiguous =>
    refine ⟨_, rfl, (Holds.of_rowMajor v.stored dims v.start).congr fun i hi => ?_⟩
    exact (element_of_isContiguous hcontiguous (h ▸ hi)).symm
  case isFalse =>
    refine ⟨_, rfl, (Holds.of_rowMajor v.element dims 0).congr fun _ _ => ?_⟩
    rw [Nat.zero_add]

/-- One row of an array, whatever its strides. -/
theorem get_holds (h : v.dims = n :: dims) (hl : l < n) :
    ∃ w, v.get l = .ok w ∧ w.Holds dims fun i => v.element (l * volume dims + i) := by
  obtain ⟨axis, axes, haxes, rfl, -, hcount⟩ := axes_of_dims h
  let part : Strided α := ⟨v.stored, { axis with length := 1 } :: axes, v.start + l * axis.stride⟩
  -- cut out one index, then drop the dimension, which may copy
  have hnarrow : v.narrow 0 l 1 = .ok part := by
    unfold narrow
    rw [haxes]
    exact if_pos hl
  have hpart : volume dims = part.count := by
    rw [← hcount]
    exact (Nat.one_mul _).symm
  obtain ⟨w, hreshape, hholds⟩ := reshape_holds hpart
  refine ⟨w, except_bind_eq_ok.mpr ⟨part, hnarrow, ?_⟩, hholds.congr fun i hi => ?_⟩
  · rw [h]
    exact hreshape
  · rw [← hcount] at hi ⊢
    have hzero : Axis.locate ({ axis with length := 1 } :: axes) (0 * Axis.count axes + i) =
        0 * axis.stride + Axis.locate axes i := Axis.locate_row hi
    rw [Nat.zero_mul, Nat.zero_mul, Nat.zero_add, Nat.zero_add] at hzero
    rw [element, element, haxes, Axis.locate_row hi, hzero, Nat.add_assoc]

/-- Rows of a contiguous array one after another. -/
theorem select_holds {ids : List UInt32} (hcontiguous : Axis.isContiguous v.axes = true)
    (h : v.dims = n :: dims) (hids : ∀ id ∈ ids, id.toNat < n) :
    ∃ w, v.select ids = .ok w ∧ w.Holds (ids.length :: dims) fun i =>
      v.element ((ids[i / volume dims]?.getD 0).toNat * volume dims + i % volume dims) := by
  have hrow : v.rowLength = volume dims := by rw [rowLength, h, List.tail_cons]
  have hselect : v.select ids = .ok ⟨fun i => v.stored (v.start +
      ((ids[i / v.rowLength]?.getD 0).toNat * v.rowLength + i % v.rowLength)),
      Axis.rowMajor (ids.length :: dims), 0⟩ := by
    unfold select
    rw [h]
    exact if_pos ⟨hcontiguous, List.all_eq_true.mpr fun id hid => decide_eq_true (hids id hid)⟩
  refine ⟨_, hselect, (Holds.of_rowMajor _ _ 0).congr fun i hi => ?_⟩
  rw [volume_cons] at hi
  -- a place is a row of the result and a place in it
  obtain ⟨hk, hinner⟩ := split_place_lt hi
  have hid : ids[i / volume dims].toNat < n := hids _ (List.getElem_mem hk)
  rw [Nat.zero_add, hrow, List.getElem?_eq_getElem hk, Option.getD_some]
  refine (element_of_isContiguous hcontiguous ?_).symm
  rw [count_eq, h, volume_cons]
  exact place_lt hid hinner

/-! ### Writing over -/

theorem element_transpose (h : v.dims = n :: m :: dims) (hl : l < n) (hk : k < m)
    (hi : i < volume dims) :
    v.transpose.element ((k * n + l) * volume dims + i) =
      v.element ((l * m + k) * volume dims + i) := by
  obtain ⟨first, axes, haxes, rfl, hrest, -⟩ := axes_of_dims h
  obtain ⟨second, rest, rfl, rfl, hdims⟩ := List.map_eq_cons_iff.mp hrest
  have hcount : Axis.count rest = volume dims := congrArg volume hdims
  have hexchanged : v.transpose.axes = second :: first :: rest := by
    rw [transpose, haxes]
    rfl
  rw [← hcount] at hi ⊢
  rw [element, element, hexchanged, haxes, Axis.locate_cell hl hi, Axis.locate_cell hk hi]
  show v.stored (v.start + _) = v.stored (v.start + _)
  rw [Nat.add_left_comm (k * second.stride)]

/-- The part at one index of the second dimension. -/
theorem narrow_second (h : v.dims = n :: m :: dims) (hk : k < m) :
    ∃ part, v.narrow 1 k 1 = .ok part ∧ part.dims = n :: 1 :: dims ∧
      ∀ l < n, ∀ i < volume dims,
        part.element (l * volume dims + i) = v.element ((l * m + k) * volume dims + i) := by
  obtain ⟨first, axes, haxes, rfl, hrest, -⟩ := axes_of_dims h
  obtain ⟨second, rest, rfl, rfl, hdims⟩ := List.map_eq_cons_iff.mp hrest
  have hcount : Axis.count rest = volume dims := congrArg volume hdims
  let part : Strided α :=
    ⟨v.stored, first :: { second with length := 1 } :: rest, v.start + k * second.stride⟩
  have hnarrow : v.narrow 1 k 1 = .ok part := by
    unfold narrow
    rw [haxes]
    exact if_pos hk
  refine ⟨part, hnarrow, by rw [← hdims]; rfl, fun l _ i hi => ?_⟩
  rw [← hcount] at hi ⊢
  have hplace : Axis.locate (first :: { second with length := 1 } :: rest)
      ((l * 1 + 0) * Axis.count rest + i) =
        l * first.stride + (0 * second.stride + Axis.locate rest i) :=
    Axis.locate_cell Nat.one_pos hi
  rw [Nat.mul_one, Nat.add_zero, Nat.zero_mul, Nat.zero_add] at hplace
  rw [element, element, haxes, Axis.locate_cell hk hi, hplace]
  show v.stored (v.start + k * second.stride + _) = _
  rw [Nat.add_assoc, Nat.add_left_comm (k * second.stride)]

/-- Writing `part` over one row changes that row alone. -/
theorem scatterFirst_row {part : Strided α} (h : v.dims = m :: dims)
    (hpart : part.dims = 1 :: dims) (hl : l < m) :
    ∃ w, v.scatterFirst part l = .ok w ∧ w.1.start = 0 ∧ w.1.axes = Axis.rowMajor v.dims ∧
      ∀ k < m, ∀ i < volume dims, w.1.element (k * volume dims + i) =
        if k = l then part.element i else v.element (k * volume dims + i) := by
  have hrow : v.rowLength = volume dims := by rw [rowLength, h, List.tail_cons]
  have hcount : part.count = volume dims := by rw [count_eq, hpart, volume_cons, Nat.one_mul]
  have hroom : v.hasRoom part l = true := by
    unfold hasRoom
    rw [h, hpart]
    exact Bool.and_eq_true_iff.mpr ⟨beq_self_eq_true dims, decide_eq_true hl⟩
  unfold scatterFirst
  rw [if_pos hroom]
  refine ⟨_, rfl, rfl, rfl, fun k hk i hi => ?_⟩
  have hplace : k * volume dims + i < volume v.dims := by
    rw [h, volume_cons]
    exact place_lt hk hi
  rw [(Holds.of_rowMajor _ v.dims 0).element _ hplace, Nat.zero_add, hrow, hcount]
  by_cases hkl : k = l
  · subst hkl
    rw [if_pos ⟨Nat.le_add_right .., Nat.add_lt_add_left hi _⟩, if_pos rfl, Nat.add_sub_cancel_left]
  -- a place of another row is outside the written stretch
  · have houtside : ¬ (l * volume dims ≤ k * volume dims + i ∧
        k * volume dims + i < l * volume dims + volume dims) := by
      rintro ⟨hfrom, hto⟩
      rcases Nat.lt_or_gt_of_ne hkl with hlt | hgt
      · have := Nat.succ_mul k _ ▸ Nat.mul_le_mul_right (volume dims) hlt
        omega
      · have := Nat.succ_mul l _ ▸ Nat.mul_le_mul_right (volume dims) hgt
        omega
    rw [if_neg houtside, if_neg hkl]

/-- Writing `part` over one index of the second dimension changes that index alone. -/
theorem scatterSecond_element {part : Strided α} {target : Nat} (h : v.dims = n :: m :: dims)
    (hpart : part.dims = n :: 1 :: dims) (ht : target < m) :
    ∃ w, v.scatterSecond part target = .ok w ∧ w.1.start = 0 ∧
      w.1.axes = exchange (Axis.rowMajor (exchange v.dims)) ∧
      ∀ l < n, ∀ k < m, ∀ i < volume dims, w.1.element ((l * m + k) * volume dims + i) =
        if k = target then part.element (l * volume dims + i)
        else v.element ((l * m + k) * volume dims + i) := by
  have hexchanged : v.transpose.dims = m :: n :: dims := by rw [dims_transpose, h]; rfl
  have hpartExchanged : part.transpose.dims = 1 :: n :: dims := by
    rw [dims_transpose, hpart]; rfl
  obtain ⟨⟨x, hx⟩, hscatter, hstart, haxes, hrow⟩ :=
    scatterFirst_row hexchanged hpartExchanged ht
  refine ⟨⟨x.transpose, _⟩, except_bind_eq_ok.mpr ⟨⟨x, hx⟩, hscatter, rfl⟩, hstart, ?_,
    fun l hl k hk i hi => ?_⟩
  · rw [← dims_transpose, ← haxes]
    rfl
  -- with the dimensions exchanged, what is written is one row
  have hplace : ∀ k, (k * n + l) * volume dims + i =
      k * volume (n :: dims) + (l * volume dims + i) := fun k => by
    rw [volume_cons, Nat.add_mul, Nat.mul_assoc, Nat.add_assoc]
  have hinner : l * volume dims + i < volume (n :: dims) := by
    rw [volume_cons]
    exact place_lt hl hi
  rw [element_transpose (hx.trans hexchanged) hk hl hi, hplace k, hrow k hk _ hinner]
  split
  case isTrue =>
    have hcell := element_transpose hpart hl Nat.one_pos hi
    rwa [Nat.zero_mul, Nat.zero_add, Nat.mul_one, Nat.add_zero] at hcell
  case isFalse => rw [← hplace k, element_transpose h hl hk hi]

end Strided

end PagedServe
