/-
PagedServe/Strided.lean

Arrays as views of a storage.

Each dimension has a length and a stride, the distance in the storage between
neighbours along it.  The elements of an array come in row-major order, the last
dimension running fastest; where the `i`-th of them is stored follows from the
strides (`Axis.locate`).

* `narrow` and `transpose` show the same storage in another way.
* `reshape` does so too if the elements lie in row-major order without gaps
  (`Axis.isContiguous`), and copies them into that order otherwise.
* `scatter` makes a new array, with one part of it written anew.
* `select` takes whole rows out of the storage, so it asks for a contiguous array.
-/
import PagedServe.Word

namespace PagedServe

/-- Elements of an array with these dimensions. -/
def volume : List Nat → Nat
  | [] => 1
  | n :: dims => n * volume dims

@[simp] theorem volume_nil : volume [] = 1 := rfl

@[simp] theorem volume_cons {n : Nat} {dims : List Nat} : volume (n :: dims) = n * volume dims :=
  rfl

/-- One dimension of an array. -/
structure Axis where
  length : Nat
  stride : Nat

namespace Axis

/-- Elements that the axes reach. -/
def count (axes : List Axis) : Nat := volume (axes.map length)

/-- The strides of elements that lie in row-major order without gaps. -/
def rowMajor : List Nat → List Axis
  | [] => []
  | n :: dims => ⟨n, volume dims⟩ :: rowMajor dims

/-- The distance in the storage from the first element to the `i`-th. -/
def locate : List Axis → Nat → Nat
  | [], _ => 0
  | axis :: axes, i => i / count axes * axis.stride + locate axes (i % count axes)

/-- The elements lie in row-major order without gaps. Nobody steps along a dimension with one
index or none, so its stride does not matter. -/
def isContiguous : List Axis → Bool
  | [] => true
  | axis :: axes => (axis.length ≤ 1 || axis.stride == count axes) && isContiguous axes

@[simp] theorem length_rowMajor (dims : List Nat) : (rowMajor dims).map length = dims := by
  induction dims with
  | nil => rfl
  | cons n dims ih => rw [rowMajor, List.map_cons, ih]

@[simp] theorem count_rowMajor (dims : List Nat) : count (rowMajor dims) = volume dims := by
  rw [count, length_rowMajor]

end Axis

/-- The first two items exchanged. -/
def exchange {α : Type} : List α → List α
  | x :: y :: rest => y :: x :: rest
  | xs => xs

@[simp] theorem exchange_exchange {α : Type} (xs : List α) : exchange (exchange xs) = xs := by
  rcases xs with - | ⟨x, - | ⟨y, rest⟩⟩ <;> rfl

theorem map_exchange {α β : Type} (f : α → β) (xs : List α) :
    (exchange xs).map f = exchange (xs.map f) := by
  rcases xs with - | ⟨x, - | ⟨y, rest⟩⟩ <;> rfl

/-- An array; `stored` is asked for places in the storage only. -/
structure Strided (α : Type) where
  stored : Nat → α
  axes : List Axis
  /-- The place of the first element. -/
  start : Nat

namespace Strided

variable {α : Type}

def dims (v : Strided α) : List Nat := v.axes.map Axis.length

def count (v : Strided α) : Nat := Axis.count v.axes

/-- The `i`-th element. -/
def element (v : Strided α) (i : Nat) : α := v.stored (v.start + Axis.locate v.axes i)

/-- The elements in row-major order. -/
def toList (v : Strided α) : List α := (List.range v.count).map v.element

/-! ### Other views of a storage -/

/-- The part between two indices of one dimension. -/
def narrow (v : Strided α) (axis first length : Nat) : Except Failure (Strided α) :=
  match v.axes[axis]? with
  | none => .error (.fault .unfitArray)
  | some a =>
    if first + length ≤ a.length then
      .ok { v with
        axes := v.axes.set axis { a with length }
        start := v.start + first * a.stride }
    else .error (.fault .unfitArray)

/-- The array with its first two dimensions exchanged. -/
def transpose (v : Strided α) : Strided α := { v with axes := exchange v.axes }

@[simp] theorem dims_transpose (v : Strided α) : v.transpose.dims = exchange v.dims :=
  map_exchange Axis.length v.axes

/-- The same elements in other dimensions. -/
def reshape (v : Strided α) (dims : List Nat) : Except Failure (Strided α) :=
  if volume dims ≠ v.count then .error (.fault .unfitArray)
  else if Axis.isContiguous v.axes then .ok ⟨v.stored, Axis.rowMajor dims, v.start⟩
  else .ok ⟨v.element, Axis.rowMajor dims, 0⟩

/-- The part at one index of the first dimension, without that dimension. -/
def get (v : Strided α) (i : Nat) : Except Failure (Strided α) := do
  let part ← v.narrow 0 i 1
  part.reshape v.dims.tail

/-! ### New arrays -/

/-- The elements at one index of the first dimension. -/
def rowLength (v : Strided α) : Nat := volume v.dims.tail

/-- The rows of `part` can take the place of rows of `v` from index `first` on. -/
def hasRoom (v part : Strided α) (first : Nat) : Bool :=
  match v.dims, part.dims with
  | n :: dims, m :: dims' => dims' == dims && first + m ≤ n
  | _, _ => false

/-- The array with `part` written over it, from one index of the first dimension on. -/
def scatterFirst (v part : Strided α) (first : Nat) :
    Except Failure { w : Strided α // w.dims = v.dims } :=
  if v.hasRoom part first then
    let offset := first * v.rowLength
    .ok ⟨{
      stored := fun i =>
        if offset ≤ i ∧ i < offset + part.count then part.element (i - offset) else v.element i
      axes := Axis.rowMajor v.dims
      start := 0 }, Axis.length_rowMajor v.dims⟩
  else .error (.fault .unfitArray)

/-- The array with `part` written over it, from one index of the second dimension on. The
elements of the new array lie in the order of the exchanged dimensions. -/
def scatterSecond (v part : Strided α) (first : Nat) :
    Except Failure { w : Strided α // w.dims = v.dims } := do
  let ⟨w, hdims⟩ ← v.transpose.scatterFirst part.transpose first
  return ⟨w.transpose, by rw [dims_transpose, hdims, dims_transpose, exchange_exchange]⟩

/-- The rows of a contiguous array at some indices of its first dimension, one after another. -/
def select (v : Strided α) (ids : List UInt32) : Except Failure (Strided α) :=
  match v.dims with
  | [] => .error (.fault .unfitArray)
  | n :: dims =>
    if Axis.isContiguous v.axes ∧ ids.all (·.toNat < n) then
      .ok {
        stored := fun i =>
          let id := ids[i / v.rowLength]?.getD 0
          v.stored (v.start + (id.toNat * v.rowLength + i % v.rowLength))
        axes := Axis.rowMajor (ids.length :: dims)
        start := 0 }
    else .error (.fault .unfitArray)

end Strided

end PagedServe
