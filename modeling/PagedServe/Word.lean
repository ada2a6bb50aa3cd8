/-
PagedServe/Word.lean

Counts and sizes are natural numbers that must stay below `2 ^ 64`. The
operations here compute in `Nat` and report the fault that a 64-bit machine
would run into, so an answer `.ok n` is the mathematical result and fits.
`room` does the same for the bytes that a list or array takes, `item` and `slice`
for positions in a list.
-/
import PagedServe.Failure

namespace PagedServe.Word

/-- One more than the largest 64-bit number. -/
def limit : Nat := UInt64.size

/-- Accept a result that fits in 64 bits. -/
def fit (n : Nat) : Except Failure Nat :=
  if n < limit then .ok n else .error (.fault .overflow)

/-- A sum, which must fit. -/
def add (a b : Nat) : Except Failure Nat := fit (a + b)

/-- A product, which must fit. -/
def mul (a b : Nat) : Except Failure Nat := fit (a * b)

/-- A quotient, rounded down. -/
def div (a b : Nat) : Except Failure Nat :=
  if b = 0 then .error (.fault .divisionByZero) else .ok (a / b)

/-- Quotient rounded up. The sum is taken in `Nat`, so no input overflows. -/
def ceilDiv (a b : Nat) : Except Failure Nat :=
  if b = 0 then .error (.fault .divisionByZero) else .ok ((a + b - 1) / b)

/-- The most bytes that one list or array can take. -/
def maxBytes : Nat := limit / 2 - 1

/-- Refuse room for so many items of a size if no list can take that much. -/
def room (count size : Nat) : Except Failure Unit :=
  if maxBytes < count * size then .error (.fault .capacity) else .ok ()

variable {α : Type}

/-- The item at a position. -/
def item (xs : List α) (i : Nat) : Except Failure α :=
  match xs[i]? with
  | some x => .ok x
  | none => .error (.fault .outOfRange)

/-- The first `n` items. -/
def slice (xs : List α) (n : Nat) : Except Failure (List α) :=
  if n ≤ xs.length then .ok (xs.take n) else .error (.fault .outOfRange)

theorem fit_eq_ok {n m : Nat} : fit n = .ok m ↔ n < limit ∧ m = n := by
  by_cases h : n < limit <;> simp [fit, h, eq_comm]

theorem fit_of_lt {n : Nat} (h : n < limit) : fit n = .ok n := if_pos h

theorem fit_of_le {n : Nat} (h : limit ≤ n) : fit n = .error (.fault .overflow) :=
  if_neg (Nat.not_lt.mpr h)

/-- If the next factor is not zero, a product that goes on fits just if the whole does. -/
theorem fit_bind_mul (n : Nat) {b : Nat} (hb : 0 < b) :
    (fit n >>= fun m => mul m b) = fit (n * b) := by
  rcases Nat.lt_or_ge n limit with hfits | hover
  · rw [fit_of_lt hfits]
    rfl
  · rw [fit_of_le hover, fit_of_le (Nat.le_trans hover (Nat.le_mul_of_pos_right n hb))]
    rfl

theorem mul_eq_ok {a b m : Nat} : mul a b = .ok m ↔ a * b < limit ∧ m = a * b := fit_eq_ok

theorem add_eq_ok {a b m : Nat} : add a b = .ok m ↔ a + b < limit ∧ m = a + b := fit_eq_ok

theorem room_eq_ok {count size : Nat} : room count size = .ok () ↔ count * size ≤ maxBytes := by
  unfold room
  split
  case isTrue h => simp only [reduceCtorEq, false_iff]; omega
  case isFalse h => simp only [true_iff]; omega

theorem item_append (xs : List α) (x : α) (ys : List α) :
    item (xs ++ x :: ys) xs.length = .ok x := by
  simp [item]

theorem slice_eq_ok {xs : List α} {n : Nat} (h : n ≤ xs.length) : slice xs n = .ok (xs.take n) :=
  if_pos h

end PagedServe.Word
