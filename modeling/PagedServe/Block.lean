/-
PagedServe/Block.lean

The references to one physical block of the cache. A block without references is
free; releasing it once more is an error and leaves it free.
-/
import PagedServe.Failure

namespace PagedServe

/-- The references held on one physical block. -/
structure Block where
  id : Nat
  refs : Nat

namespace Block

/-- A block that nobody references. -/
def fresh (id : Nat) : Block := ⟨id, 0⟩

/-- Somebody references the block. -/
def inUse (b : Block) : Bool := b.refs != 0

def retain (b : Block) : Block := { b with refs := b.refs + 1 }

/-- Drop one reference. A block without any is not released. -/
def release (b : Block) : Except Failure Block :=
  if b.refs = 0 then .error (.error (.invariantViolation (.releasedWhileFree b.id)))
  else .ok { b with refs := b.refs - 1 }

@[simp] theorem retain_refs (b : Block) : b.retain.refs = b.refs + 1 := rfl

end Block

end PagedServe
