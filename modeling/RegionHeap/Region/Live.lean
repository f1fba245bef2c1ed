import RegionHeap.Region.Walk

/-!
# Live allocations

A client names an allocation by the address of its payload, and any address may come in. A word
that looks like the header of an allocated block is not enough, since payloads are the client's to
write: the walk over the blocks has to arrive at it.
-/

namespace RegionHeap

/-- An allocation in use. -/
structure Live where
  /-- The offset of its block. -/
  offset : Nat
  /-- The size of its block. -/
  size : Nat
  /-- The offset of the block in front, unless it is the first one. -/
  left : Option Nat
  deriving DecidableEq, Repr

namespace Region

variable {a : Alignment}

/-- The live allocation whose payload starts at `addr`. Its header is allocated and well-formed,
    its size is at least `minBlock` and ends inside the region, and the walk comes past it. -/
def live? (r : Region a) (m : Memory) (minBlock addr : Nat) : Except Fault (Option Live) := do
  let some off := r.offsetOf? addr | return none
  let h ← r.header m off
  if ¬ h.Allocated ∨ h.Reserved ∨ h.size < minBlock then return none
  if (← r.room off) < h.size then return none
  let some left := Block.leftOf? off none (← r.blocks m) | return none
  return some ⟨off, h.size, left⟩

end Region

/-- The number of payload bytes of an allocation. -/
def Live.usable (a : Alignment) (l : Live) : Except Fault Nat :=
  Word.sub l.size a.bytes

end RegionHeap
