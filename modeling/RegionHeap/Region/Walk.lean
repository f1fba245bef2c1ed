import RegionHeap.Region.Basic

/-!
# The walk over the blocks of a region

Blocks lie one after the other from the start of the region, and the size of each leads to the
next. The walk reads the headers as they are, well-formed or not: it ends where no header can
start, and after a block of size zero, from which nothing leads on. Offsets grow along the walk, so
it ends on any memory.
-/

namespace RegionHeap

/-- A block as the walk finds it. -/
structure Block (a : Alignment) where
  /-- The offset of the header. -/
  offset : Nat
  /-- The header read there. -/
  header : Header a
  deriving DecidableEq, Repr

namespace Block

variable {a : Alignment}

/-- The size that the header gives. -/
def size (b : Block a) : Nat :=
  b.header.size

/-- The offset of the block that follows. -/
def next (b : Block a) : Nat :=
  b.offset + b.size

end Block

namespace Region

variable {a : Alignment}

/-- The blocks from an offset on, in address order. -/
def blocksFrom (r : Region a) (m : Memory) (off : Nat) : Except Fault (List (Block a)) :=
  if _hoff : r.IsHeaderOffset off then do
    let h ← r.header m off
    if _hsize : h.size = 0 then
      return [⟨off, h⟩]
    else
      return ⟨off, h⟩ :: (← r.blocksFrom m (off + h.size))
  else
    return []
termination_by r.size - off
decreasing_by
  -- the block starts inside the region and the next one lies behind it
  have := _hoff.2
  have := a.bytes_pos
  omega

/-- The blocks of the region, in address order. -/
def blocks (r : Region a) (m : Memory) : Except Fault (List (Block a)) :=
  r.blocksFrom m 0

end Region

/-- The neighbour in front of the block at `off`, where `before` stands in front of the list: `none`
    if no block of the list starts at `off`. The list is in address order, so the search ends at
    the first block past `off`. -/
def Block.leftOf? {a : Alignment} (off : Nat) : (before : Option Nat) → List (Block a) →
    Option (Option Nat)
  | _, [] => none
  | before, b :: rest =>
    if b.offset = off then some before
    else if off < b.offset then none
    else leftOf? off (some b.offset) rest

end RegionHeap
