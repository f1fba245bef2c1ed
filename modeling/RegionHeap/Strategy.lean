import RegionHeap.Alignment

/-!
# Strategies

There are two ways to find a free block, and they differ in what a free block has to hold: nothing
when all blocks are scanned, the two links of the free list when the free blocks are listed.
-/

namespace RegionHeap

/-- How a heap finds a free block. -/
inductive Strategy where
  /-- Scan all blocks in address order. -/
  | scan
  /-- Follow a list that runs through the free blocks. -/
  | list
  deriving DecidableEq, Repr

namespace Strategy

/-- The smallest payload of a block. -/
def minPayload (a : Alignment) : Strategy → Nat
  | scan => a.bytes
  | list => 2 * Word.size

/-- The smallest block, header included. -/
def minBlock (a : Alignment) (s : Strategy) : Nat :=
  a.bytes + s.minPayload a

theorem bytes_le_minPayload (a : Alignment) (s : Strategy) : a.bytes ≤ s.minPayload a := by
  cases a <;> cases s <;> decide

end Strategy

end RegionHeap
