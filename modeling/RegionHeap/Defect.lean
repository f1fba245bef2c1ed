import RegionHeap.Text

/-!
# Defects

What can be wrong with the blocks and the free list of a heap. Each defect has a message for
readers and a record form that lists its fields. Offsets count from the start of the region.
-/

namespace RegionHeap

/-- A structural inconsistency of a heap. -/
inductive Defect where
  /-- The heap has no region. -/
  | uninitialized
  /-- A header has reserved bits set. -/
  | misalignedSize (offset raw : Nat)
  /-- A block is below the minimum size. -/
  | blockTooSmall (offset size : Nat)
  /-- A block extends past the end of the region. -/
  | overrun (offset size : Nat)
  /-- Two neighbouring blocks are both free. -/
  | adjacentFree (offset next : Nat)
  /-- The block sizes do not add up to the size of the region. -/
  | tilingMismatch (walked expected : Nat)
  /-- A node of the free list is no place for a block. -/
  | strayFreeNode (node : Nat)
  /-- A node of the free list is allocated. -/
  | usedBlockInFreeList (node : Nat)
  /-- The backward link of a node does not name its predecessor. -/
  | brokenFreeLink (node : Nat)
  /-- The free list returns to a node. -/
  | freeListCycle (node : Nat)
  /-- The blocks and the free list disagree on the number of free blocks. -/
  | freeCountMismatch (linear listed : Nat)
  deriving DecidableEq, Repr

namespace Defect

/-- The name of the kind of defect. -/
def name : Defect → String
  | uninitialized => "Uninitialized"
  | misalignedSize .. => "MisalignedSize"
  | blockTooSmall .. => "BlockTooSmall"
  | overrun .. => "Overrun"
  | adjacentFree .. => "AdjacentFree"
  | tilingMismatch .. => "TilingMismatch"
  | strayFreeNode .. => "StrayFreeNode"
  | usedBlockInFreeList .. => "UsedBlockInFreeList"
  | brokenFreeLink .. => "BrokenFreeLink"
  | freeListCycle .. => "FreeListCycle"
  | freeCountMismatch .. => "FreeCountMismatch"

/-- The numbers that a defect carries, with their names. -/
def fields : Defect → List (String × Nat)
  | uninitialized => []
  | misalignedSize offset raw => [("offset", offset), ("raw", raw)]
  | blockTooSmall offset size => [("offset", offset), ("size", size)]
  | overrun offset size => [("offset", offset), ("size", size)]
  | adjacentFree offset next => [("offset", offset), ("next", next)]
  | tilingMismatch walked expected => [("walked", walked), ("expected", expected)]
  | strayFreeNode node => [("node", node)]
  | usedBlockInFreeList node => [("node", node)]
  | brokenFreeLink node => [("node", node)]
  | freeListCycle node => [("node", node)]
  | freeCountMismatch linear listed => [("linear", linear), ("listed", listed)]

/-- What a reader is told. -/
def message : Defect → String
  | uninitialized => "heap is not initialized"
  | misalignedSize offset raw =>
    s!"block at {offset}: header {Text.address raw} has reserved bits set"
  | blockTooSmall offset size => s!"block at {offset}: size {size} is below the minimum"
  | overrun offset size => s!"block at {offset}: size {size} runs past the end of the region"
  | adjacentFree offset next => s!"free blocks at {offset} and {next} are adjacent"
  | tilingMismatch walked expected => s!"blocks cover {walked} bytes of a {expected}-byte region"
  | strayFreeNode node => s!"free list node {node} is not a block in the region"
  | usedBlockInFreeList node => s!"free list node {node} is marked as allocated"
  | brokenFreeLink node => s!"free list node {node} has an inconsistent prev link"
  | freeListCycle node => s!"free list has a cycle at {node}"
  | freeCountMismatch linear listed =>
    s!"{linear} free blocks in the region but {listed} in the free list"

/-- The defect written out as a record. -/
def text (d : Defect) : String :=
  Text.record d.name (d.fields.map fun f => (f.1, toString f.2))

end Defect

end RegionHeap
