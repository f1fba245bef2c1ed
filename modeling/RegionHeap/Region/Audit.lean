import RegionHeap.Defect
import RegionHeap.Region.Walk

/-!
# Audit of the blocks

The blocks of an intact heap are well-formed and tile the region. The audit goes through the walk
in address order and names the first defect: reserved bits before a size that is too small, that
before a size that runs past the end, and that before a free block right after a free block, which
counts as a defect only for heaps that merge.
-/

namespace RegionHeap

namespace Region

variable {a : Alignment}

/-- What makes a block unfit to walk past. -/
def defectAt? (r : Region a) (minBlock : Nat) (b : Block a) : Except Fault (Option Defect) := do
  if b.header.Reserved then return some (.misalignedSize b.offset b.header.raw)
  if b.size < minBlock then return some (.blockTooSmall b.offset b.size)
  if (← r.room b.offset) < b.size then return some (.overrun b.offset b.size)
  return none

/-- Audits the blocks of a list: `walked` bytes and `free` free blocks lie before it, and
    `lastFree` is the block right before it if that one is free. -/
def auditFrom (r : Region a) (minBlock : Nat) (merged : Bool) :
    List (Block a) → (walked free : Nat) → (lastFree : Option Nat) →
    Except Fault (Except Defect Nat)
  | [], walked, free, _ =>
    return if walked = r.size then .ok free else .error (.tilingMismatch walked r.size)
  | b :: rest, walked, free, lastFree => do
    if let some d ← r.defectAt? minBlock b then return .error d
    if b.header.Allocated then
      r.auditFrom minBlock merged rest (← Word.add walked b.size) free none
    else
      -- of two free neighbours the audit names the one in front first
      match merged, lastFree with
      | true, some left => return .error (.adjacentFree left b.offset)
      | _, _ =>
        r.auditFrom minBlock merged rest (← Word.add walked b.size) (free + 1) (some b.offset)

/-- Audits all blocks and counts the free ones; if `merged`, no two neighbours may be free. -/
def audit (r : Region a) (m : Memory) (minBlock : Nat) (merged : Bool) :
    Except Fault (Except Defect Nat) := do
  r.auditFrom minBlock merged (← r.blocks m) 0 0 none

end Region

end RegionHeap
