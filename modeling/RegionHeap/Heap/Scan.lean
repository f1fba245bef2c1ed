import RegionHeap.Heap.Outcome
import RegionHeap.Region.Audit
import RegionHeap.Region.Claim

/-!
# The scanning heap

The simpler of the two heaps, also known as an implicit free list: its blocks carry a header and
nothing else, and a free block is found by going through all blocks.

* `allocate` serves a request from the first free block in address order that is large enough.
* `release` clears the flag of the block and does nothing else, so neighbouring free blocks are
  never merged, and a heap may have the bytes for a request without having the block.
* `resize` shrinks in place, and moves the allocation to let it grow.
-/

namespace RegionHeap

/-- A heap that finds free blocks by scanning. Without a region it serves nothing. -/
structure ScanHeap (a : Alignment) where
  /-- The region that the heap lays out. -/
  region : Option (Region a)
  deriving DecidableEq, Repr

namespace ScanHeap

variable {a : Alignment}

/-- The heap before its first region. -/
def empty : ScanHeap a :=
  ⟨none⟩

/-! ## 1. Blocks -/

/-- The first free block of a list that holds `need` bytes and ends inside the region. -/
def firstFit (r : Region a) (need : Nat) : List (Block a) → Except Fault (Option (Block a))
  | [] => return none
  | b :: rest => do
    if b.header.Allocated ∨ b.size < need then
      firstFit r need rest
    else if b.size ≤ (← r.room b.offset) then
      return some b
    else
      firstFit r need rest

/-- Cuts the block at `off` down to `keep` bytes if the rest can be a block of its own, which is
    then free. -/
def splitTail (r : Region a) (m : Memory) (off keep : Nat) : Except Fault Memory := do
  let h ← r.header m off
  unless keep ≤ h.size do throw (.keepsTooMuch off keep)
  if h.size - keep < Strategy.scan.minBlock a then return m
  let m ← r.setHeader m off (.ofSize keep true)
  r.setHeader m (off + keep) (.ofSize (h.size - keep) false)

/-- Allocates a block of `need` bytes and gives its offset, if there is a free block for it. -/
def carve? (r : Region a) (m : Memory) (need : Nat) : Except Fault (Option (Nat × Memory)) := do
  let some b ← firstFit r need (← r.blocks m) | return none
  let m ← r.setHeader m b.offset (.ofSize b.size true)
  return some (b.offset, ← splitTail r m b.offset need)

/-! ## 2. Operations -/

/-- Lays the heap out over a range of memory: one free block, over zeros. A refused range leaves
    memory as it is and the heap without a region. -/
def init (m : Memory) (addr len : Nat) :
    Except Fault (Outcome a (ScanHeap a) (Except ClaimError Unit)) :=
  match Region.ofRange? a (Strategy.scan.minBlock a) addr len with
  | .error e => return ⟨empty, m, .error e, []⟩
  | .ok r => do
    let m ← r.setHeader (r.clear m) 0 (.ofSize r.size false)
    return ⟨⟨some r⟩, m, .ok (), [.claimed r]⟩

/-- Serves a request for `n` bytes with the address of a payload. -/
def allocate (h : ScanHeap a) (m : Memory) (n : Nat) :
    Except Fault (Outcome a (ScanHeap a) (Option Nat)) := do
  let some r := h.region | return ⟨h, m, none, []⟩
  let some need := a.blockSize? (Strategy.scan.minPayload a) n | return ⟨h, m, none, []⟩
  let some (off, m) ← carve? r m need | return ⟨h, m, none, []⟩
  let addr ← r.payload off
  return ⟨h, m, some addr, [.allocated n addr]⟩

/-- Takes an allocation back. An address that names none is ignored. -/
def release (h : ScanHeap a) (m : Memory) (addr : Nat) :
    Except Fault (Outcome a (ScanHeap a) Unit) := do
  let some r := h.region | return ⟨h, m, (), []⟩
  let some live ← r.live? m (Strategy.scan.minBlock a) addr
    | return ⟨h, m, (), [.releaseIgnored .scan addr]⟩
  let m ← r.setHeader m live.offset (.ofSize live.size false)
  return ⟨h, m, (), [.released addr live]⟩

/-- Moves an allocation to a new block of `need` bytes, which serves a request for `n` bytes. The
    old block is freed last, and stays as it is if there is no new one. -/
def relocate (h : ScanHeap a) (r : Region a) (m : Memory) (addr : Nat) (live : Live)
    (n need : Nat) : Except Fault (Outcome a (ScanHeap a) (Option Nat)) := do
  let some (off, m) ← carve? r m need | return ⟨h, m, none, []⟩
  let new ← r.payload off
  let m ← r.copyPayload m live.offset off (min (← live.usable a) n)
  let freed ← h.release m addr
  return ⟨freed.heap, freed.memory, some new, .allocated n new :: freed.log ++ [.moved addr n new]⟩

/-- Changes the size of an allocation to `n` bytes and gives its address, which stays the same when
    the allocation shrinks. No address asks for a new allocation, no bytes for a release. -/
def resize (h : ScanHeap a) (m : Memory) (addr? : Option Nat) (n : Nat) :
    Except Fault (Outcome a (ScanHeap a) (Option Nat)) := do
  let some addr := addr? | h.allocate m n
  if n = 0 then
    let o ← h.release m addr
    return ⟨o.heap, o.memory, none, o.log⟩
  let some r := h.region | return ⟨h, m, none, []⟩
  let some live ← r.live? m (Strategy.scan.minBlock a) addr
    | return ⟨h, m, none, [.resizeIgnored .scan addr n]⟩
  let some need := a.blockSize? (Strategy.scan.minPayload a) n | return ⟨h, m, none, []⟩
  if need ≤ live.size then
    return ⟨h, ← splitTail r m live.offset need, some addr, [.shrunk addr n]⟩
  h.relocate r m addr live n need

/-- The number of bytes that the client may use at an address, if it names a live allocation. -/
def usableSize (h : ScanHeap a) (m : Memory) (addr : Nat) : Except Fault (Option Nat) := do
  let some r := h.region | return none
  let some live ← r.live? m (Strategy.scan.minBlock a) addr | return none
  return some (← live.usable a)

/-- Checks that the blocks are well-formed and tile the region. -/
def validate (h : ScanHeap a) (m : Memory) : Except Fault (Verdict a) := do
  let some r := h.region | return .uninitialized
  return .ofAudit ((← r.audit m (Strategy.scan.minBlock a) false).map fun _ => ())

/-- The heap written out as a record. -/
def text (h : ScanHeap a) : String :=
  Text.record "ImplicitHeap" [("region", Text.optional Region.text h.region)]

end ScanHeap

end RegionHeap
