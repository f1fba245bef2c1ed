import RegionHeap.FreeList.Audit
import RegionHeap.Heap.Outcome
import RegionHeap.Region.Audit
import RegionHeap.Region.Claim

/-!
# The listing heap

This heap, also known as an explicit free list, keeps its free blocks in a list that runs through
their payloads, and searches that list only.

* `allocate` serves a request from the first block of the list that is large enough.
* `release` merges the block with both neighbours in memory at once, so no two neighbouring blocks
  are ever free. The neighbour in front is found by walking the region. A block that is not merged
  into the one in front enters the list at its head, so it is the next to be tried.
* `resize` shrinks in place, grows in place when the free block behind suffices, and moves the
  allocation otherwise.
-/

namespace RegionHeap

/-- A heap that finds free blocks through a list. Without a region it serves nothing. -/
structure ListHeap (a : Alignment) where
  /-- The region that the heap lays out. -/
  region : Option (Region a)
  /-- The first block of the free list. -/
  head : Option Nat
  deriving DecidableEq, Repr

namespace ListHeap

variable {a : Alignment}

/-- The heap before its first region. -/
def empty : ListHeap a :=
  ⟨none, none⟩

/-- The heap with another free list. -/
def withList (h : ListHeap a) (l : FreeList) : ListHeap a :=
  { h with head := l.head }

/-! ## 1. Blocks -/

/-- Allocates a block of `need` bytes and gives its offset, if a listed block is large enough. -/
def carve? (r : Region a) (l : FreeList) (need : Nat) :
    Except Fault (Option (Nat × FreeList)) := do
  let some b ← l.firstFit r need | return none
  let l ← l.remove r b.offset
  let m ← r.setHeader l.memory b.offset (.ofSize b.size true)
  return some (b.offset, ← FreeList.splitTail r { l with memory := m } b.offset need)

/-- Frees the block of a live allocation. A free neighbour in front takes it in and keeps its place
    in the list; then the free blocks behind are merged. -/
def free (r : Region a) (l : FreeList) (live : Live) : Except Fault FreeList := do
  let m ← r.setHeader l.memory live.offset (.ofSize live.size false)
  let l := { l with memory := m }
  -- without a free neighbour in front the block enters the list itself
  let alone : Except Fault FreeList := do
    (← l.push r live.offset).coalesce r live.offset
  match live.left with
  | none => alone
  | some left => do
    let h ← r.header m left
    if h.Allocated then
      alone
    else
      -- the neighbour is listed already; the freed block never enters the list
      let size ← Word.add h.size live.size
      let m ← r.setHeader m left (.ofSize size false)
      FreeList.coalesce r { l with memory := m } left

/-! ## 2. Operations -/

/-- Lays the heap out over a range of memory: one free block, the only one of the list, over zeros.
    A refused range leaves memory as it is and the heap without a region. -/
def init (m : Memory) (addr len : Nat) :
    Except Fault (Outcome a (ListHeap a) (Except ClaimError Unit)) :=
  match Region.ofRange? a (Strategy.list.minBlock a) addr len with
  | .error e => return ⟨empty, m, .error e, []⟩
  | .ok r => do
    let m ← r.setHeader (r.clear m) 0 (.ofSize r.size false)
    let l ← FreeList.push r ⟨none, m⟩ 0
    return ⟨⟨some r, l.head⟩, l.memory, .ok (), [.claimed r]⟩

/-- Serves a request for `n` bytes with the address of a payload. -/
def allocate (h : ListHeap a) (m : Memory) (n : Nat) :
    Except Fault (Outcome a (ListHeap a) (Option Nat)) := do
  let some r := h.region | return ⟨h, m, none, []⟩
  let some need := a.blockSize? (Strategy.list.minPayload a) n | return ⟨h, m, none, []⟩
  let some (off, l) ← carve? r ⟨h.head, m⟩ need | return ⟨h, m, none, []⟩
  let addr ← r.payload off
  return ⟨h.withList l, l.memory, some addr, [.allocated n addr]⟩

/-- Takes an allocation back. An address that names none is ignored. -/
def release (h : ListHeap a) (m : Memory) (addr : Nat) :
    Except Fault (Outcome a (ListHeap a) Unit) := do
  let some r := h.region | return ⟨h, m, (), []⟩
  let some live ← r.live? m (Strategy.list.minBlock a) addr
    | return ⟨h, m, (), [.releaseIgnored .list addr]⟩
  let l ← free r ⟨h.head, m⟩ live
  return ⟨h.withList l, l.memory, (), [.released addr live]⟩

/-- Moves an allocation to a new block of `need` bytes, which serves a request for `n` bytes. The
    old block is freed last, and stays as it is if there is no new one. -/
def relocate (h : ListHeap a) (r : Region a) (m : Memory) (addr : Nat) (live : Live)
    (n need : Nat) : Except Fault (Outcome a (ListHeap a) (Option Nat)) := do
  let some (off, l) ← carve? r ⟨h.head, m⟩ need | return ⟨h, m, none, []⟩
  let new ← r.payload off
  let m ← r.copyPayload l.memory live.offset off (min (← live.usable a) n)
  let freed ← (h.withList l).release m addr
  return ⟨freed.heap, freed.memory, some new, .allocated n new :: freed.log ++ [.moved addr n new]⟩

/-- Changes the size of an allocation to `n` bytes and gives its address, which stays the same when
    the allocation shrinks or grows in place. No address asks for a new allocation, no bytes for a
    release. -/
def resize (h : ListHeap a) (m : Memory) (addr? : Option Nat) (n : Nat) :
    Except Fault (Outcome a (ListHeap a) (Option Nat)) := do
  let some addr := addr? | h.allocate m n
  if n = 0 then
    let o ← h.release m addr
    return ⟨o.heap, o.memory, none, o.log⟩
  let some r := h.region | return ⟨h, m, none, []⟩
  let some live ← r.live? m (Strategy.list.minBlock a) addr
    | return ⟨h, m, none, [.resizeIgnored .list addr n]⟩
  let some need := a.blockSize? (Strategy.list.minPayload a) n | return ⟨h, m, none, []⟩
  if need ≤ live.size then
    let l ← FreeList.splitTail r ⟨h.head, m⟩ live.offset need
    return ⟨h.withList l, l.memory, some addr, [.shrunk addr n]⟩
  match ← FreeList.grow? r ⟨h.head, m⟩ live.offset need with
  | some l => return ⟨h.withList l, l.memory, some addr, [.grown addr n]⟩
  | none => h.relocate r m addr live n need

/-- The number of bytes that the client may use at an address, if it names a live allocation. -/
def usableSize (h : ListHeap a) (m : Memory) (addr : Nat) : Except Fault (Option Nat) := do
  let some r := h.region | return none
  let some live ← r.live? m (Strategy.list.minBlock a) addr | return none
  return some (← live.usable a)

/-- Audits the blocks, then the list, then compares the numbers of free blocks. -/
def audit (h : ListHeap a) (r : Region a) (m : Memory) : Except Fault (Except Defect Unit) := do
  match ← r.audit m (Strategy.list.minBlock a) true with
  | .error d => return .error d
  | .ok linear =>
    match ← FreeList.audit r ⟨h.head, m⟩ with
    | .error d => return .error d
    | .ok listed =>
      return if linear = listed then .ok () else .error (.freeCountMismatch linear listed)

/-- Checks that the blocks tile the region, that no two neighbours are free, and that the list
    names exactly as many free blocks as there are. -/
def validate (h : ListHeap a) (m : Memory) : Except Fault (Verdict a) := do
  let some r := h.region | return .uninitialized
  return .ofAudit (← h.audit r m)

/-- The heap written out as a record. -/
def text (h : ListHeap a) : String :=
  Text.record "ExplicitHeap"
    [("region", Text.optional Region.text h.region),
      ("free_head", Text.optional toString h.head)]

end ListHeap

end RegionHeap
