import RegionHeap.Region.Walk
import RegionHeap.Strategy

/-!
# The free list

A heap that lists its free blocks keeps two links in the payload of each: the offset of the block
before it in the list and that of the block after it, with the last word for "none". The list is in
no particular order; blocks enter it at the front.

This file holds the links and the edits of the list:

* `push`, `remove` -- one block enters at the front, one block leaves from anywhere;
* `coalesce` -- a free block takes in the free blocks that follow it in memory;
* `splitTail` -- an allocated block gives back the bytes that it does not need;
* `firstFit` -- the first listed block that is large enough;
* `grow?` -- an allocated block takes in the free blocks that follow it, if they suffice.

The links are trusted only as far as the checks of the region go, and a header is read again each
time it is used, so each edit is defined on any memory.
-/

namespace RegionHeap

/-! ## 1. Links -/

/-- The neighbours of a free block in the list. -/
structure Links where
  /-- The block before it. -/
  prev : Option Nat
  /-- The block after it. -/
  next : Option Nat
  deriving DecidableEq, Repr

namespace Links

/-- The word that stands for "no block". -/
def nil : Nat := Word.limit - 1

/-- The word that stores a link. -/
def encode : Option Nat → Nat
  | none => nil
  | some off => off

/-- The link that a word stores. -/
def decode (w : Nat) : Option Nat :=
  if w = nil then none else some w

@[simp] theorem decode_encode_none : decode (encode none) = none := if_pos rfl

theorem decode_encode_some {off : Nat} (h : off < nil) : decode (encode (some off)) = some off :=
  if_neg (Nat.ne_of_lt h)

end Links

namespace Region

variable {a : Alignment}

/-- The links of the free block at an offset. -/
def links (r : Region a) (m : Memory) (off : Nat) : Except Fault Links := do
  let prev ← r.word m (off + a.bytes)
  let next ← r.word m (off + a.bytes + Word.size)
  return ⟨Links.decode prev, Links.decode next⟩

/-- Sets the backward link of the free block at an offset. -/
def setPrev (r : Region a) (m : Memory) (off : Nat) (prev : Option Nat) : Except Fault Memory :=
  r.setWord m (off + a.bytes) (Links.encode prev)

/-- Sets the forward link of the free block at an offset. -/
def setNext (r : Region a) (m : Memory) (off : Nat) (next : Option Nat) : Except Fault Memory :=
  r.setWord m (off + a.bytes + Word.size) (Links.encode next)

/-- The header of a block that the list names, which has to be free. -/
def freeHeader (r : Region a) (m : Memory) (off : Nat) : Except Fault (Header a) := do
  let h ← r.header m off
  if h.Allocated then throw (.notFree off)
  return h

end Region

/-! ## 2. Edits of the list -/

/-- A free list: its first block, and the memory that holds the links. -/
structure FreeList where
  /-- The first block of the list. -/
  head : Option Nat
  /-- The memory that the region lies in. -/
  memory : Memory

namespace FreeList

variable {a : Alignment}

/-- Tells the block after a place in the list, if there is one, that `prev` comes before it. -/
def linkBack (r : Region a) (l : FreeList) (next prev : Option Nat) : Except Fault FreeList :=
  match next with
  | none => return l
  | some n => do
    let _ ← r.freeHeader l.memory n
    return { l with memory := ← r.setPrev l.memory n prev }

/-- Tells the place in front of `block`, a listed block or the head of the list, that `next` comes
    after it. -/
def linkForward (r : Region a) (l : FreeList) (block : Nat) (prev next : Option Nat) :
    Except Fault FreeList :=
  match prev with
  | none => do
    unless l.head = some block do throw (.notListed block)
    return { l with head := next }
  | some p => do
    let _ ← r.freeHeader l.memory p
    return { l with memory := ← r.setNext l.memory p next }

/-- Puts the block at `off` in front of the list. -/
def push (r : Region a) (l : FreeList) (off : Nat) : Except Fault FreeList := do
  let m ← r.setPrev l.memory off none
  let m ← r.setNext m off l.head
  let l ← linkBack r ⟨l.head, m⟩ l.head (some off)
  return { l with head := some off }

/-- Takes the block at `off` out of the list and clears its links. -/
def remove (r : Region a) (l : FreeList) (off : Nat) : Except Fault FreeList := do
  let links ← r.links l.memory off
  let l ← linkForward r l off links.prev links.next
  let l ← linkBack r l links.next links.prev
  -- the links were read before the neighbours changed; they are cleared last
  let m ← r.setPrev l.memory off none
  let m ← r.setNext m off none
  return { l with memory := m }

/-! ## 3. Neighbours in memory -/

/-- Merges the free blocks from `off + size` on into the free block at `off`. A block of size zero
    leads back to itself; its links are cleared by the first pass over it, so at the third pass it
    is found not to be listed. Each place takes at most three passes, and a region has a place for
    every eight bytes at most, so `r.size` passes are enough. -/
def absorb (r : Region a) (off : Nat) : (passes size : Nat) → FreeList → Except Fault FreeList
  | 0, _, _ => throw .endless
  | passes + 1, size, l => do
    let next ← Word.add off size
    if r.size ≤ next then return l
    let h ← r.header l.memory next
    if h.Allocated then return l
    let l ← l.remove r next
    let size ← Word.add size h.size
    let m ← r.setHeader l.memory off (.ofSize size false)
    absorb r off passes size { l with memory := m }

/-- Merges every free block that follows the free block at `off` into it. -/
def coalesce (r : Region a) (l : FreeList) (off : Nat) : Except Fault FreeList := do
  let h ← r.header l.memory off
  if h.Allocated then throw (.notFree off)
  absorb r off r.size h.size l

/-- Cuts the allocated block at `off` down to `keep` bytes if the rest can be a block of its own.
    The rest enters the list and is merged with the free blocks that follow it. -/
def splitTail (r : Region a) (l : FreeList) (off keep : Nat) : Except Fault FreeList := do
  let h ← r.header l.memory off
  unless h.Allocated do throw (.notAllocated off)
  unless keep ≤ h.size do throw (.keepsTooMuch off keep)
  if h.size - keep < Strategy.list.minBlock a then return l
  let m ← r.setHeader l.memory off (.ofSize keep true)
  let m ← r.setHeader m (off + keep) (.ofSize (h.size - keep) false)
  let l ← push r { l with memory := m } (off + keep)
  l.coalesce r (off + keep)

/-! ## 4. Searching the list -/

/-- The first block of at least `need` bytes from a place in the list on. -/
def firstFitFrom (r : Region a) (m : Memory) (need : Nat) : (steps : Nat) → Option Nat →
    Except Fault (Option (Block a))
  | _, none => return none
  | 0, some _ => throw .endless
  | steps + 1, some off => do
    let h ← r.freeHeader m off
    if need ≤ h.size then return some ⟨off, h⟩
    firstFitFrom r m need steps (← r.links m off).next

/-- The first listed block of at least `need` bytes. Headers lie on words, so a search that passes
    more blocks than the region has words goes round in a circle. -/
def firstFit (r : Region a) (l : FreeList) (need : Nat) : Except Fault (Option (Block a)) :=
  firstFitFrom r l.memory need (r.size / Word.size) l.head

/-! ## 5. Growing in place -/

/-- How large a block at `off` of `size` bytes becomes by taking in the free blocks that follow
    until it has `need` bytes. Only a block of size zero, which leads back to itself, uses up more
    passes than the region has bytes. -/
def reach (r : Region a) (m : Memory) (off need : Nat) : (passes size : Nat) → Except Fault Nat
  | 0, _ => throw .endless
  | passes + 1, size => do
    if need ≤ size then return size
    let next ← Word.add off size
    if r.size ≤ next then return size
    let h ← r.header m next
    if h.Allocated then return size
    reach r m off need passes (← Word.add size h.size)

/-- Takes the free blocks from `off + size` on out of the list until `need` bytes are reached, and
    gives the size reached. The passes are counted as for `absorb`. -/
def gather (r : Region a) (off need : Nat) : (passes size : Nat) → FreeList →
    Except Fault (Nat × FreeList)
  | 0, _, _ => throw .endless
  | passes + 1, size, l => do
    if need ≤ size then return (size, l)
    let h ← r.freeHeader l.memory (off + size)
    let l ← l.remove r (off + size)
    gather r off need passes (← Word.add size h.size) l

/-- Makes the allocated block at `off` at least `need` bytes large by taking in the free blocks that
    follow it, and gives back what is left over; `none` if they are not enough. The size is
    measured first, so a failed attempt changes nothing. -/
def grow? (r : Region a) (l : FreeList) (off need : Nat) : Except Fault (Option FreeList) := do
  let h ← r.header l.memory off
  -- nothing has been written when this fails
  if (← reach r l.memory off need (r.size + 1) h.size) < need then return none
  let (size, l) ← gather r off need (r.size + 1) h.size l
  let m ← r.setHeader l.memory off (.ofSize size true)
  return some (← splitTail r { l with memory := m } off need)

end FreeList

end RegionHeap
