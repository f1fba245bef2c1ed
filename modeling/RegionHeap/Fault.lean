/-!
# Faults

Every step of a heap is checked: an access outside the region, a sum that leaves the machine's
words, a free list that names an allocated block, a loop that would not end. A step whose check
fails ends in a `Fault` and has no other result, so "this operation never faults" says in one word
that all its accesses are in bounds, that its arithmetic is exact and that its loops end.

On a heap whose headers and links are intact no operation faults; a fault needs a client that
wrote outside its payloads.
-/

namespace RegionHeap

/-- Why a step could not be carried out. Offsets count from the start of the region. -/
inductive Fault where
  /-- The sum of two words is no word. -/
  | overflow (left right : Nat)
  /-- The difference of two words is negative. -/
  | underflow (left right : Nat)
  /-- No aligned word of the region lies at the offset. -/
  | badWord (offset : Nat)
  /-- The bytes do not all lie inside the region. -/
  | badRange (offset length : Nat)
  /-- No header can start at the offset. -/
  | badHeaderOffset (offset : Nat)
  /-- The block is allocated where only a free block may stand. -/
  | notFree (offset : Nat)
  /-- The block is free where only an allocated block may stand. -/
  | notAllocated (offset : Nat)
  /-- The block has no predecessor in the free list and is not its head either. -/
  | notListed (offset : Nat)
  /-- A block is to keep more bytes than it has. -/
  | keepsTooMuch (offset keep : Nat)
  /-- The loop comes back to where it was. -/
  | endless
  deriving DecidableEq, Repr

end RegionHeap
