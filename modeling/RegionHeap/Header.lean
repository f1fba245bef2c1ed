import RegionHeap.Alignment
import RegionHeap.Text

/-!
# Block headers

A header is one word: the size of the whole block, a multiple of the alignment, with the lowest bit
telling whether the block is allocated. The bits in between are reserved and zero in a well-formed
header. Any word can stand where a header is read, so `Header` holds the raw word and the size, the
flag and the reserved bits are read off it.

* `size_ofSize`, `allocated_ofSize`, `not_reserved_ofSize` -- what a header made from a size shows.
-/

namespace RegionHeap

/-- The word at the start of a block. -/
structure Header (a : Alignment) where
  /-- The word as it lies in memory. -/
  raw : Nat
  deriving DecidableEq, Repr

namespace Header

variable {a : Alignment}

/-- The size of the whole block. -/
def size (h : Header a) : Nat :=
  a.alignDown h.raw

/-- The block is allocated: the lowest bit is set. -/
def Allocated (h : Header a) : Prop :=
  h.raw % 2 = 1

/-- A bit is set that belongs neither to the size nor to the flag. -/
def Reserved (h : Header a) : Prop :=
  h.raw % a.bytes / 2 ≠ 0

instance (h : Header a) : Decidable h.Allocated :=
  inferInstanceAs (Decidable (h.raw % 2 = 1))

instance (h : Header a) : Decidable h.Reserved :=
  inferInstanceAs (Decidable (h.raw % a.bytes / 2 ≠ 0))

/-- The header of a block with the given size and flag; a size off the grid is rounded down. -/
def ofSize (size : Nat) (allocated : Bool) : Header a :=
  ⟨a.alignDown size + if allocated then 1 else 0⟩

/-- The header written out as a record. -/
def text (h : Header a) : String :=
  Text.record "Header" [("size", toString h.size), ("used", toString (decide h.Allocated))]

theorem size_mod (h : Header a) : h.size % a.bytes = 0 := Alignment.alignDown_mod h.raw

theorem size_ofSize {n : Nat} (allocated : Bool) (h : n % a.bytes = 0) :
    (ofSize n allocated : Header a).size = n := by
  cases a <;> cases allocated <;>
    simp [size, ofSize, Alignment.alignDown, Alignment.bytes] at h ⊢ <;> omega

@[simp] theorem allocated_ofSize (n : Nat) (allocated : Bool) :
    (ofSize n allocated : Header a).Allocated ↔ allocated = true := by
  cases a <;> cases allocated <;>
    simp [Allocated, ofSize, Alignment.alignDown, Alignment.bytes] <;> omega

theorem not_reserved_ofSize (n : Nat) (allocated : Bool) :
    ¬ (ofSize n allocated : Header a).Reserved := by
  cases a <;> cases allocated <;>
    simp [Reserved, ofSize, Alignment.alignDown, Alignment.bytes]

/-- The header of a size below the last word fits into a word. -/
theorem raw_ofSize_lt {n : Nat} (allocated : Bool) (h : n < Word.limit) :
    (ofSize n allocated : Header a).raw < Word.limit := by
  cases a <;> cases allocated <;>
    simp [ofSize, Alignment.alignDown, Alignment.bytes, Word.limit] at h ⊢ <;> omega

end Header

end RegionHeap
