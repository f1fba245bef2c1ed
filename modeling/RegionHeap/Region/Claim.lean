import RegionHeap.Region.Basic

/-!
# Claiming a region

A heap takes over a range of memory that the client names by address and length. The length is
rounded down to the grid; a range that starts off the grid, that cannot hold one block or that
runs past the last address is refused, in this order, and memory stays as it was. A claimed region
is filled with zeros, up to its rounded length.
-/

namespace RegionHeap

/-- Why a range of memory cannot become a region. -/
inductive ClaimError where
  /-- The first address is off the grid. -/
  | misaligned (addr : Nat)
  /-- The rounded length is below the smallest block. -/
  | tooSmall (size min : Nat)
  /-- The range runs past the last address. -/
  | overflow (addr size : Nat)
  deriving DecidableEq, Repr

namespace ClaimError

/-- The name of the kind of error. -/
def name : ClaimError → String
  | misaligned .. => "Misaligned"
  | tooSmall .. => "TooSmall"
  | overflow .. => "Overflow"

/-- The numbers that an error carries, with their names. -/
def fields : ClaimError → List (String × Nat)
  | misaligned addr => [("addr", addr)]
  | tooSmall size min => [("size", size), ("min", min)]
  | overflow addr size => [("addr", addr), ("size", size)]

/-- What a reader is told. -/
def message (a : Alignment) : ClaimError → String
  | misaligned addr => s!"region start {Text.address addr} is not aligned to {a.bytes} bytes"
  | tooSmall size min =>
    s!"region of {size} bytes is smaller than the minimum block ({min} bytes)"
  | overflow addr size =>
    s!"region {Text.address addr} + {size} bytes overflows the address space"

/-- The error written out as a record. -/
def text (e : ClaimError) : String :=
  Text.record e.name (e.fields.map fun f => (f.1, toString f.2))

end ClaimError

namespace Region

/-- The region that starts at `addr` and has the length `len` rounded down, if it can hold a block
    of `minBlock` bytes and ends below the last address. -/
def ofRange? (a : Alignment) (minBlock addr len : Nat) : Except ClaimError (Region a) :=
  if haddr : addr % a.bytes = 0 then
    if a.alignDown len < minBlock then
      .error (.tooSmall len minBlock)
    else if hend : addr + a.alignDown len < Word.limit then
      .ok ⟨addr, a.alignDown len, haddr, Alignment.alignDown_mod len, hend⟩
    else
      .error (.overflow addr (a.alignDown len))
  else
    .error (.misaligned addr)

/-- The memory in which the region holds nothing but zeros. -/
def clear {a : Alignment} (r : Region a) (m : Memory) : Memory :=
  m.fill r.base r.size 0

end Region

end RegionHeap
