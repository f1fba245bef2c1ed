import RegionHeap.Heap.List
import RegionHeap.Heap.Scan

/-!
# Heaps

A heap of either strategy, with the operations that both offer. Clients that do not care how free
blocks are found use this type; what each operation promises is said at the two heaps.
-/

namespace RegionHeap

/-- A heap of either strategy. -/
inductive Heap (a : Alignment) where
  | scan (h : ScanHeap a)
  | list (h : ListHeap a)
  deriving DecidableEq, Repr

namespace Heap

variable {a : Alignment}

/-- The heap of a strategy before its first region. -/
def empty : Strategy → Heap a
  | .scan => scan .empty
  | .list => list .empty

/-- The strategy of a heap. -/
def strategy : Heap a → Strategy
  | scan _ => .scan
  | list _ => .list

/-- The region of a heap. -/
def region : Heap a → Option (Region a)
  | scan h => h.region
  | list h => h.region

/-- The first block of the free list, if the heap keeps one. -/
def head : Heap a → Option Nat
  | scan _ => none
  | list h => h.head

/-- Lays a heap of the same strategy out over a range of memory; what the heap held is forgotten,
    even when the range is refused. -/
def init (h : Heap a) (m : Memory) (addr len : Nat) :
    Except Fault (Outcome a (Heap a) (Except ClaimError Unit)) :=
  match h with
  | scan _ => (ScanHeap.init m addr len).map (Outcome.lift scan)
  | list _ => (ListHeap.init m addr len).map (Outcome.lift list)

/-- Serves a request for `n` bytes with the address of a payload. -/
def allocate (h : Heap a) (m : Memory) (n : Nat) :
    Except Fault (Outcome a (Heap a) (Option Nat)) :=
  match h with
  | scan h => (h.allocate m n).map (Outcome.lift scan)
  | list h => (h.allocate m n).map (Outcome.lift list)

/-- Takes an allocation back. An address that names none is ignored. -/
def release (h : Heap a) (m : Memory) (addr : Nat) : Except Fault (Outcome a (Heap a) Unit) :=
  match h with
  | scan h => (h.release m addr).map (Outcome.lift scan)
  | list h => (h.release m addr).map (Outcome.lift list)

/-- Changes the size of an allocation to `n` bytes and gives its address. No address asks for a new
    allocation, no bytes for a release. -/
def resize (h : Heap a) (m : Memory) (addr? : Option Nat) (n : Nat) :
    Except Fault (Outcome a (Heap a) (Option Nat)) :=
  match h with
  | scan h => (h.resize m addr? n).map (Outcome.lift scan)
  | list h => (h.resize m addr? n).map (Outcome.lift list)

/-- The number of bytes that the client may use at an address, if it names a live allocation. -/
def usableSize (h : Heap a) (m : Memory) (addr : Nat) : Except Fault (Option Nat) :=
  match h with
  | scan h => h.usableSize m addr
  | list h => h.usableSize m addr

/-- Checks the structure of the heap. -/
def validate (h : Heap a) (m : Memory) : Except Fault (Verdict a) :=
  match h with
  | scan h => h.validate m
  | list h => h.validate m

/-- The heap written out as a record. -/
def text : Heap a → String
  | scan h => h.text
  | list h => h.text

end Heap

end RegionHeap
