import RegionHeap.Proofs.Layout.Laid

/-!
# Plans

A plan is a heap on paper: its layout, and the order of its free list. The operations of a heap are
given here as functions on plans, free of memory, headers and links; what the heaps do in memory is
shown elsewhere to be what the plans say. The two strategies differ in three places only: which free
cell serves a request, whether a cell that becomes free is merged with its neighbours, and whether a
cell can take in the free cell behind it.

* `Plan.splitTail`, `Plan.free`, `Plan.grow?`, `Plan.carve?` -- the edits of a plan;
* `Plan.allocate`, `Plan.release`, `Plan.resize`, `Plan.usable` -- the operations, with addresses;
* `Plan.Settled` -- what holds of a listing heap between its operations.
-/

namespace RegionHeap

/-- A heap on paper. -/
structure Plan where
  /-- The blocks in address order. -/
  cells : List Cell
  /-- The offsets of the listed blocks, in the order of the list; none in a scanning heap. -/
  order : List Nat
  deriving DecidableEq, Repr

namespace Plan

variable {a : Alignment}

/-! ## 1. Edits -/

/-- A free cell in front of others, merged with the first of them if that one is free. -/
def merge (c : Cell) : List Cell → List Cell
  | [] => [c]
  | d :: back => if d.used then c :: d :: back else { c with size := c.size + d.size } :: back

/-- The order of the list after the first of some cells has left it, if that one is free. -/
def unlist (order : List Nat) : List Cell → List Nat
  | [] => order
  | d :: _ => if d.used then order else order.erase d.offset

/-- The order of the list after a block has entered. -/
def enter : Strategy → (off : Nat) → (order : List Nat) → List Nat
  | .scan, _, order => order
  | .list, off, order => off :: order

/-- The plan with a free cell between others. If free blocks are listed, this one is, and the cell
    behind it is merged into it. -/
def put (s : Strategy) (front : List Cell) (c : Cell) (back : List Cell) (order : List Nat) : Plan :=
  match s with
  | .scan => ⟨front ++ c :: back, order⟩
  | .list => ⟨front ++ merge c back, unlist order back⟩

/-- Puts the cell in focus into use and cuts it down to `keep` bytes, if the rest can be a block. -/
def splitTail (a : Alignment) (s : Strategy) (keep : Nat) (f : Focus) (order : List Nat) : Plan :=
  if f.cell.size - keep < s.minBlock a then
    ⟨f.front ++ { f.cell with used := true } :: f.back, order⟩
  else
    put s (f.front ++ [⟨f.cell.offset, keep, true⟩])
      ⟨f.cell.offset + keep, f.cell.size - keep, false⟩ f.back (enter s (f.cell.offset + keep) order)

/-- The free cell in front that takes in a cell when it becomes free. -/
def leftFree? (s : Strategy) (f : Focus) : Option Cell :=
  match s with
  | .scan => none
  | .list => f.front.getLast?.filter fun c => !c.used

/-- Frees the cell in focus. -/
def free (s : Strategy) (f : Focus) (order : List Nat) : Plan :=
  match leftFree? s f with
  | some left => put s f.front.dropLast { left with size := left.size + f.cell.size } f.back order
  | none => put s f.front { f.cell with used := false } f.back (enter s f.cell.offset order)

/-- Extends the cell in focus to `need` bytes, if the free cell behind it suffices. -/
def grow? (a : Alignment) (s : Strategy) (need : Nat) (f : Focus) (order : List Nat) :
    Option Plan :=
  match s, f.back with
  | .list, d :: back =>
    if d.used = false ∧ need ≤ f.cell.size + d.size then
      some (splitTail a .list need
        ⟨f.front, { f.cell with size := f.cell.size + d.size }, back⟩ (order.erase d.offset))
    else
      none
  | _, _ => none

/-- The free cell that serves a request for a block of `need` bytes. -/
def fit? (s : Strategy) (need : Nat) (p : Plan) : Option Focus :=
  match s with
  | .scan => (p.cells.find? fun c => !c.used && decide (need ≤ c.size)).bind fun c =>
      focus? c.offset p.cells
  | .list => (p.order.find? fun x => (focus? x p.cells).any fun f => decide (need ≤ f.cell.size)).bind
      fun x => focus? x p.cells

/-- Puts a block of `need` bytes into use and gives its offset. -/
def carve? (a : Alignment) (s : Strategy) (need : Nat) (p : Plan) : Option (Nat × Plan) :=
  (p.fit? s need).map fun f =>
    (f.cell.offset, splitTail a s need f (p.order.erase f.cell.offset))

/-! ## 2. Operations -/

/-- The cell in use whose payload starts at an address. -/
def live? (r : Region a) (addr : Nat) (p : Plan) : Option Focus :=
  (r.offsetOf? addr).bind fun off => (focus? off p.cells).filter fun f => f.cell.used

/-- The number of bytes that a client may use at an address. -/
def usable (r : Region a) (addr : Nat) (p : Plan) : Option Nat :=
  (p.live? r addr).map fun f => f.cell.size - a.bytes

/-- Serves a request for `n` bytes. -/
def allocate (r : Region a) (s : Strategy) (n : Nat) (p : Plan) : Option Nat × Plan :=
  match (a.blockSize? (s.minPayload a) n).bind fun need => p.carve? a s need with
  | none => (none, p)
  | some (off, p') => (some (r.base + off + a.bytes), p')

/-- Takes an allocation back. -/
def release (r : Region a) (s : Strategy) (addr : Nat) (p : Plan) : Plan :=
  match p.live? r addr with
  | none => p
  | some f => free s f p.order

/-- Moves an allocation to a new block of `need` bytes. -/
def relocate (r : Region a) (s : Strategy) (addr need : Nat) (p : Plan) : Option Nat × Plan :=
  match p.carve? a s need with
  | none => (none, p)
  | some (off, p') => (some (r.base + off + a.bytes), p'.release r s addr)

/-- Changes the size of a live allocation to a block of `need` bytes. -/
def refit (r : Region a) (s : Strategy) (addr need : Nat) (f : Focus) (p : Plan) :
    Option Nat × Plan :=
  if need ≤ f.cell.size then
    (some addr, splitTail a s need f p.order)
  else
    match grow? a s need f p.order with
    | some p' => (some addr, p')
    | none => p.relocate r s addr need

/-- Changes the size of an allocation to `n` bytes. -/
def resize (r : Region a) (s : Strategy) (addr? : Option Nat) (n : Nat) (p : Plan) :
    Option Nat × Plan :=
  match addr? with
  | none => p.allocate r s n
  | some addr =>
    if n = 0 then
      (none, p.release r s addr)
    else
      match p.live? r addr, a.blockSize? (s.minPayload a) n with
      | some f, some need => p.refit r s addr need f
      | _, _ => (none, p)

end Plan

end RegionHeap
