import RegionHeap.FreeList.Basic

/-!
# Lines of a snapshot

A snapshot shows a heap to a reader: a banner, a line per block and a last line. The lines are
values that hold what they show; their text is made in pieces, because a writer with little room
takes the pieces in order and stops. A piece that shows an address cannot be made when the address
is no word, which only a damaged link leads to.
-/

namespace RegionHeap

namespace Snapshot

/-- What stands behind the description of a block. -/
inductive Note where
  /-- Nothing. -/
  | bare
  /-- The payload size and the address that the header leads to. -/
  | extent
  /-- The links of a free block. -/
  | links (l : Links)
  deriving DecidableEq, Repr

/-- A line of a snapshot. -/
inductive Line (a : Alignment) where
  /-- The heap has no region. -/
  | noRegion
  /-- The range of the region. -/
  | banner (r : Region a)
  /-- The first block of the free list. -/
  | freeHead (r : Region a) (head : Option Nat)
  /-- A block, with its number in the walk. -/
  | block (r : Region a) (index : Nat) (b : Block a) (note : Note)
  /-- The first bytes of a payload; `more` if there are others. -/
  | preview (bytes : List UInt8) (more : Bool)
  /-- The block above cannot be walked past. -/
  | corrupt
  /-- The walk came to its end. -/
  | finish
  deriving DecidableEq, Repr

/-- A part of a line, or the reason why it has no text. -/
abbrev Piece := Except Fault String

variable {a : Alignment}

/-- The two links of a block as addresses. -/
def linksText (r : Region a) (l : Links) : Piece := do
  let prev ← l.prev.mapM r.address
  let next ← l.next.mapM r.address
  return s!"prev={Text.optional Text.hex prev} next={Text.optional Text.hex next}"

/-- The description of a block: number, offset, address, header, size and flag. -/
def blockText (r : Region a) (index : Nat) (b : Block a) : Piece := do
  let addr ← r.address b.offset
  return "#" ++ Text.padded 4 '0' (toString index) ++
    s!" off={Text.column b.offset}  hdr={Text.address addr}  raw=0x" ++
    Text.padded 16 '0' (Text.hex b.header.raw) ++ s!"  size={Text.column b.size}  " ++
    if b.header.Allocated then "ALLOC" else "FREE "

/-- The rest of the line behind the description of a block. -/
def noteText (r : Region a) (b : Block a) : Note → Piece
  | .bare => return "\n"
  | .extent => do
    let next := ((← r.address b.offset) + b.size) % Word.limit
    return s!"  payload={Text.column (b.size - a.bytes)}  next={Text.address next}\n"
  | .links l => return "  " ++ (← linksText r l) ++ "\n"

/-- The bytes of a preview, each as two hexadecimal digits. -/
def bytesText (bytes : List UInt8) : String :=
  String.join (bytes.map fun b => " " ++ Text.padded 2 '0' (Text.hex b.toNat))

/-- The text of a line in pieces. -/
def Line.pieces : Line a → List Piece
  | noRegion => [.ok "heap not initialized\n"]
  | banner r =>
    [do
      let first ← r.address 0
      let last ← r.address r.size
      return s!"heap [{Text.address first} .. {Text.address last}) size={r.size}\n"]
  | freeHead r head =>
    [match head with
      | none => .ok "free_head=-\n"
      | some off => do
        let addr ← r.address off
        return s!"free_head={Text.address addr}\n"]
  | block r index b note => [blockText r index b, noteText r b note]
  | preview bytes more =>
    [.ok ("    data:" ++ bytesText bytes ++ (if more then " ..." else "") ++ "\n")]
  | corrupt => [.ok "  !! corrupt block (size/alignment/overrun); stopping dump\n"]
  | finish => [.ok "end of heap\n"]

end Snapshot

end RegionHeap
