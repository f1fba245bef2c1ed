import RegionHeap.Heap.Basic
import RegionHeap.Snapshot.Line

/-!
# Snapshots of heaps

The lines that show a heap. There is one line per block of the walk, up to and including the first
block that cannot be walked past; the last line says which of the two ends it was. A scanning heap
shows the first bytes of each payload, a listing heap the links of each free block.
-/

namespace RegionHeap

namespace Snapshot

variable {a : Alignment}

/-- The block cannot be walked past. A snapshot looks for itself, it does not ask the audit. -/
def isCorrupt (r : Region a) (minBlock : Nat) (b : Block a) : Except Fault Bool := do
  if b.size < minBlock ∨ b.header.Reserved then return true
  return decide ((← r.room b.offset) < b.size)

/-- The number of payload bytes that a preview shows. -/
def previewLength : Nat := 16

/-- The preview of a block, if it has a payload; a block that runs past the end of the region shows
    what lies inside. -/
def preview (r : Region a) (m : Memory) (b : Block a) : Except Fault (List (Line a)) := do
  if b.size ≤ a.bytes then return []
  let len := min b.size (← r.room b.offset) - a.bytes
  let shown ← r.bytes m (b.offset + a.bytes) (min len previewLength)
  return [.preview shown (decide (shown.length < len))]

/-- The lines of a scanning heap from the block with the given number on. -/
def scanLines (r : Region a) (m : Memory) : (index : Nat) → List (Block a) →
    Except Fault (List (Line a))
  | _, [] => return [.finish]
  | index, b :: rest => do
    let here := .block r index b .extent :: (← preview r m b)
    if ← isCorrupt r (Strategy.scan.minBlock a) b then return here ++ [.corrupt]
    return here ++ (← scanLines r m (index + 1) rest)

/-- The lines of a listing heap from the block with the given number on. -/
def listLines (r : Region a) (m : Memory) : (index : Nat) → List (Block a) →
    Except Fault (List (Line a))
  | _, [] => return [.finish]
  | index, b :: rest => do
    if ← isCorrupt r (Strategy.list.minBlock a) b then
      return [.block r index b .bare, .corrupt]
    let note ← if b.header.Allocated then pure Note.bare else Note.links <$> r.links m b.offset
    return .block r index b note :: (← listLines r m (index + 1) rest)

end Snapshot

open Snapshot

variable {a : Alignment}

/-- The lines that show a scanning heap. -/
def ScanHeap.snapshot (h : ScanHeap a) (m : Memory) : Except Fault (List (Line a)) := do
  let some r := h.region | return [.noRegion]
  return .banner r :: (← scanLines r m 0 (← r.blocks m))

/-- The lines that show a listing heap. -/
def ListHeap.snapshot (h : ListHeap a) (m : Memory) : Except Fault (List (Line a)) := do
  let some r := h.region | return [.noRegion]
  return .banner r :: .freeHead r h.head :: (← listLines r m 0 (← r.blocks m))

/-- The lines that show a heap. -/
def Heap.snapshot (h : Heap a) (m : Memory) : Except Fault (List (Line a)) :=
  match h with
  | .scan h => h.snapshot m
  | .list h => h.snapshot m

namespace Snapshot

/-- What a writer took of a snapshot. -/
structure Written where
  /-- The text that it took. -/
  text : String
  /-- It took everything. -/
  complete : Bool
  deriving DecidableEq, Repr

/-- Hands pieces to a writer that has room for so many bytes, or for all there is. Of the piece that
    is too long it takes what fits, and the pieces after it are not made. All text of a snapshot is
    ASCII, so a byte is a character. -/
def write (room : Option Nat) (taken : String) : List Piece → Except Fault Written
  | [] => return ⟨taken, true⟩
  | piece :: rest => do
    let s ← piece
    match room with
    | none => write none (taken ++ s) rest
    | some n =>
      if s.length ≤ n then
        write (some (n - s.length)) (taken ++ s) rest
      else
        return ⟨taken ++ String.ofList (s.toList.take n), false⟩

end Snapshot

/-- Writes the snapshot of a heap to a writer that has room for so many bytes, or for all there is.
    A line is made only when the writer has taken all text before it. -/
def Heap.dump (h : Heap a) (m : Memory) (room : Option Nat) : Except Fault Snapshot.Written := do
  Snapshot.write room "" ((← h.snapshot m).flatMap Line.pieces)

end RegionHeap
