import RegionHeap.Proofs.Client.Places
import RegionHeap.Proofs.Plan.Refines

/-!
# What requests make of a scanning heap

The search goes through all blocks in address order, so a request is served from the lowest free block
that is large enough. A change of size that does not fit into the block goes where an allocation would
go, and leaves a free block behind.

* `Plan.LowestFit`, `Plan.fit?_scan_eq_some_iff` -- the search finds the lowest free cell that is large
  enough;
* `Cell.cut`, `Plan.splitTail_scan` -- what becomes of the cell that serves a request;
* `Plan.ServedByScan`, `Plan.served_scan` -- an allocation cuts the lowest fit, and touches no other
  cell;
* `Plan.resize_scan_of_le`, `Plan.resize_scan_of_lt` -- a change of size is a cut, or a move;
* `Plan.ResizedByScan`, `Plan.resized_scan` -- all of it, for a live allocation.
-/

namespace RegionHeap

variable {a : Alignment} {r : Region a} {c d : Cell} {front back : List Cell} {order : List Nat}
  {lo hi need addr n new : Nat} {p : Plan}

/-- What becomes of a cell when `need` of its bytes come into use: the rest is a free cell, unless it
    is too small to be a block. -/
def Cell.cut (a : Alignment) (need : Nat) (c : Cell) : List Cell :=
  if c.size - need < Strategy.scan.minBlock a then [{ c with used := true }]
  else [⟨c.offset, need, true⟩, ⟨c.offset + need, c.size - need, false⟩]

/-- What is cut begins with a cell in use. -/
theorem Cell.exists_cut (need : Nat) (c : Cell) : ∃ rest,
    c.cut a need = ⟨c.offset, Plan.keptSize a .scan need c.size, true⟩ :: rest := by
  unfold Cell.cut Plan.keptSize
  split
  · exact ⟨[], rfl⟩
  · exact ⟨_, rfl⟩

/-- A cell that has no more than it needs stays whole. -/
theorem Cell.cut_of_snug (h : Strategy.scan.Snug a need c.size) :
    c.cut a need = [{ c with used := true }] := by
  have hrest : c.size - need < Strategy.scan.minBlock a := Nat.sub_lt_left_of_lt_add h.le h.lt
  rw [Cell.cut, if_pos hrest]

namespace Plan

/-- The free cell `c` has `need` bytes, and no free cell of those in front of it has. -/
structure LowestFit (need : Nat) (front : List Cell) (c : Cell) : Prop where
  free : c.used = false
  fits : need ≤ c.size
  lowest : ∀ d ∈ front, d.used = false → d.size < need

/-! ## 1. The lowest fit -/

/-- **The search of a scanning heap finds the lowest fit.** -/
theorem fit?_scan_eq_some_iff (ht : Tiled a (Strategy.scan.minBlock a) lo p.cells hi) :
    p.fit? .scan need = some ⟨front, c, back⟩ ↔
      p.cells = front ++ c :: back ∧ LowestFit need front c := by
  constructor
  · intro h
    obtain ⟨d, hd, hf⟩ := Option.bind_eq_some_iff.mp h
    obtain ⟨hfit, pre, post, hcells, hpre⟩ := List.find?_eq_some_iff_append.mp hd
    rw [hcells, focus?_append_cons (hcells ▸ ht) Strategy.scan.minBlock_pos] at hf
    cases hf
    simp only [Bool.and_eq_true, Bool.not_eq_true', decide_eq_true_eq] at hfit
    refine ⟨hcells, hfit.1, hfit.2, fun e he hfree => ?_⟩
    simpa [hfree] using hpre e he
  · intro h
    obtain ⟨hcells, hfit⟩ := h
    have hfind : p.cells.find? (fun c => !c.used && decide (need ≤ c.size)) = some c := by
      refine List.find?_eq_some_iff_append.mpr ⟨?_, front, back, hcells, fun e he => ?_⟩
      · simp [hfit.free, hfit.fits]
      · cases hu : e.used with
        | true => rfl
        | false => simpa using hfit.lowest e he hu
    rw [fit?, hfind, Option.bind_some, hcells]
    exact focus?_append_cons (hcells ▸ ht) Strategy.scan.minBlock_pos

/-- A split in a scanning heap is a cut. -/
theorem splitTail_scan :
    splitTail a .scan need ⟨front, c, back⟩ order = ⟨front ++ c.cut a need ++ back, order⟩ := by
  rw [splitTail, Cell.cut, List.append_assoc]
  split
  · rfl
  · rw [put, List.append_assoc]
    rfl

/-! ## 2. Allocation -/

/-- What is answered to a request for a block of `need` bytes out of the given cells, and the cells
    `cells'` that it leads to. -/
structure ServedByScan (r : Region a) (need : Nat) (cells : List Cell) (new? : Option Nat)
    (cells' : List Cell) : Prop where
  /-- It is refused exactly if all free cells are too small. -/
  refused_iff : new? = none ↔ ∀ c ∈ cells, c.used = false → c.size < need
  /-- What is refused leaves all cells as they are. -/
  unchanged : new? = none → cells' = cells
  /-- Otherwise the lowest fit is cut, and all other cells stay as they are. -/
  served : ∀ new, new? = some new → ∃ front c back, cells = front ++ c :: back ∧
    LowestFit need front c ∧ new = c.payload r ∧ cells' = front ++ c.cut a need ++ back

/-- The lowest fit is cut. -/
theorem allocate_of_lowestFit (ht : Tiled a (Strategy.scan.minBlock a) lo p.cells hi)
    (hneed : a.blockSize? (Strategy.scan.minPayload a) n = some need)
    (hcells : p.cells = front ++ c :: back) (h : LowestFit need front c) :
    p.allocate r .scan n = (some (c.payload r),
      ⟨front ++ c.cut a need ++ back, p.order.erase c.offset⟩) := by
  rw [allocate, hneed, Option.bind_some, carve?, (fit?_scan_eq_some_iff ht).mpr ⟨hcells, h⟩,
    Option.map_some, splitTail_scan]
  rfl

/-- An allocation that succeeds cuts the lowest fit. -/
theorem allocate_scan_eq_some (ht : Tiled a (Strategy.scan.minBlock a) lo p.cells hi)
    (hneed : a.blockSize? (Strategy.scan.minPayload a) n = some need)
    (h : (p.allocate r .scan n).1 = some new) :
    ∃ front c back, p.cells = front ++ c :: back ∧ LowestFit need front c ∧ new = c.payload r ∧
      (p.allocate r .scan n).2.cells = front ++ c.cut a need ++ back := by
  cases hfit : p.fit? .scan need with
  | none =>
    rw [allocate, hneed, Option.bind_some, carve?, hfit] at h
    cases h
  | some f =>
    obtain ⟨front, c, back⟩ := f
    obtain ⟨hcells, hlowest⟩ := (fit?_scan_eq_some_iff ht).mp hfit
    rw [allocate_of_lowestFit ht hneed hcells hlowest] at h ⊢
    exact ⟨front, c, back, hcells, hlowest, (Option.some.inj h).symm, rfl⟩

/-- A scanning heap refuses a request only if no free cell is large enough. -/
theorem allocate_scan_eq_none_iff
    (hneed : a.blockSize? (Strategy.scan.minPayload a) n = some need) :
    (p.allocate r .scan n).1 = none ↔ ∀ c ∈ p.cells, c.used = false → c.size < need := by
  rw [allocate_none_iff, hneed]
  simp only [Option.some.injEq, forall_eq']
  refine forall₂_congr fun c _ => ?_
  cases c.used <;> simp

/-- **A scanning heap serves a request from the lowest fit**, if there is one. -/
theorem served_scan (ht : Tiled a (Strategy.scan.minBlock a) lo p.cells hi)
    (hneed : a.blockSize? (Strategy.scan.minPayload a) n = some need) :
    ServedByScan r need p.cells (p.allocate r .scan n).1 (p.allocate r .scan n).2.cells where
  refused_iff := allocate_scan_eq_none_iff hneed
  unchanged := fun hnone => congrArg Plan.cells (allocate_none hnone)
  served := fun _ hnew => allocate_scan_eq_some ht hneed hnew

/-! ## 3. Change of size -/

/-- What is answered to a change of size of the cell `c` in use between `front` and `back`, to a block
    of `need` bytes, where an allocation would be answered with `elsewhere?` and lead to the cells
    `mid`; and the cells that it leads to. -/
structure ResizedByScan (r : Region a) (need : Nat) (front : List Cell) (c : Cell) (back : List Cell)
    (elsewhere? : Option Nat) (mid : List Cell) (new? : Option Nat) (cells : List Cell) : Prop where
  /-- The address stays the same exactly if the cell has the bytes. -/
  stays_iff : new? = some (c.payload r) ↔ need ≤ c.size
  /-- What stays in place is cut, and nothing is merged. -/
  cuts : need ≤ c.size → cells = front ++ c.cut a need ++ back
  /-- Otherwise the answer is that of an allocation. -/
  elsewhere : c.size < need → new? = elsewhere?
  /-- What is refused leaves all cells as they are. -/
  unchanged : new? = none → cells = front ++ c :: back
  /-- After a move the cells are those that the allocation leads to, with the old one free. -/
  vacates : c.size < need → new? ≠ none → ∃ front' back', mid = front' ++ c :: back' ∧
    cells = front' ++ { c with used := false } :: back'

/-- A cell that has the bytes is cut. -/
theorem resize_scan_of_le (hf : p.live? r addr = some ⟨front, c, back⟩)
    (hneed : a.blockSize? (Strategy.scan.minPayload a) n = some need) (hle : need ≤ c.size) :
    p.resize r .scan (some addr) n = (some addr, ⟨front ++ c.cut a need ++ back, p.order⟩) := by
  rw [resize, if_neg (Alignment.ne_zero_of_blockSize? hneed), hf, hneed]
  show p.refit r .scan addr need ⟨front, c, back⟩ = _
  rw [refit, if_pos hle, splitTail_scan]

/-- A cell that does not have the bytes is moved to where they are. -/
theorem resize_scan_of_lt (hf : p.live? r addr = some ⟨front, c, back⟩)
    (hneed : a.blockSize? (Strategy.scan.minPayload a) n = some need) (hlt : c.size < need) :
    p.resize r .scan (some addr) n = p.relocate r .scan addr need := by
  rw [resize, if_neg (Alignment.ne_zero_of_blockSize? hneed), hf, hneed]
  show p.refit r .scan addr need ⟨front, c, back⟩ = _
  rw [refit, if_neg (Nat.not_le.mpr hlt)]
  rfl

/-- A move is an allocation, and the release of what has moved if that has succeeded. -/
theorem relocate_eq_allocate {s : Strategy} (hneed : a.blockSize? (s.minPayload a) n = some need) :
    p.relocate r s addr need = ((p.allocate r s n).1,
      if (p.allocate r s n).1 = none then p else (p.allocate r s n).2.release r s addr) := by
  rw [relocate, allocate, hneed, Option.bind_some]
  cases p.carve? a s need with
  | none => rfl
  | some x => rfl

/-- The release of a cell in a scanning heap clears its flag. -/
theorem release_scan (hf : p.live? r addr = some ⟨front, c, back⟩) :
    p.release r .scan addr = ⟨front ++ { c with used := false } :: back, p.order⟩ := by
  rw [release, hf]
  rfl

/-- **A change of size in a scanning heap is decided by the size of the block.** -/
theorem resized_scan (ht : Tiled a (Strategy.scan.minBlock a) 0 p.cells r.size)
    (hs : p.Settled .scan) (hf : p.live? r addr = some ⟨front, c, back⟩)
    (hneed : a.blockSize? (Strategy.scan.minPayload a) n = some need) :
    ResizedByScan r need front c back (p.allocate r .scan n).1 (p.allocate r .scan n).2.cells
      (p.resize r .scan (some addr) n).1 (p.resize r .scan (some addr) n).2.cells := by
  obtain ⟨hcells, hused, rfl⟩ := live?_eq_some hf
  have hcells : p.cells = front ++ c :: back := hcells
  have hmem : c ∈ inUse p.cells := (live?_mem hf).1
  rcases Nat.lt_or_ge c.size need with hlt | hle
  · have hnot : ¬ need ≤ c.size := Nat.not_le.mpr hlt
    rw [resize_scan_of_lt hf hneed hlt, relocate_eq_allocate hneed]
    constructor
    case stays_iff =>
      refine iff_of_false (fun hnew => ?_) hnot
      obtain ⟨front', d, back', hcells', hfit, hpayload, -⟩ := allocate_scan_eq_some ht hneed hnew
      have hd : d ∈ p.cells := hcells' ▸ List.mem_append_right _ List.mem_cons_self
      exact payload_ne_of_free ht hmem hd hfit.free hpayload.symm
    case cuts => exact fun hle => absurd hle hnot
    case elsewhere => exact fun _ => rfl
    case unchanged =>
      intro hnone
      rw [if_pos hnone]
      exact hcells
    case vacates =>
      intro _ hsome
      rw [if_neg hsome]
      obtain ⟨new, hnew⟩ := Option.ne_none_iff_exists'.mp hsome
      obtain ⟨d, -, -, -, hinUse⟩ := allocate_places ht hs hnew
      have hc : c ∈ inUse (p.allocate r .scan n).2.cells :=
        (hinUse c).mpr (.inl (others_none.symm ▸ hmem))
      obtain ⟨⟨front', e, back'⟩, hf', rfl⟩ := exists_live? (tiled_allocate ht hs) hc
      refine ⟨front', back', (live?_eq_some hf').1, ?_⟩
      rw [release_scan hf']
  · have hnot : ¬ c.size < need := Nat.not_lt.mpr hle
    rw [resize_scan_of_le hf hneed hle]
    exact
      { stays_iff := iff_of_true rfl hle
        cuts := fun _ => rfl
        elsewhere := fun hlt => absurd hlt hnot
        unchanged := fun hnone => absurd hnone (Option.some_ne_none _)
        vacates := fun hlt _ => absurd hlt hnot }

end Plan

end RegionHeap
