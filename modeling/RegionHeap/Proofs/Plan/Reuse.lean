import RegionHeap.Proofs.Plan.FirstFit
import RegionHeap.Proofs.Plan.LowestFit

/-!
# Blocks are used again

A block that is given back lies where the next request of the same size is looked for. A scanning heap
comes to it again, since nothing below it suffices; a listing heap has it at the head of the list,
unless it became part of the free block in front of it.

* `Plan.promote` -- a block comes to the front of the list;
* `Plan.release_of_taken`, `Plan.allocate_promote` -- what a listing heap takes and gets back is merged
  with the rest that was cut off, heads the list, and is found there;
* `Plan.allocate_release_allocate` -- to allocate, to release and to allocate again is to allocate once;
* `Cell.TakesIn`, `Vacated.exists_merged` -- the free cell that a block has become part of;
* `Plan.reuse_iff` -- an allocation goes there exactly if it is the first fit.
-/

namespace RegionHeap

variable {a : Alignment} {r : Region a} {s : Strategy} {c d : Cell} {front back : List Cell}
  {order : List Nat} {min lo hi need n new : Nat} {p p' : Plan}

namespace Plan

/-! ## 1. Single requests -/

/-- A request that succeeds is one for a block that a word can say the size of. -/
theorem exists_need (h : (p.allocate r s n).1 = some new) :
    ∃ need, a.blockSize? (s.minPayload a) n = some need := by
  cases hneed : a.blockSize? (s.minPayload a) n with
  | some need => exact ⟨need, rfl⟩
  | none =>
    rw [allocate, hneed] at h
    cases h

/-- A request is refused exactly if all free cells are too small. -/
theorem allocate_eq_none_iff (ht : Tiled a (s.minBlock a) lo p.cells hi) (hs : p.Settled s)
    (hneed : a.blockSize? (s.minPayload a) n = some need) :
    (p.allocate r s n).1 = none ↔ ∀ c ∈ p.cells, c.used = false → c.size < need := by
  cases s with
  | scan => exact allocate_scan_eq_none_iff hneed
  | list => exact allocate_list_eq_none_iff ht hs hneed

/-- The release of a cell in use frees it. -/
theorem release_append_cons (ht : Tiled a (s.minBlock a) 0 (front ++ c :: back) r.size)
    (hused : c.used = true) :
    release r s (c.payload r) ⟨front ++ c :: back, order⟩ = free s ⟨front, c, back⟩ order := by
  have hmem : c ∈ front ++ c :: back := List.mem_append_right _ List.mem_cons_self
  have hoff : r.offsetOf? (c.payload r) = some c.offset :=
    Region.offsetOf?_eq_some_iff.mpr ⟨ht.isHeaderOffset hmem, rfl⟩
  have hlive : live? r (c.payload r) ⟨front ++ c :: back, order⟩ = some ⟨front, c, back⟩ := by
    rw [live?, hoff, Option.bind_some, focus?_append_cons ht s.minBlock_pos]
    exact Option.filter_some_pos hused
  rw [release, hlive]

/-! ## 2. Listing heaps -/

/-- The plan in which the block at an offset has come to the front of the list. -/
def promote (off : Nat) (p : Plan) : Plan :=
  ⟨p.cells, off :: p.order.erase off⟩

/-- **What was taken from a free cell is given back**: the cell is whole again and heads the list. -/
theorem release_of_taken (h : Taken a need c front back order p')
    (ht : Tiled a (Strategy.list.minBlock a) 0 p'.cells r.size) (hfree : c.used = false)
    (hfront : ClosedFront front) (hback : ClosedBack back) (hpos : 0 < need)
    (hfits : need ≤ c.size) :
    p'.release r .list (c.payload r) = promote c.offset ⟨front ++ c :: back, order⟩ := by
  have hcell : (⟨c.offset, c.size, false⟩ : Cell) = c := by rw [← hfree]
  cases h with
  | whole hrest =>
    calc release r .list (c.payload r) ⟨front ++ ⟨c.offset, c.size, true⟩ :: back, order.erase c.offset⟩
        = free .list ⟨front, ⟨c.offset, c.size, true⟩, back⟩ (order.erase c.offset) :=
          release_append_cons ht rfl
      _ = put .list front ⟨c.offset, c.size, false⟩ back (c.offset :: order.erase c.offset) :=
          free_list_of_closed hfront
      _ = promote c.offset ⟨front ++ c :: back, order⟩ := by
          rw [put_list_of_closed hback, hcell]
          rfl
  | split hrest =>
    -- the rest was listed first; it is merged again and leaves the list
    have hsize : need + (c.size - need) = c.size := Nat.add_sub_of_le hfits
    have hne : c.offset ≠ c.offset + need := by omega
    calc release r .list (c.payload r) ⟨front ++ ⟨c.offset, need, true⟩ ::
            ⟨c.offset + need, c.size - need, false⟩ :: back, (c.offset + need) :: order.erase c.offset⟩
        = free .list ⟨front, ⟨c.offset, need, true⟩,
            ⟨c.offset + need, c.size - need, false⟩ :: back⟩ _ := release_append_cons ht rfl
      _ = put .list front ⟨c.offset, need, false⟩ (⟨c.offset + need, c.size - need, false⟩ :: back)
            (c.offset :: (c.offset + need) :: order.erase c.offset) := free_list_of_closed hfront
      _ = promote c.offset ⟨front ++ c :: back, order⟩ := by
          rw [put_list_of_free rfl, List.erase_cons_tail (by simpa using hne), List.erase_cons_head,
            hsize, hcell]
          rfl

/-- The first fit serves a request from wherever it is in the list, and so from the front. -/
theorem allocate_promote (ht : Tiled a (Strategy.list.minBlock a) lo p.cells hi)
    (hneed : a.blockSize? (Strategy.list.minPayload a) n = some need) (h : p.FirstFit need c) :
    (p.promote c.offset).allocate r .list n = p.allocate r .list n := by
  obtain ⟨front, back, hcells⟩ := List.append_of_mem h.mem
  have hhead : (p.promote c.offset).FirstFit need c := firstFit_of_head h.mem h.free h.fits rfl
  rw [allocate_of_firstFit ht hneed hcells h,
    allocate_of_firstFit (p := p.promote c.offset) ht hneed hcells hhead, promote,
    List.erase_cons_head]

/-- **What a listing heap allocates and gets back** heads the list, and the layout is as it was. The
    next allocation leads to where the first one did. -/
theorem allocate_release_list (ht : Tiled a (Strategy.list.minBlock a) 0 p.cells r.size)
    (hs : p.Settled .list) (h : (p.allocate r .list n).1 = some new) :
    ∃ off ∈ p.order, new = r.base + off + a.bytes ∧
      (p.allocate r .list n).2.release r .list new = p.promote off ∧
      (p.promote off).allocate r .list n = p.allocate r .list n := by
  obtain ⟨need, hneed⟩ := exists_need h
  obtain ⟨front, c, back, hcells, hfit, rfl, htaken⟩ := allocate_list_eq_some ht hs hneed h
  have hsep : Separated (front ++ c :: back) := hcells ▸ hs.1
  obtain ⟨⟨-, hfront⟩, -, hback⟩ := (separated_middle_of_free hfit.free).mp hsep
  have hpos : 0 < need := Nat.lt_of_lt_of_le Strategy.list.minBlock_pos
    (Strategy.blockSize?_spec hneed).minBlock_le
  refine ⟨c.offset, hs.mem_order hfit.mem hfit.free, rfl, ?_, allocate_promote ht hneed hfit⟩
  rw [release_of_taken htaken (tiled_allocate ht hs) hfit.free hfront hback hpos hfit.fits, promote,
    ← hcells]
  rfl

/-! ## 3. Scanning heaps -/

/-- **What a scanning heap allocates and gets back** is found again: no free cell in front of it has the
    bytes, and it has no more than it needs. -/
theorem allocate_release_scan (ht : Tiled a (Strategy.scan.minBlock a) 0 p.cells r.size)
    (hs : p.Settled .scan) (h : (p.allocate r .scan n).1 = some new) :
    ((p.allocate r .scan n).2.release r .scan new).allocate r .scan n = p.allocate r .scan n := by
  obtain ⟨need, hneed⟩ := exists_need h
  obtain ⟨front, c, back, hcells, hfit, rfl, -⟩ := allocate_scan_eq_some ht hneed h
  have horder : p.order = [] := hs
  obtain ⟨rest, hcut⟩ := c.exists_cut (a := a) need
  have halloc : p.allocate r .scan n = (some (c.payload r),
      ⟨front ++ ⟨c.offset, keptSize a .scan need c.size, true⟩ :: (rest ++ back), []⟩) := by
    rw [allocate_of_lowestFit ht hneed hcells hfit, hcut, horder, List.append_assoc]
    rfl
  have ht' := tiled_allocate (n := n) ht hs
  rw [halloc] at ht' ⊢
  have hrelease : release r .scan (c.payload r)
      ⟨front ++ ⟨c.offset, keptSize a .scan need c.size, true⟩ :: (rest ++ back), []⟩ =
        ⟨front ++ ⟨c.offset, keptSize a .scan need c.size, false⟩ :: (rest ++ back), []⟩ :=
    release_append_cons ht' rfl
  have hkept : Strategy.scan.Snug a need (keptSize a .scan need c.size) := snug_keptSize hfit.fits
  have hagain : LowestFit need front ⟨c.offset, keptSize a .scan need c.size, false⟩ :=
    ⟨rfl, hkept.le, hfit.lowest⟩
  rw [hrelease, allocate_of_lowestFit (ht'.flag false) hneed rfl hagain, Cell.cut_of_snug hkept,
    List.append_assoc]
  rfl

/-! ## 4. Both -/

/-- **To allocate, to release and to allocate again is to allocate once.** -/
theorem allocate_release_allocate (ht : Tiled a (s.minBlock a) 0 p.cells r.size) (hs : p.Settled s)
    (h : (p.allocate r s n).1 = some new) :
    ((p.allocate r s n).2.release r s new).allocate r s n = p.allocate r s n := by
  cases s with
  | scan => exact allocate_release_scan ht hs h
  | list =>
    obtain ⟨off, -, -, hrelease, hagain⟩ := allocate_release_list ht hs h
    rw [hrelease, hagain]

end Plan

/-! ## 5. The block that a released one becomes part of -/

/-- The free cell has all bytes of another one. -/
structure Cell.TakesIn (d c : Cell) : Prop where
  free : d.used = false
  offset_le : d.offset ≤ c.offset
  next_le : c.next ≤ d.next

theorem Cell.TakesIn.size_le (h : d.TakesIn c) : c.size ≤ d.size := by
  have h1 := h.offset_le
  have h2 := h.next_le
  unfold Cell.next at h2
  omega

/-- A cell takes in the one behind it, and more. -/
theorem Cell.takesIn_of_next (k : Nat) (h : d.next = c.offset) :
    (⟨d.offset, d.size + c.size + k, false⟩ : Cell).TakesIn c where
  free := rfl
  offset_le := h ▸ Nat.le_add_right _ _
  next_le := by
    unfold Cell.next at h ⊢
    show c.offset + c.size ≤ d.offset + (d.size + c.size + k)
    omega

namespace Plan

/-- Cells that end with a free one are not closed. -/
theorem not_closedFront (hd : d.used = false) : ¬ ClosedFront (front ++ [d]) := by
  intro hclosed
  exact nomatch hd.symm.trans (hclosed d List.getLast?_concat)

/-- **A cell that was given back is part of a free cell.** Without a free cell in front, that one has
    its offset and heads the list. -/
theorem Vacated.exists_merged (h : Vacated c front back order p')
    (ht : Tiled a min lo (front ++ c :: back) hi) :
    ∃ d ∈ p'.cells, d.TakesIn c ∧
      (ClosedFront front → d.offset = c.offset ∧ ∃ order', p'.order = c.offset :: order') := by
  have hfront := (tiled_middle.mp ht).1
  cases h with
  | @both front back left right order hleft hright =>
    have hnext : left.next = c.offset := (tiled_middle.mp hfront).2.2.2
    exact ⟨_, List.mem_append_right _ List.mem_cons_self, Cell.takesIn_of_next right.size hnext,
      fun hclosed => absurd hclosed (not_closedFront hleft)⟩
  | @left front back left order hleft hback =>
    have hnext : left.next = c.offset := (tiled_middle.mp hfront).2.2.2
    exact ⟨_, List.mem_append_right _ List.mem_cons_self, Cell.takesIn_of_next 0 hnext,
      fun hclosed => absurd hclosed (not_closedFront hleft)⟩
  | @right front back right order hclosed hright =>
    refine ⟨_, List.mem_append_right _ List.mem_cons_self, ⟨rfl, Nat.le_refl _, ?_⟩,
      fun _ => ⟨rfl, _, rfl⟩⟩
    show c.offset + c.size ≤ c.offset + (c.size + right.size)
    omega
  | neither hclosed hback =>
    exact ⟨_, List.mem_append_right _ List.mem_cons_self, ⟨rfl, Nat.le_refl _, Nat.le_refl _⟩,
      fun _ => ⟨rfl, _, rfl⟩⟩

/-- A cell covers its payload. -/
theorem covers_payload (ht : Tiled a (s.minBlock a) lo p.cells hi) (hc : c ∈ p.cells) :
    c.Covers r.base (c.payload r) := by
  have hmin := (ht.bounds hc).min_le
  have hpayload := s.bytes_le_minPayload a
  have hpos := a.bytes_pos
  unfold Strategy.minBlock at hmin
  unfold Cell.Covers Cell.payload Cell.next
  omega

/-- **A request that a free cell has room for is served**, and from this cell exactly if it is the first
    fit. -/
theorem reuse_iff (ht : Tiled a (Strategy.list.minBlock a) lo p.cells hi) (hs : p.Settled .list)
    (hneed : a.blockSize? (Strategy.list.minPayload a) n = some need) (hd : d ∈ p.cells)
    (hfree : d.used = false) (hfits : need ≤ d.size) :
    ∃ new e, (p.allocate r .list n).1 = some new ∧ p.FirstFit need e ∧ new = e.payload r ∧
      (d.Covers r.base new ↔ p.FirstFit need d) := by
  cases hnew : (p.allocate r .list n).1 with
  | none =>
    have hsmall := (allocate_list_eq_none_iff ht hs hneed).mp hnew d hd hfree
    exact absurd hfits (Nat.not_le.mpr hsmall)
  | some new =>
    obtain ⟨_, e, _, -, hfit, rfl, -⟩ := allocate_list_eq_some ht hs hneed hnew
    refine ⟨_, e, rfl, hfit, rfl, fun hcovers => ?_, fun hfirst => ?_⟩
    · rwa [ht.eq_of_covers hd hfit.mem hcovers (covers_payload ht hfit.mem)]
    · rw [← FirstFit.unique ht hfirst hfit]
      exact covers_payload ht hd

end Plan

end RegionHeap
