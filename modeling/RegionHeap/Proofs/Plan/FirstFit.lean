import RegionHeap.Proofs.Plan.Vacating

/-!
# What an allocation makes of a listing heap

The search for a block knows the list only, and the list knows no addresses. Still an allocation
succeeds exactly if between two neighbouring allocations, or at an end of the region, there is a gap
with room enough: no two free blocks are neighbours, so each gap is one block, and it is listed.

* `gaps`, `exists_gap_iff` -- the gaps between the cells in use are the free cells;
* `Plan.FirstFit`, `Plan.fit?_of_firstFit`, `Plan.fit?_list_eq_none_iff` -- the search finds the first
  cell of the list that is large enough, and fails only if there is none;
* `Plan.Taken`, `Plan.carve?_list_eq_some` -- what the search finds is put into use;
* `Plan.allocate_list_eq_none_iff`, `Plan.allocate_list_eq_some` -- a request is refused or served.
-/

namespace RegionHeap

variable {a : Alignment} {c d : Cell} {cs front back : List Cell} {order : List Nat}
  {min lo hi need off n new : Nat} {p p' : Plan} {f : Focus} {r : Region a}

/-! ## 1. Gaps -/

/-- The lengths of the gaps that some cells leave between `lo` and `hi`. -/
def gaps : (lo : Nat) → List Cell → (hi : Nat) → List Nat
  | lo, [], hi => [hi - lo]
  | lo, c :: cs, hi => (c.offset - lo) :: gaps c.next cs hi

theorem exists_mem_gaps_cons : (∃ g ∈ gaps lo (c :: cs) hi, need ≤ g) ↔
    need ≤ c.offset - lo ∨ ∃ g ∈ gaps c.next cs hi, need ≤ g := by
  rw [gaps, List.exists_mem_cons_iff]

/-- A cell in use leaves no gap at the place where it begins. -/
theorem exists_gap_at (hc : c.offset = lo) (hneed : 0 < need) :
    (∃ g ∈ gaps lo (c :: cs) hi, need ≤ g) ↔ ∃ g ∈ gaps c.next cs hi, need ≤ g := by
  rw [exists_mem_gaps_cons]
  exact or_iff_right (by omega)

/-- A free cell in front of cells in use is a gap. -/
theorem exists_gap_cons_of_free (ht : Tiled a min lo (c :: cs) hi) (hcs : Plan.ClosedBack cs)
    (hneed : 0 < need) : (∃ g ∈ gaps lo (inUse cs) hi, need ≤ g) ↔
      need ≤ c.size ∨ ∃ g ∈ gaps c.next (inUse cs) hi, need ≤ g := by
  obtain ⟨rfl, -, -, hcs'⟩ := ht
  cases cs with
  | nil =>
    have hend : c.next = hi := hcs'
    rw [inUse_nil, ← hend]
    simp only [gaps, List.mem_singleton, exists_eq_left]
    unfold Cell.next
    omega
  | cons d cs =>
    have hd : d.used = true := hcs d rfl
    have ho : d.offset = c.next := hcs'.1
    rw [inUse_cons_of_used hd, exists_mem_gaps_cons, exists_gap_at ho hneed, ho]
    unfold Cell.next
    rw [Nat.add_sub_cancel_left]

/-- **The gaps between the cells in use are the free cells**, if no two of those are neighbours. -/
theorem exists_gap_iff (ht : Tiled a min lo cs hi) (hsep : Separated cs) (hneed : 0 < need) :
    (∃ g ∈ gaps lo (inUse cs) hi, need ≤ g) ↔ ∃ c ∈ cs, c.used = false ∧ need ≤ c.size := by
  induction cs generalizing lo with
  | nil =>
    obtain rfl : lo = hi := ht
    simp only [inUse_nil, gaps, List.mem_singleton, exists_eq_left, List.not_mem_nil, false_and,
      exists_false, iff_false]
    omega
  | cons c cs ih =>
    have ⟨ho, _, _, hcs⟩ := ht
    have ih := ih hcs (separated_cons.mp hsep).2
    rw [List.exists_mem_cons_iff]
    cases hc : c.used with
    | true =>
      rw [inUse_cons_of_used hc, exists_gap_at ho hneed, ih]
      simp
    | false =>
      have hclosed : Plan.ClosedBack cs := ((separated_cons_of_free hc).mp hsep).2
      rw [inUse_cons_of_free hc, exists_gap_cons_of_free ht hclosed hneed, ih]
      simp

/-- Two allocations in a region of 128 bytes leave three gaps, one of them empty. -/
example : gaps 0 [⟨24, 32, true⟩, ⟨56, 24, true⟩] 128 = [24, 0, 48] := by decide

namespace Plan

/-! ## 2. The first fit -/

/-- Of the free cells, in the order of the list, `c` is the first that has `need` bytes. -/
structure FirstFit (p : Plan) (need : Nat) (c : Cell) : Prop where
  mem : c ∈ p.cells
  free : c.used = false
  fits : need ≤ c.size
  first : ∃ before behind, p.order = before ++ c.offset :: behind ∧
    ∀ d ∈ p.cells, d.offset ∈ before → d.size < need

/-- The search of a listing heap finds the first fit. -/
theorem firstFit_of_fit? (ht : Tiled a (Strategy.list.minBlock a) lo p.cells hi)
    (hs : p.Settled .list) (h : p.fit? .list need = some f) : p.FirstFit need f.cell := by
  obtain ⟨hcells, hfree, hfits⟩ := fit?_eq_some (fun _ => hs.mem_vacant) ht h
  obtain ⟨x, hx, hf⟩ := Option.bind_eq_some_iff.mp h
  obtain ⟨-, rfl⟩ := eq_of_focus? hf
  obtain ⟨-, before, behind, horder, hbefore⟩ := List.find?_eq_some_iff_append.mp hx
  refine ⟨?_, hfree, hfits, before, behind, horder, fun d hd hmem => ?_⟩
  · rw [hcells]
    exact List.mem_append_right _ List.mem_cons_self
  · obtain ⟨g, hg, rfl⟩ := exists_focus? ht Strategy.list.minBlock_pos hd
    have hnot := hbefore _ hmem
    rw [hg] at hnot
    simpa using hnot

/-- The first fit is what the search finds. -/
theorem fit?_of_firstFit (ht : Tiled a (Strategy.list.minBlock a) lo p.cells hi)
    (hcells : p.cells = front ++ c :: back) (h : p.FirstFit need c) :
    p.fit? .list need = some ⟨front, c, back⟩ := by
  have hfocus : focus? c.offset p.cells = some ⟨front, c, back⟩ := by
    rw [hcells] at ht ⊢
    exact focus?_append_cons ht Strategy.list.minBlock_pos
  obtain ⟨before, behind, horder, hbefore⟩ := h.first
  have hfind : (p.order.find? fun x =>
      (focus? x p.cells).any fun f => decide (need ≤ f.cell.size)) = some c.offset := by
    refine List.find?_eq_some_iff_append.mpr ⟨?_, before, behind, horder, fun x hx => ?_⟩
    · simpa [hfocus] using h.fits
    · cases hf : focus? x p.cells with
      | none => rfl
      | some g =>
        obtain ⟨hg, rfl⟩ := eq_of_focus? hf
        have hmem : g.cell ∈ p.cells := hg ▸ List.mem_append_right _ List.mem_cons_self
        simpa using hbefore g.cell hmem hx
  rw [fit?, hfind, Option.bind_some, hfocus]

/-- There is no more than one first fit. -/
theorem FirstFit.unique (ht : Tiled a (Strategy.list.minBlock a) lo p.cells hi)
    (h : p.FirstFit need c) (h' : p.FirstFit need d) : c = d := by
  obtain ⟨front, back, hc⟩ := List.append_of_mem h.mem
  obtain ⟨front', back', hd⟩ := List.append_of_mem h'.mem
  have hfit := (fit?_of_firstFit ht hc h).symm.trans (fit?_of_firstFit ht hd h')
  exact congrArg Focus.cell (Option.some.inj hfit)

/-- The head of the list is the first fit if it is large enough. -/
theorem firstFit_of_head (hc : c ∈ p.cells) (hfree : c.used = false) (hfits : need ≤ c.size)
    (horder : p.order = c.offset :: order) : p.FirstFit need c :=
  ⟨hc, hfree, hfits, [], order, horder, fun _ _ hmem => nomatch hmem⟩

/-- **The search of a listing heap fails only if no free cell is large enough.** -/
theorem fit?_list_eq_none_iff (ht : Tiled a (Strategy.list.minBlock a) lo p.cells hi)
    (hs : p.Settled .list) :
    p.fit? .list need = none ↔ ∀ c ∈ p.cells, c.used = false → c.size < need := by
  constructor
  · intro h c hc hfree
    by_contra hge
    obtain ⟨f, hf, rfl⟩ := exists_focus? ht Strategy.list.minBlock_pos hc
    have hfound : (p.order.find? fun x =>
        (focus? x p.cells).any fun f => decide (need ≤ f.cell.size)).isSome := by
      refine List.find?_isSome.mpr ⟨f.cell.offset, hs.mem_order hc hfree, ?_⟩
      rw [hf]
      simpa using hge
    -- what is found has a cell, or it would not have been found
    obtain ⟨x, hx⟩ := Option.isSome_iff_exists.mp hfound
    have hx' := List.find?_some hx
    rw [Option.bind_eq_none_iff.mp h x hx] at hx'
    cases hx'
  · intro h
    refine Option.eq_none_iff_forall_ne_some.mpr fun f hf => ?_
    have hfit := firstFit_of_fit? ht hs hf
    exact absurd hfit.fits (Nat.not_le.mpr (h _ hfit.mem hfit.free))

/-! ## 3. The block that is taken -/

/-- The plan after `need` bytes of the free cell `c` between `front` and `back` came into use. -/
inductive Taken (a : Alignment) (need : Nat) (c : Cell) (front back : List Cell)
    (order : List Nat) : Plan → Prop where
  /-- The rest is no block: the whole cell is in use and leaves the list. -/
  | whole (hrest : c.size - need < Strategy.list.minBlock a) :
      Taken a need c front back order
        ⟨front ++ ⟨c.offset, c.size, true⟩ :: back, order.erase c.offset⟩
  /-- The rest is a free block: it is listed first. -/
  | split (hrest : Strategy.list.minBlock a ≤ c.size - need) :
      Taken a need c front back order
        ⟨front ++ ⟨c.offset, need, true⟩ :: ⟨c.offset + need, c.size - need, false⟩ :: back,
          (c.offset + need) :: order.erase c.offset⟩

/-- A split whose rest is no block puts the whole cell into use. -/
theorem splitTail_of_lt {s : Strategy} (h : c.size - need < s.minBlock a) :
    splitTail a s need ⟨front, c, back⟩ order = ⟨front ++ { c with used := true } :: back, order⟩ :=
  if_pos h

/-- A split whose rest is a block, with no free cell behind, leaves that block behind. -/
theorem splitTail_of_closed (h : Strategy.list.minBlock a ≤ c.size - need)
    (hback : ClosedBack back) : splitTail a .list need ⟨front, c, back⟩ order =
      ⟨front ++ ⟨c.offset, need, true⟩ :: ⟨c.offset + need, c.size - need, false⟩ :: back,
        (c.offset + need) :: order⟩ := by
  rw [splitTail, if_neg (Nat.not_lt.mpr h), put_list_of_closed hback, List.append_assoc]
  rfl

/-- **What is carved of a listing heap is taken from the first fit.** -/
theorem carve?_list_eq_some (ht : Tiled a (Strategy.list.minBlock a) lo p.cells hi)
    (hs : p.Settled .list) (h : p.carve? a .list need = some (off, p')) :
    ∃ front c back, p.cells = front ++ c :: back ∧ off = c.offset ∧ p.FirstFit need c ∧
      Taken a need c front back p.order p' := by
  obtain ⟨⟨front, c, back⟩, hf, hcells, hfree, -, rfl, rfl⟩ :=
    carve?_eq_some (fun _ => hs.mem_vacant) ht h
  refine ⟨front, c, back, hcells, rfl, firstFit_of_fit? ht hs hf, ?_⟩
  rcases Nat.lt_or_ge (c.size - need) (Strategy.list.minBlock a) with hrest | hrest
  · rw [splitTail_of_lt hrest]
    exact .whole hrest
  · -- the cell behind a free one is in use
    have hsep : Separated (front ++ c :: back) := hcells ▸ hs.1
    have hback : ClosedBack back := ((separated_middle_of_free hfree).mp hsep).2.2
    rw [splitTail_of_closed hrest hback]
    exact .split hrest

/-! ## 4. Allocation -/

/-- A listing heap refuses a request only if no free cell is large enough. -/
theorem allocate_list_eq_none_iff (ht : Tiled a (Strategy.list.minBlock a) lo p.cells hi)
    (hs : p.Settled .list) (hneed : a.blockSize? (Strategy.list.minPayload a) n = some need) :
    (p.allocate r .list n).1 = none ↔ ∀ c ∈ p.cells, c.used = false → c.size < need := by
  rw [← fit?_list_eq_none_iff ht hs, allocate, hneed, Option.bind_some, carve?]
  cases p.fit? .list need <;> simp

/-- Of the first fit, what is needed is cut off. -/
theorem allocate_of_firstFit (ht : Tiled a (Strategy.list.minBlock a) lo p.cells hi)
    (hneed : a.blockSize? (Strategy.list.minPayload a) n = some need)
    (hcells : p.cells = front ++ c :: back) (h : p.FirstFit need c) :
    p.allocate r .list n = (some (c.payload r),
      splitTail a .list need ⟨front, c, back⟩ (p.order.erase c.offset)) := by
  rw [allocate, hneed, Option.bind_some, carve?, fit?_of_firstFit ht hcells h]
  rfl

/-- **A listing heap serves a request from the first fit.** -/
theorem allocate_list_eq_some (ht : Tiled a (Strategy.list.minBlock a) lo p.cells hi)
    (hs : p.Settled .list) (hneed : a.blockSize? (Strategy.list.minPayload a) n = some need)
    (h : (p.allocate r .list n).1 = some new) :
    ∃ front c back, p.cells = front ++ c :: back ∧ p.FirstFit need c ∧ new = c.payload r ∧
      Taken a need c front back p.order (p.allocate r .list n).2 := by
  rw [allocate, hneed, Option.bind_some] at h ⊢
  cases hcarve : p.carve? a .list need with
  | none =>
    rw [hcarve] at h
    cases h
  | some x =>
    obtain ⟨off, p'⟩ := x
    rw [hcarve] at h
    cases h
    obtain ⟨front, c, back, hcells, rfl, hfit, htaken⟩ := carve?_list_eq_some ht hs hcarve
    exact ⟨front, c, back, hcells, hfit, rfl, htaken⟩

end Plan

end RegionHeap
