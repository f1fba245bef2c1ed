import RegionHeap.Proofs.Plan.Basic
import RegionHeap.Proofs.Request

/-!
# What the edits of a plan do

Clients notice of an edit what it does to the cells in use, the heap itself what it does to the free
ones and to the order of its list.

* `inUse_put`, `inUse_splitTail`, `inUse_free`, `inUse_grow?` -- the cells in use
  after an edit, for both strategies;
* `live?_eq_some`, `exists_live?` -- live addresses are the payloads of the cells in use;
* `Plan.Settled` -- between its operations a listing heap has no two free neighbours, and its list
  names each free cell once;
* `settled_free`, `settled_grow?`, `settled_carve` -- every edit leads from a settled plan to a
  settled one.
-/

namespace RegionHeap

namespace Plan

variable {a : Alignment} {s : Strategy} {c d left : Cell} {front back : List Cell} {f : Focus}
  {order : List Nat} {keep need off addr lo hi : Nat} {p p' : Plan} {r : Region a}

/-! ## 1. Cells in use after an edit -/

theorem inUse_merge (h : c.used = false) : inUse (merge c back) = inUse back := by
  cases back with
  | nil => exact inUse_cons_of_free h
  | cons d back =>
    rw [merge]
    cases hd : d.used with
    | true => exact inUse_cons_of_free h
    | false =>
      have hback : inUse (d :: back) = inUse back := inUse_cons_of_free hd
      rw [hback]
      exact inUse_cons_of_free h

/-- A free cell is nothing to the cells in use. -/
theorem inUse_put (h : c.used = false) :
    inUse (put s front c back order).cells = inUse front ++ inUse back := by
  cases s with
  | scan =>
    show inUse (front ++ c :: back) = _
    rw [inUse_append, inUse_cons_of_free h]
  | list =>
    show inUse (front ++ merge c back) = _
    rw [inUse_append, inUse_merge h]

/-- The size of a block of `size` bytes after it was cut down to `keep`. -/
def keptSize (a : Alignment) (s : Strategy) (keep size : Nat) : Nat :=
  if size - keep < s.minBlock a then size else keep

/-- What is kept is cut down to what was to be kept. -/
theorem snug_keptSize {size : Nat} (h : keep ≤ size) : s.Snug a keep (keptSize a s keep size) := by
  unfold keptSize
  split
  · exact ⟨h, by omega⟩
  · exact ⟨Nat.le_refl keep, Nat.lt_add_of_pos_right s.minBlock_pos⟩

/-- The cell in focus is in use after a split, with what it keeps. -/
theorem inUse_splitTail :
    inUse (splitTail a s keep f order).cells =
      inUse f.front ++ ⟨f.cell.offset, keptSize a s keep f.cell.size, true⟩ :: inUse f.back := by
  unfold splitTail keptSize
  split
  · show inUse (f.front ++ { f.cell with used := true } :: f.back) = _
    rw [inUse_append, inUse_cons_of_used rfl]
  · rw [inUse_put rfl, inUse_append, List.append_assoc, inUse_cons_of_used rfl, inUse_nil,
      List.singleton_append]

theorem leftFree?_eq_some (h : leftFree? s f = some left) :
    s = .list ∧ left.used = false ∧ f.front = f.front.dropLast ++ [left] := by
  cases s with
  | scan => cases h
  | list =>
    obtain ⟨h1, h2⟩ := Option.filter_eq_some_iff.mp h
    refine ⟨rfl, by simpa using h2, ?_⟩
    obtain ⟨init, hinit⟩ := List.getLast?_eq_some_iff.mp h1
    rw [hinit, List.dropLast_concat]

/-- The cell in focus is gone from the cells in use after it was freed. -/
theorem inUse_free : inUse (free s f order).cells = inUse f.front ++ inUse f.back := by
  unfold free
  split
  · rename_i left hl
    obtain ⟨-, hfree, hfront⟩ := leftFree?_eq_some hl
    have h1 : inUse f.front = inUse f.front.dropLast := by
      conv_lhs => rw [hfront]
      rw [inUse_append, inUse_cons_of_free hfree, inUse_nil, List.append_nil]
    rw [h1]
    exact inUse_put hfree
  · exact inUse_put rfl

/-- A block grows into the free cell behind it. -/
theorem grow?_eq_some (h : grow? a s need f order = some p') :
    s = .list ∧ ∃ d back, f.back = d :: back ∧ d.used = false ∧ need ≤ f.cell.size + d.size ∧
      p' = splitTail a .list need ⟨f.front, { f.cell with size := f.cell.size + d.size }, back⟩
        (order.erase d.offset) := by
  unfold grow? at h
  split at h
  · rename_i d back hback
    split at h
    · rename_i hd
      exact ⟨rfl, d, back, hback, hd.1, hd.2, (Option.some.inj h).symm⟩
    · cases h
  · cases h

/-- The cell in focus is cut down to the bytes asked for after it has grown. -/
theorem inUse_grow? (h : grow? a s need f order = some p') :
    ∃ size, s.Snug a need size ∧
      inUse p'.cells = inUse f.front ++ ⟨f.cell.offset, size, true⟩ :: inUse f.back := by
  obtain ⟨rfl, d, back, hback, hd, hneed, rfl⟩ := grow?_eq_some h
  refine ⟨keptSize a .list need (f.cell.size + d.size), snug_keptSize hneed, ?_⟩
  rw [inUse_splitTail, hback, inUse_cons_of_free hd]

/-- What serves a request is a free cell that is large enough, provided that the list names none but
    free cells. -/
theorem fit?_eq_some (hlist : ∀ x ∈ p.order, x ∈ vacant p.cells)
    (ht : Tiled a (s.minBlock a) lo p.cells hi) (h : p.fit? s need = some f) :
    p.cells = f.front ++ f.cell :: f.back ∧ f.cell.used = false ∧ need ≤ f.cell.size := by
  cases s with
  | scan =>
    obtain ⟨c, hc, hf⟩ := Option.bind_eq_some_iff.mp h
    obtain ⟨hcells, ho⟩ := eq_of_focus? hf
    have hmem := List.mem_of_find?_eq_some hc
    have hfit := List.find?_some hc
    have hfc : f.cell = c := by
      refine ht.eq_of_offset Strategy.scan.minBlock_pos ?_ hmem ho
      rw [hcells]
      exact List.mem_append_right _ List.mem_cons_self
    simp only [Bool.and_eq_true, Bool.not_eq_true', decide_eq_true_eq] at hfit
    rw [hfc]
    exact ⟨hfc ▸ hcells, hfit⟩
  | list =>
    obtain ⟨x, hx, hf⟩ := Option.bind_eq_some_iff.mp h
    obtain ⟨hcells, rfl⟩ := eq_of_focus? hf
    have hfit := List.find?_some hx
    rw [hf] at hfit
    obtain ⟨c, hc, hfree, ho⟩ := mem_vacant.mp (hlist _ (List.mem_of_find?_eq_some hx))
    have hfc : f.cell = c := by
      refine ht.eq_of_offset Strategy.list.minBlock_pos ?_ hc ho.symm
      rw [hcells]
      exact List.mem_append_right _ List.mem_cons_self
    refine ⟨hcells, hfc ▸ hfree, ?_⟩
    simpa using hfit

/-- A carved block was free before, and has the bytes asked for. -/
theorem carve?_eq_some (hlist : ∀ x ∈ p.order, x ∈ vacant p.cells)
    (ht : Tiled a (s.minBlock a) lo p.cells hi) (h : p.carve? a s need = some (off, p')) :
    ∃ f, p.fit? s need = some f ∧ p.cells = f.front ++ f.cell :: f.back ∧ f.cell.used = false ∧
      need ≤ f.cell.size ∧ off = f.cell.offset ∧
      p' = splitTail a s need f (p.order.erase f.cell.offset) := by
  obtain ⟨f, hf, e⟩ := Option.map_eq_some_iff.mp h
  cases e
  obtain ⟨h1, h2, h3⟩ := fit?_eq_some hlist ht hf
  exact ⟨f, hf, h1, h2, h3, rfl, rfl⟩

/-- No block is carved of a scanning heap if no cell is found. -/
theorem carve?_eq_none_iff_find? : p.carve? a .scan need = none ↔
    p.cells.find? (fun c => !c.used && decide (need ≤ c.size)) = none := by
  rw [carve?, Option.map_eq_none_iff, fit?, Option.bind_eq_none_iff]
  constructor
  · intro h
    refine Option.eq_none_iff_forall_ne_some.mpr fun c hc => ?_
    exact focus?_eq_none_iff.mp (h c hc) c (List.mem_of_find?_eq_some hc) rfl
  · intro h c hc
    rw [h] at hc
    cases hc

/-! ## 2. Live addresses -/

/-- A live address is the payload of a cell in use. -/
theorem live?_eq_some (h : p.live? r addr = some f) :
    p.cells = f.front ++ f.cell :: f.back ∧ f.cell.used = true ∧ addr = f.cell.payload r := by
  obtain ⟨off, hoff, hf⟩ := Option.bind_eq_some_iff.mp h
  obtain ⟨hfocus, hused⟩ := Option.filter_eq_some_iff.mp hf
  obtain ⟨hcells, rfl⟩ := eq_of_focus? hfocus
  exact ⟨hcells, hused, (Region.offsetOf?_eq_some_iff.mp hoff).2⟩

/-- A live address is the payload of the cell in use that is found for it. -/
theorem live?_mem (h : p.live? r addr = some f) :
    f.cell ∈ inUse p.cells ∧ addr = f.cell.payload r := by
  obtain ⟨hcells, hused, haddr⟩ := live?_eq_some h
  rw [mem_inUse, hcells]
  exact ⟨⟨List.mem_append_right _ List.mem_cons_self, hused⟩, haddr⟩

/-- The payload of every cell in use is a live address. -/
theorem exists_live? (ht : Tiled a (s.minBlock a) 0 p.cells r.size) (hc : c ∈ inUse p.cells) :
    ∃ f, p.live? r (c.payload r) = some f ∧ f.cell = c := by
  obtain ⟨hc, hused⟩ := mem_inUse.mp hc
  obtain ⟨f, hf, rfl⟩ := exists_focus? ht s.minBlock_pos hc
  refine ⟨f, ?_, rfl⟩
  have hoff : r.offsetOf? (f.cell.payload r) = some f.cell.offset :=
    Region.offsetOf?_eq_some_iff.mpr ⟨ht.isHeaderOffset hc, rfl⟩
  rw [live?, hoff, Option.bind_some, hf]
  exact Option.filter_some_pos hused

/-- The cells in use that an operation on an address is not about. -/
def others (r : Region a) (addr? : Option Nat) (p : Plan) : List Cell :=
  (inUse p.cells).filter fun c => addr? ≠ some (c.payload r)

theorem mem_others {addr? : Option Nat} :
    c ∈ p.others r addr? ↔ c ∈ inUse p.cells ∧ addr? ≠ some (c.payload r) := by
  simp [others]

/-- All cells in use but the one at a live address lie in front of it or behind it. -/
theorem mem_sides_of_mem_others (h : p.live? r addr = some f) (hc : c ∈ p.others r (some addr)) :
    c ∈ inUse f.front ++ inUse f.back := by
  obtain ⟨hcells, hused, rfl⟩ := live?_eq_some h
  obtain ⟨hc, hne⟩ := mem_others.mp hc
  rw [hcells, inUse_append, inUse_cons_of_used hused] at hc
  rcases List.mem_append.mp hc with hc | hc
  · exact List.mem_append_left _ hc
  · rcases List.mem_cons.mp hc with rfl | hc
    · exact absurd rfl hne
    · exact List.mem_append_right _ hc

/-! ## 3. Settled plans -/

/-- Between operations, a scanning heap lists nothing; a listing heap has no two free neighbours,
    and lists each free cell once. -/
def Settled : Strategy → Plan → Prop
  | .scan, p => p.order = []
  | .list, p => Separated p.cells ∧ p.order.Perm (vacant p.cells)

theorem Settled.mem_vacant (h : p.Settled s) {x : Nat} (hx : x ∈ p.order) :
    x ∈ vacant p.cells := by
  cases s with
  | scan =>
    rw [show p.order = [] from h] at hx
    cases hx
  | list => exact h.2.subset hx

/-- A settled listing heap lists every free cell. -/
theorem Settled.mem_order (h : p.Settled .list) (hc : c ∈ p.cells) (hfree : c.used = false) :
    c.offset ∈ p.order := by
  rw [h.2.mem_iff]
  exact RegionHeap.mem_vacant.mpr ⟨c, hc, hfree, rfl⟩

/-- A free cell that is put into a settled listing heap, and listed, leaves it settled after it was
    merged with the cell behind. -/
theorem settled_put (hfront : Separated front) (hlast : ∀ d ∈ front.getLast?, d.used = true)
    (hback : Separated back) (hc : c.used = false)
    (horder : order.Perm (vacant front ++ c.offset :: vacant back)) :
    (put .list front c back order).Settled .list := by
  cases back with
  | nil =>
    refine ⟨(separated_middle_of_free hc).mpr ⟨⟨hfront, hlast⟩, hback, fun _ h => nomatch h⟩, ?_⟩
    show order.Perm (vacant (front ++ [c]))
    rwa [vacant_append, vacant_cons_of_free hc]
  | cons d back =>
    show Separated (front ++ merge c (d :: back)) ∧
      (unlist order (d :: back)).Perm (vacant (front ++ merge c (d :: back)))
    rw [merge, unlist]
    cases hd : d.used with
    | true =>
      rw [if_pos rfl, if_pos rfl]
      refine ⟨(separated_middle_of_free hc).mpr ⟨⟨hfront, hlast⟩, hback, fun e he => ?_⟩, ?_⟩
      · cases he
        exact hd
      · rwa [vacant_append, vacant_cons_of_free hc]
    | false =>
      rw [if_neg Bool.false_ne_true, if_neg Bool.false_ne_true]
      have hmerged : ({ c with size := c.size + d.size } : Cell).used = false := hc
      -- the cell behind `d` is in use, since `d` is free
      obtain ⟨hback', hnext⟩ := (separated_cons_of_free hd).mp hback
      refine ⟨(separated_middle_of_free hmerged).mpr ⟨⟨hfront, hlast⟩, hback', hnext⟩, ?_⟩
      rw [vacant_append, vacant_cons_of_free hmerged]
      rw [vacant_cons_of_free hd] at horder
      have hmove : (vacant front ++ c.offset :: d.offset :: vacant back).Perm
          (d.offset :: (vacant front ++ c.offset :: vacant back)) :=
        ((List.Perm.swap ..).append_left _).trans List.perm_middle
      have herase := (horder.trans hmove).erase d.offset
      rwa [List.erase_cons_head] at herase

/-- A split leaves a heap settled if it would be settled without. -/
theorem settled_splitTail
    (h : Settled s ⟨f.front ++ { f.cell with used := true } :: f.back, order⟩) :
    (splitTail a s keep f order).Settled s := by
  unfold splitTail
  split
  · exact h
  · cases s with
    | scan => exact h
    | list =>
      obtain ⟨hsep, hperm⟩ := h
      obtain ⟨hfront, hback⟩ := (separated_middle_of_used rfl).mp hsep
      refine settled_put ?_ (fun d hd => ?_) hback rfl ?_
      · exact (separated_middle_of_used rfl).mpr ⟨hfront, List.isChain_nil⟩
      · rw [List.getLast?_append, List.getLast?_singleton, Option.some_or] at hd
        cases hd
        rfl
      · rw [vacant_append, vacant_cons_of_used rfl] at hperm
        rw [vacant_append, vacant_cons_of_used rfl, vacant_nil, List.append_nil]
        exact (hperm.cons _).trans List.perm_middle.symm

/-- **A heap is settled again after a block was freed.** -/
theorem settled_free (hf : f.cell.used = true)
    (h : Settled s ⟨f.front ++ f.cell :: f.back, order⟩) : (free s f order).Settled s := by
  cases s with
  | scan => exact h
  | list =>
    obtain ⟨hsep, hperm⟩ := h
    obtain ⟨hfront, hback⟩ := (separated_middle_of_used hf).mp hsep
    rw [vacant_append, vacant_cons_of_used hf] at hperm
    unfold free
    split
    · rename_i left hl
      obtain ⟨-, hfree, hsplit⟩ := leftFree?_eq_some hl
      rw [hsplit] at hfront hperm
      obtain ⟨⟨hinit, hlast⟩, -⟩ := (separated_middle_of_free hfree).mp hfront
      refine settled_put hinit hlast hback hfree ?_
      rw [vacant_append, vacant_cons_of_free hfree, vacant_nil] at hperm
      simpa only [List.append_assoc, List.singleton_append] using hperm
    · rename_i hl
      refine settled_put hfront (fun d hd => ?_) hback rfl ?_
      · have h1 := Option.filter_eq_none_iff.mp hl d hd
        simpa using h1
      · exact (hperm.cons _).trans List.perm_middle.symm

/-- A heap is settled again after a block has grown. -/
theorem settled_grow? (hf : f.cell.used = true)
    (h : Settled s ⟨f.front ++ f.cell :: f.back, order⟩)
    (hg : grow? a s need f order = some p') : p'.Settled s := by
  obtain ⟨rfl, d, back, hback, hd, -, rfl⟩ := grow?_eq_some hg
  obtain ⟨hsep, hperm⟩ := h
  rw [hback] at hsep hperm
  obtain ⟨hfront, hback⟩ := (separated_middle_of_used hf).mp hsep
  have hback' := ((separated_cons_of_free hd).mp hback).1
  refine settled_splitTail ⟨(separated_middle_of_used rfl).mpr ⟨hfront, hback'⟩, ?_⟩
  rw [vacant_append, vacant_cons_of_used rfl]
  rw [vacant_append, vacant_cons_of_used hf, vacant_cons_of_free hd] at hperm
  have herase := (hperm.trans List.perm_middle).erase d.offset
  rwa [List.erase_cons_head] at herase

/-- A heap is settled again after a free cell was put into use. -/
theorem settled_carve (hf : f.cell.used = false)
    (h : Settled s ⟨f.front ++ f.cell :: f.back, order⟩) :
    (splitTail a s need f (order.erase f.cell.offset)).Settled s := by
  refine settled_splitTail ?_
  cases s with
  | scan =>
    rw [show order = [] from h]
    rfl
  | list =>
    obtain ⟨hsep, hperm⟩ := h
    obtain ⟨⟨hfront, -⟩, hback, -⟩ := (separated_middle_of_free hf).mp hsep
    refine ⟨(separated_middle_of_used rfl).mpr ⟨hfront, hback⟩, ?_⟩
    rw [vacant_append, vacant_cons_of_used rfl]
    rw [vacant_append, vacant_cons_of_free hf] at hperm
    have herase := (hperm.trans List.perm_middle).erase f.cell.offset
    rwa [List.erase_cons_head] at herase

/-- A plan from which a block was carved is settled. -/
theorem Settled.carve? (h : p.Settled s) (ht : Tiled a (s.minBlock a) lo p.cells hi)
    (hcarve : p.carve? a s need = some (off, p')) : p'.Settled s := by
  obtain ⟨f, -, hcells, hfree, -, -, rfl⟩ := carve?_eq_some (fun _ => h.mem_vacant) ht hcarve
  refine settled_carve hfree ?_
  rw [← hcells]
  exact h

/-- A plan is settled after a release. -/
theorem Settled.release (h : p.Settled s) : (p.release r s addr).Settled s := by
  unfold Plan.release
  cases hf : p.live? r addr with
  | none => exact h
  | some f =>
    obtain ⟨hcells, hused, -⟩ := live?_eq_some hf
    refine settled_free hused ?_
    rw [← hcells]
    exact h

/-- A plan is settled after an allocation was cut down. -/
theorem Settled.splitTail (h : p.Settled s) (hf : p.live? r addr = some f) :
    (Plan.splitTail a s keep f p.order).Settled s := by
  obtain ⟨hcells, hused, -⟩ := live?_eq_some hf
  have hsame : ({ f.cell with used := true } : Cell) = f.cell := by rw [← hused]
  refine settled_splitTail ?_
  rw [hsame, ← hcells]
  exact h

end Plan

end RegionHeap
