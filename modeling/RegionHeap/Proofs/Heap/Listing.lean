import RegionHeap.Heap.List
import RegionHeap.Proofs.FreeList.Edits
import RegionHeap.Proofs.Heap.Follows

/-!
# The listing heap follows its plan

The list is mended with every header that is written, so that between two operations it lists the
free cells of the plan in the plan's order. Free neighbours are merged at once.

* `Drawn.carve?_some`, `Drawn.free` -- a free block is cut, a block in use is freed;
* `ListHeap.Shows` -- heap and memory hold the plan;
* `Shows.allocate`, `Shows.release`, `Shows.resize`, `Shows.usableSize` -- the operations do what
  the plan says; `Shows.resize_live` says what becomes of the payload, and `Shows.resize_fits` when
  nothing changes.
-/

namespace RegionHeap

namespace Drawn

open Region FreeList

variable {a : Alignment} {r : Region a} {l : FreeList} {p : Plan} {need : Nat}
  {c d left : Cell} {f : Focus} {front back : List Cell} {order : List Nat}

/-! ## 1. Blocks -/

/-- A cell is off the list when it is put into use. -/
theorem listed_of_use (h : Drawn r l ⟨front ++ c :: back, order⟩) :
    ∀ x ∈ order.erase c.offset, x ∈ vacant (front ++ { c with used := true } :: back) := by
  refine h.listed_erase fun x hx hne => ?_
  rw [mem_vacant_append, mem_vacant_cons] at hx
  rw [mem_vacant_append, vacant_cons_of_used rfl]
  exact hx.imp_right fun hx => hx.resolve_left fun hc => hne hc.2.symm

/-- No block is carved when the plan says that none is large enough. -/
theorem carve?_none (h : Drawn r l p) (hplan : p.carve? a .list need = none) :
    ListHeap.carve? r l need = .ok none := by
  have hfit := Option.map_eq_none_iff.mp hplan
  unfold ListHeap.carve?
  simp only [h.firstFit, hfit, bind, Except.bind, Option.map_none]
  rfl

/-- **A block is carved** from the free cell that the plan says. -/
theorem carve?_some {p' : Plan} {off : Nat} (h : Drawn r l p) (hs : p.Settled .list)
    (hmod : need % a.bytes = 0) (hmin : Strategy.list.minBlock a ≤ need)
    (hplan : p.carve? a .list need = some (off, p')) :
    ∃ l', ListHeap.carve? r l need = .ok (some (off, l')) ∧ Drawn r l' p' ∧
      Memory.AgreeOutside (r.Spare (inUse p.cells)) l.memory l'.memory := by
  obtain ⟨f, hfit, hcells, hfree, hneed, rfl, rfl⟩ :=
    Plan.carve?_eq_some (s := .list) h.listed h.laid.tiled hplan
  obtain ⟨cells, order⟩ := p
  obtain ⟨front, c, back⟩ := f
  simp only at hcells
  subst hcells
  obtain ⟨-, hback, hnext⟩ := (separated_middle_of_free hfree).mp hs.1
  have hcmem : c ∈ front ++ c :: back := List.mem_append_right _ List.mem_cons_self
  obtain ⟨l1, hremove, hdrawn1, hm1⟩ := h.remove (hs.mem_order hcmem hfree)
  obtain ⟨m2, hset, hdrawn2, hm2⟩ := hdrawn1.setHeader [c] (h.laid.tiled.flag true) h.listed_of_use
  obtain ⟨l3, hsplit, hdrawn3, hm3⟩ := hdrawn2.splitTail rfl hneed hmod hmin hback
    fun e he hfree => absurd (hnext e he) (by simp [hfree])
  have hsize : (c.block a).size = c.size := Cell.header_size (h.laid.bounds hcmem).size_mod
  have hspare : inUse (front ++ c :: back) = inUse front ++ inUse back := by
    rw [inUse_append, inUse_cons_of_free hfree]
  refine ⟨l3, ?_, hdrawn3, hm1.trans ((hm2.mono fun x hx => ?_).trans (hm3.mono fun x hx => ?_))⟩
  · unfold ListHeap.carve?
    simp only [h.firstFit, hfit, bind, Except.bind, Option.map_some, hsize]
    simp only [Cell.block, hremove, hset, hsplit, pure, Except.pure]
  · rw [hspare]
    exact spare_of_covers hdrawn2.laid.tiled (hdrawn2.laid.covers_of_headerBytes
      (List.mem_append_right _ List.mem_cons_self) hx)
  · rw [hspare]
    exact hx.1

/-- The cell in use behind which a free cell may lie is freed in memory, and not yet listed. -/
theorem setFree (h : Drawn r l ⟨front ++ c :: back, order⟩) (hc : c.used = true) :
    ∃ m', r.setHeader l.memory c.offset (.ofSize c.size false) = .ok m' ∧
      Drawn r ⟨l.head, m'⟩ ⟨front ++ { c with used := false } :: back, order⟩ ∧
      Memory.AgreeOutside (r.Spare (inUse front ++ inUse back)) l.memory m' := by
  obtain ⟨m', hset, hdrawn, hm⟩ := h.setHeader [c] (h.laid.tiled.flag false) fun x hx => by
    have hx := h.listed x hx
    rw [vacant_append, vacant_cons_of_used hc, List.mem_append] at hx
    rw [mem_vacant_append, mem_vacant_cons]
    exact hx.imp_right .inr
  refine ⟨m', hset, hdrawn, hm.mono fun x hx => ?_⟩
  exact spare_of_covers hdrawn.laid.tiled (hdrawn.laid.covers_of_headerBytes
    (List.mem_append_right _ List.mem_cons_self) hx)

/-- A free cell takes in a freed one behind it that was never listed, and keeps its own place. -/
theorem widen (h : Drawn r l ⟨front ++ left :: c :: back, order⟩) (hleft : left.used = false)
    (hnot : c.offset ∉ order) :
    ∃ m', r.setHeader l.memory left.offset (.ofSize (left.size + c.size) false) = .ok m' ∧
      Drawn r ⟨l.head, m'⟩ ⟨front ++ { left with size := left.size + c.size } :: back, order⟩ ∧
      Memory.AgreeOutside (r.Spare (inUse front ++ inUse back)) l.memory m' := by
  have hlisted : ∀ x ∈ order,
      x ∈ vacant (front ++ { left with size := left.size + c.size } :: back) := fun x hx => by
    have hmem := h.listed x hx
    rw [mem_vacant_append, mem_vacant_cons, mem_vacant_cons] at hmem
    rw [mem_vacant_append, mem_vacant_cons]
    exact hmem.imp_right (.imp_right fun hx' => hx'.resolve_left fun hcx => hnot (hcx.2 ▸ hx))
  obtain ⟨m1, hset, hdrawn, hm1⟩ := h.setHeader [left, c] (h.tiled_merged _) hlisted
  rw [hleft] at hset
  refine ⟨m1, hset, hdrawn, hm1.mono fun x hx => ?_⟩
  exact spare_of_covers hdrawn.laid.tiled (hdrawn.laid.covers_of_headerBytes
    (List.mem_append_right _ List.mem_cons_self) hx)

/-- A free cell that takes in a freed one is merged with the cells behind. -/
theorem takeInFreed (h : Drawn r l ⟨front ++ left :: c :: back, order⟩)
    (hleft : left.used = false) (hnot : c.offset ∉ order)
    (hsep : Separated back) (hlist : ∀ d ∈ back.head?, d.used = false → d.offset ∈ order) :
    ∃ m' l', r.setHeader l.memory left.offset (.ofSize (left.size + c.size) false) = .ok m' ∧
      FreeList.coalesce r ⟨l.head, m'⟩ left.offset = .ok l' ∧
      Drawn r l' (.put .list front { left with size := left.size + c.size } back order) ∧
      Memory.AgreeOutside (r.Spare (inUse front ++ inUse back)) l.memory l'.memory := by
  obtain ⟨m1, hset, hdrawn, hm1⟩ := h.widen hleft hnot
  obtain ⟨l2, hcoalesce, hdrawn2, hm2⟩ := hdrawn.coalesce hleft hsep hlist
  exact ⟨m1, l2, hset, hcoalesce, hdrawn2, Memory.AgreeOutside.trans hm1 hm2⟩

/-- **The block of an allocation is freed** as the plan says. -/
theorem free (h : Drawn r l ⟨f.front ++ f.cell :: f.back, order⟩)
    (hs : Plan.Settled .list ⟨f.front ++ f.cell :: f.back, order⟩) (hu : f.cell.used = true) :
    ∃ l', ListHeap.free r l f.live = .ok l' ∧ Drawn r l' (Plan.free .list f order) ∧
      Memory.AgreeOutside (r.Spare (inUse f.front ++ inUse f.back)) l.memory l'.memory := by
  obtain ⟨front, c, back⟩ := f
  simp only at h hs hu ⊢
  have hcmem : c ∈ front ++ c :: back := List.mem_append_right _ List.mem_cons_self
  obtain ⟨hfront, hback⟩ := (separated_middle_of_used hu).mp hs.1
  have hlist : ∀ d ∈ back.head?, d.used = false → d.offset ∈ order := fun d hd hfree =>
    hs.mem_order (List.mem_append_right _ (List.mem_cons_of_mem c (List.mem_of_mem_head? hd))) hfree
  have hnot := h.not_listed hcmem hu
  obtain ⟨m1, hset, hdrawn, hm⟩ := h.setFree hu
  obtain ⟨l2, l3, hpush, hcoalesce, hdrawn3, hm3⟩ := hdrawn.enter rfl hnot hback hlist
  unfold ListHeap.free Plan.free Plan.leftFree? Focus.live Focus.left?
  simp only [hset, bind, Except.bind]
  rcases List.eq_nil_or_concat front with rfl | ⟨init, left, rfl⟩
  · refine ⟨l3, ?_, hdrawn3, hm.trans hm3⟩
    simp only [List.getLast?_nil, Option.map_none, hpush]
    exact hcoalesce
  · rw [List.concat_eq_append] at *
    have hleft := hdrawn.laid.header_eq (c := left) (by simp)
    simp only [List.getLast?_concat, Option.map_some, hleft]
    cases hl : left.used with
    | true =>
      refine ⟨l3, ?_, ?_, hm.trans hm3⟩
      · rw [if_pos (Cell.header_allocated.mpr hl)]
        simp only [hpush]
        exact hcoalesce
      · simp only [Option.filter_some, hl]
        exact hdrawn3
    | false =>
      have hdrawn' : Drawn r ⟨l.head, m1⟩
          ⟨init ++ left :: { c with used := false } :: back, order⟩ := by
        rw [List.append_assoc] at hdrawn
        exact hdrawn
      obtain ⟨m4, l4, hset4, hcoalesce4, hdrawn4, hm4⟩ :=
        hdrawn'.takeInFreed hl hnot hback hlist
      have hsize := Cell.header_size (a := a) (hdrawn.laid.bounds (c := left) (by simp)).size_mod
      refine ⟨l4, ?_, ?_, hm.trans (hm4.mono fun x hx => ?_)⟩
      · rw [if_neg (by simp [hl])]
        simp only [hsize, hdrawn'.add_eq, hset4]
        exact hcoalesce4
      · simp only [Option.filter_some, hl, List.dropLast_concat]
        exact hdrawn4
      · rwa [inUse_append, inUse_cons_of_free hl, inUse_nil, List.append_nil]

end Drawn

namespace ListHeap

open Region FreeList

variable {a : Alignment} {r : Region a} {h : ListHeap a} {m : Memory} {l : FreeList} {p p' : Plan}
  {f : Focus} {addr n need : Nat}

/-- The heap has taken over the region, and holds the plan between its operations. -/
structure Shows (r : Region a) (h : ListHeap a) (m : Memory) (p : Plan) : Prop where
  region_eq : h.region = some r
  drawn : Drawn r ⟨h.head, m⟩ p
  settled : p.Settled .list

namespace Shows

theorem tiled (hs : Shows r h m p) : Tiled a (Strategy.list.minBlock a) 0 p.cells r.size :=
  hs.drawn.laid.tiled

theorem withList (hs : Shows r h m p) (hdrawn : Drawn r l p') (hsettled : p'.Settled .list) :
    Shows r (h.withList l) l.memory p' :=
  ⟨hs.region_eq, hdrawn, hsettled⟩

theorem live?_eq (hs : Shows r h m p) (addr : Nat) :
    r.live? m (Strategy.list.minBlock a) addr = .ok ((p.live? r addr).map Focus.live) :=
  Plan.live?_eq hs.drawn.laid addr

/-! ## 2. Operations -/

/-- A carved block, as the heap sees it. -/
theorem carve? {off : Nat} (hs : Shows r h m p) (hserves : Strategy.list.Serves a n need)
    (hplan : p.carve? a .list need = some (off, p')) :
    ∃ l', ListHeap.carve? r ⟨h.head, m⟩ need = .ok (some (off, l')) ∧
      r.payload off = .ok (r.base + off + a.bytes) ∧ Shows r (h.withList l') l'.memory p' ∧
      Memory.AgreeOutside (r.Spare (inUse p.cells)) m l'.memory := by
  obtain ⟨l', hcarve, hdrawn, hm⟩ :=
    hs.drawn.carve?_some hs.settled hserves.mod hserves.minBlock_le hplan
  obtain ⟨size, -, hnew, -⟩ := Plan.carve?_spec hs.tiled hs.drawn.listed hplan
  exact ⟨l', hcarve, payload_eq_ok (hdrawn.laid.isHeaderOffset (mem_inUse.mp hnew).1),
    hs.withList hdrawn (hs.settled.carve? hs.tiled hplan), hm⟩

/-- **Allocation follows the plan.** -/
theorem allocate (hs : Shows r h m p) (n : Nat) :
    Follows (Shows r) r (inUse p.cells) m (h.allocate m n) (p.allocate r .list n).1
      (p.allocate r .list n).2 := by
  unfold ListHeap.allocate Plan.allocate
  simp only [hs.region_eq]
  cases hneed : a.blockSize? (Strategy.list.minPayload a) n with
  | none => exact ⟨_, rfl, rfl, hs, .refl _ _⟩
  | some need =>
    simp only [Option.bind_some, bind, Except.bind]
    cases hplan : p.carve? a .list need with
    | none =>
      simp only [hs.drawn.carve?_none hplan]
      exact ⟨_, rfl, rfl, hs, .refl _ _⟩
    | some x =>
      obtain ⟨off, p'⟩ := x
      obtain ⟨l', hcarve, hpayload, hshows, hm⟩ :=
        hs.carve? (Strategy.blockSize?_spec hneed) hplan
      simp only [hcarve, hpayload, pure, Except.pure]
      exact ⟨_, rfl, rfl, hshows, hm⟩

/-- **Release follows the plan.** -/
theorem release (hs : Shows r h m p) (addr : Nat) :
    Follows (Shows r) r (p.others r (some addr)) m (h.release m addr) ()
      (p.release r .list addr) := by
  have hsettled : (p.release r .list addr).Settled .list := hs.settled.release
  unfold ListHeap.release
  simp only [hs.region_eq, hs.live?_eq, bind, Except.bind]
  unfold Plan.release at hsettled ⊢
  cases hf : p.live? r addr with
  | none => exact ⟨_, rfl, rfl, hs, .refl _ _⟩
  | some f =>
    obtain ⟨hcells, hused, -⟩ := Plan.live?_eq_some hf
    have hdrawn : Drawn r ⟨h.head, m⟩ ⟨f.front ++ f.cell :: f.back, p.order⟩ := hcells ▸ hs.drawn
    obtain ⟨l', hfree, hdrawn', hm⟩ := hdrawn.free (hcells ▸ hs.settled) hused
    rw [hf] at hsettled
    simp only [Option.map_some, hfree, pure, Except.pure]
    refine ⟨_, rfl, rfl, hs.withList hdrawn' hsettled, hm.mono fun x hx => hx.mono fun c hc => ?_⟩
    exact Plan.mem_sides_of_mem_others hf hc

/-- A live allocation, as the heap sees it. -/
theorem focus (hs : Shows r h m p) (hf : p.live? r addr = some f) :
    Drawn r ⟨h.head, m⟩ ⟨f.front ++ f.cell :: f.back, p.order⟩ ∧ Separated f.back ∧
      ∀ d ∈ f.back.head?, d.used = false → d.offset ∈ p.order := by
  obtain ⟨hcells, hused, -⟩ := Plan.live?_eq_some hf
  have hsettled : Plan.Settled .list ⟨f.front ++ f.cell :: f.back, p.order⟩ := hcells ▸ hs.settled
  refine ⟨hcells ▸ hs.drawn, ((separated_middle_of_used hused).mp hsettled.1).2, fun d hd hfree => ?_⟩
  refine hsettled.mem_order (c := d) ?_ hfree
  exact List.mem_append_right _ (List.mem_cons_of_mem _ (List.mem_of_mem_head? hd))

/-- A shrinking allocation keeps its payload up to the bytes asked for. -/
theorem shrink (hs : Shows r h m p) (hf : p.live? r addr = some f)
    (hserves : Strategy.list.Serves a n need) (hneed : need ≤ f.cell.size) :
    ∃ l', FreeList.splitTail r ⟨h.head, m⟩ f.cell.offset need = .ok l' ∧
      Shows r (h.withList l') l'.memory (Plan.splitTail a .list need f p.order) ∧
      Memory.AgreeOutside (r.Spare (p.others r (some addr))) m l'.memory ∧
      Memory.Carries m l'.memory addr addr (min (f.cell.size - a.bytes) n) := by
  obtain ⟨-, hused, haddr⟩ := Plan.live?_eq_some hf
  obtain ⟨hdrawn, hsep, hlist⟩ := hs.focus hf
  obtain ⟨l', hsplit, hdrawn', hm⟩ :=
    hdrawn.splitTail hused hneed hserves.mod hserves.minBlock_le hsep hlist
  refine ⟨l', hsplit, hs.withList hdrawn' (hs.settled.splitTail hf),
    hm.mono fun x hx => hx.1.mono fun c hc => Plan.mem_sides_of_mem_others hf hc, ?_⟩
  have hlen := Nat.min_le_right (f.cell.size - a.bytes) n
  have hpayload := hserves.payload_le
  rw [haddr]
  exact carries_of_kept hm (by omega)

/-- A growing allocation keeps its payload. -/
theorem grow (hs : Shows r h m p) (hf : p.live? r addr = some f)
    (hserves : Strategy.list.Serves a n need) (hneed : f.cell.size < need)
    (hplan : Plan.grow? a .list need f p.order = some p') :
    ∃ l', FreeList.grow? r ⟨h.head, m⟩ f.cell.offset need = .ok (some l') ∧
      Shows r (h.withList l') l'.memory p' ∧
      Memory.AgreeOutside (r.Spare (p.others r (some addr))) m l'.memory ∧
      Memory.Carries m l'.memory addr addr (min (f.cell.size - a.bytes) n) := by
  obtain ⟨hcells, hused, haddr⟩ := Plan.live?_eq_some hf
  obtain ⟨hdrawn, hsep, hlist⟩ := hs.focus hf
  obtain ⟨l', hgrow, hdrawn', hm⟩ :=
    hdrawn.grow?_some hused hneed hserves.mod hsep hlist hplan
  have hsettled := Plan.settled_grow? hused (hcells ▸ hs.settled) hplan
  refine ⟨l', hgrow, hs.withList hdrawn' hsettled,
    hm.mono fun x hx => hx.1.mono fun c hc => Plan.mem_sides_of_mem_others hf hc, ?_⟩
  have hlen := Nat.min_le_left (f.cell.size - a.bytes) n
  have hmin := (hdrawn.laid.bounds (List.mem_append_right _ List.mem_cons_self)).min_le
  have hbytes := Strategy.list.bytes_le_minBlock (a := a)
  rw [haddr]
  exact carries_of_kept hm (by omega)

/-- What clients write is of no concern to the heap. -/
theorem congr_of_client {m' : Memory} (hs : Shows r h m p)
    (hm : Memory.AgreeOutside (r.ClientBytes p.cells) m m') : Shows r h m' p :=
  ⟨hs.region_eq, hs.drawn.congr_of_client hm, hs.settled⟩

/-- **Relocation follows the plan** and carries the payload along. -/
theorem relocate (hs : Shows r h m p) (hf : p.live? r addr = some f)
    (hserves : Strategy.list.Serves a n need) :
    FollowsCarrying (Shows r) r (p.others r (some addr)) m (h.relocate r m addr f.live n need)
      (p.relocate r .list addr need).1 (p.relocate r .list addr need).2 addr
      (min (f.cell.size - a.bytes) n) := by
  unfold ListHeap.relocate Plan.relocate
  cases hplan : p.carve? a .list need with
  | none =>
    simp only [hs.drawn.carve?_none hplan, bind, Except.bind]
    exact ⟨_, rfl, rfl, hs, .refl _ _, fun _ hnew => nomatch hnew⟩
  | some x =>
    obtain ⟨off, p'⟩ := x
    obtain ⟨l', hcarve, hpayload, hshows, hm⟩ := hs.carve? hserves hplan
    obtain ⟨husable, hcopy, hcopied⟩ :=
      Plan.relocate_copy hs.drawn.laid hs.drawn.listed hshows.drawn.laid hf hplan hserves
    obtain ⟨o, hrelease, -, hshows', hm'⟩ := (hshows.congr_of_client hcopied).release addr
    obtain ⟨hframe, hcarries⟩ := Plan.relocate_carries hs.tiled hs.drawn.listed hf hplan
      hserves.payload_le hm hm'
    simp only [hcarve, hpayload, husable, hcopy, hrelease, bind, Except.bind, pure, Except.pure]
    refine ⟨_, rfl, rfl, hshows', hframe, fun new hnew => ?_⟩
    cases hnew
    exact hcarries

/-- **A change of size of a live allocation follows the plan** and carries the payload along, up to
    the smaller of the two sizes. -/
theorem resize_live (hs : Shows r h m p) (hf : p.live? r addr = some f) (hn : n ≠ 0) :
    FollowsCarrying (Shows r) r (p.others r (some addr)) m (h.resize m (some addr) n)
      (p.resize r .list (some addr) n).1 (p.resize r .list (some addr) n).2 addr
      (min (f.cell.size - a.bytes) n) := by
  unfold ListHeap.resize Plan.resize
  simp only [hs.region_eq, hs.live?_eq, hf, if_neg hn, bind, Except.bind, Option.map_some]
  cases hneed : a.blockSize? (Strategy.list.minPayload a) n with
  | none => exact ⟨_, rfl, rfl, hs, .refl _ _, fun _ hnew => nomatch hnew⟩
  | some need =>
    have hserves := Strategy.blockSize?_spec hneed
    unfold Plan.refit
    by_cases hle : need ≤ f.cell.size
    · obtain ⟨l', hsplit, hshows, hm, hcarries⟩ := hs.shrink hf hserves hle
      simp only [if_pos hle, Focus.live, hsplit, pure, Except.pure]
      refine ⟨_, rfl, rfl, hshows, hm, fun new hnew => ?_⟩
      cases hnew
      exact hcarries
    · have hlt := Nat.not_le.mp hle
      simp only [Focus.live, hle, if_false]
      cases hplan : Plan.grow? a .list need f p.order with
      | some p' =>
        obtain ⟨l', hgrow, hshows, hm, hcarries⟩ := hs.grow hf hserves hlt hplan
        simp only [hgrow, pure, Except.pure]
        refine ⟨_, rfl, rfl, hshows, hm, fun new hnew => ?_⟩
        cases hnew
        exact hcarries
      | none =>
        obtain ⟨hdrawn, hsep, -⟩ := hs.focus hf
        simp only [hdrawn.grow?_none hlt hsep hplan]
        exact hs.relocate hf hserves

/-- **A change of size changes nothing** if the block fits the bytes asked for. -/
theorem resize_fits (hs : Shows r h m p) (hf : p.live? r addr = some f)
    (hfit : Strategy.list.Fits a n f.cell.size) :
    h.resize m (some addr) n = .ok ⟨h, m, some addr, [.shrunk addr n]⟩ := by
  obtain ⟨need, hneed, hsnug⟩ := hfit
  obtain ⟨hmem, hused⟩ := mem_inUse.mp (Plan.live?_mem hf).1
  have hsplit := hs.drawn.splitTail_snug hmem hused hsnug
  unfold ListHeap.resize
  simp only [hs.region_eq, hs.live?_eq, hf, if_neg (Alignment.ne_zero_of_blockSize? hneed), hneed,
    Focus.live, if_pos hsnug.le, hsplit, bind, Except.bind, Option.map_some]
  rfl

/-- **A change of size follows the plan.** -/
theorem resize (hs : Shows r h m p) (addr? : Option Nat) (n : Nat) :
    Follows (Shows r) r (p.others r addr?) m (h.resize m addr? n) (p.resize r .list addr? n).1
      (p.resize r .list addr? n).2 := by
  cases addr? with
  | none =>
    rw [Plan.others_none]
    exact hs.allocate n
  | some addr =>
    by_cases hn : n = 0
    · obtain ⟨o, hrelease, -, hshows, hm⟩ := hs.release addr
      unfold ListHeap.resize Plan.resize
      simp only [if_pos hn, hrelease, bind, Except.bind]
      exact ⟨_, rfl, rfl, hshows, hm⟩
    · cases hf : p.live? r addr with
      | some f => exact (hs.resize_live hf hn).follows
      | none =>
        unfold ListHeap.resize Plan.resize
        simp only [hs.region_eq, hs.live?_eq, hf, if_neg hn, bind, Except.bind, Option.map_none]
        exact ⟨_, rfl, rfl, hs, .refl _ _⟩

/-- The number of usable bytes is that of the plan. -/
theorem usableSize (hs : Shows r h m p) (addr : Nat) :
    h.usableSize m addr = .ok (p.usable r addr) := by
  unfold ListHeap.usableSize Plan.usable
  simp only [hs.region_eq, hs.live?_eq, bind, Except.bind]
  cases hf : p.live? r addr with
  | none => rfl
  | some f =>
    have hmem := (mem_inUse.mp (Plan.live?_mem hf).1).1
    simp only [Option.map_some, Focus.usable_eq hs.drawn.laid hmem]
    rfl

end Shows

/-! ## 3. New regions -/

/-- **A heap that was laid out over an accepted range** has one free block, which is listed. -/
theorem init_ok {addr len : Nat} (m : Memory)
    (hr : ofRange? a (Strategy.list.minBlock a) addr len = .ok r) :
    ∃ o, ListHeap.init m addr len = .ok o ∧ o.value = .ok () ∧
      Shows r o.heap o.memory (.fresh r .list) ∧
      Memory.AgreeOutside (Memory.Between r.base (r.base + r.size)) m o.memory := by
  obtain ⟨-, -, hmin⟩ := ofRange?_eq_ok hr
  obtain ⟨m1, hset, hlaid, hm1⟩ :=
    laid_single (c := ⟨0, r.size, false⟩) rfl rfl hmin (r.clear m)
  have hdrawn : Drawn r ⟨none, m1⟩ ⟨[⟨0, r.size, false⟩], []⟩ :=
    ⟨hlaid, rfl, trivial, List.nodup_nil, fun _ hx => nomatch hx⟩
  obtain ⟨l', hpush, hdrawn', hm2⟩ := hdrawn.push (y := 0) (by simp [vacant]) (fun hx => nomatch hx)
  unfold ListHeap.init
  simp only [hr, hset, hpush, bind, Except.bind, pure, Except.pure]
  refine ⟨_, rfl, rfl, ⟨rfl, hdrawn', Strategy.settled_fresh r .list⟩, ?_⟩
  exact ((agreeOutside_clear r m).trans hm1).trans (hm2.mono fun x hx => hx.1)

end ListHeap

end RegionHeap
