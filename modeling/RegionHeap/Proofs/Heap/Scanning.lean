import RegionHeap.Heap.Scan
import RegionHeap.Proofs.Heap.Follows

/-!
# The scanning heap follows its plan

The memory of a scanning heap holds a plan as soon as the layout lies in it, since nothing is listed
and nothing merged. Every operation writes headers only.

* `Laid.scanFit`, `Laid.scanCarve` -- the scan finds the block that the plan says, and cuts it;
* `Laid.scanSplit_snug` -- a cell that is as small as can be stays as it is;
* `ScanHeap.Shows` -- heap and memory hold the plan;
* `Shows.allocate`, `Shows.release`, `Shows.resize`, `Shows.usableSize` -- the operations do what
  the plan says; `Shows.resize_live` says what becomes of the payload, and `Shows.resize_fits` when
  nothing changes;
* `Shows.validate` -- the heap passes.
-/

namespace RegionHeap

namespace Region.Laid

variable {a : Alignment} {r : Region a} {m : Memory} {keep need off : Nat} {c : Cell} {f : Focus}
  {cs rest front back : List Cell} {p p' : Plan}

/-! ## 1. Blocks -/

/-- The search through the blocks finds the first of them that is free and large enough. -/
theorem scanFit (h : r.Laid .scan m cs) (hsub : ∀ c ∈ rest, c ∈ cs) :
    ScanHeap.firstFit r need (rest.map (Cell.block a)) =
      .ok ((rest.find? fun c => !c.used && decide (need ≤ c.size)).map (Cell.block a)) := by
  induction rest with
  | nil => rfl
  | cons c rest ih =>
    have hc := hsub c List.mem_cons_self
    have ih := ih fun d hd => hsub d (List.mem_cons_of_mem c hd)
    have hb := h.bounds hc
    have hsize : (c.block a).size = c.size := Cell.header_size hb.size_mod
    have hroom : c.size ≤ r.size - c.offset := by
      have h1 := hb.next_le
      unfold Cell.next at h1
      omega
    rw [List.map_cons, ScanHeap.firstFit, hsize, List.find?_cons]
    show (if (c.header a).Allocated ∨ c.size < need then _ else _) = _
    by_cases hfit : c.used = true ∨ c.size < need
    · have hskip : (!c.used && decide (need ≤ c.size)) = false := by
        rcases hfit with hu | hlt
        · simp [hu]
        · simp [Nat.not_le.mpr hlt]
      rw [if_pos (by rwa [Cell.header_allocated]), hskip]
      exact ih
    · obtain ⟨hu, hlt⟩ := not_or.mp hfit
      have htake : (!c.used && decide (need ≤ c.size)) = true := by
        simp [Bool.eq_false_iff.mpr hu, Nat.not_lt.mp hlt]
      rw [if_neg (by rwa [Cell.header_allocated]), htake]
      show Except.bind (r.room c.offset) _ = _
      rw [room_eq_ok (h.isHeaderOffset hc)]
      show (if c.size ≤ r.size - c.offset then _ else _) = _
      rw [if_pos hroom]
      rfl

/-- A cell has nothing to give back if it was cut down before. -/
theorem scanSplit_snug (h : r.Laid .scan m cs) (hc : c ∈ cs)
    (hsnug : Strategy.scan.Snug a keep c.size) :
    ScanHeap.splitTail r m c.offset keep = .ok m := by
  have hsmall : c.size - keep < Strategy.scan.minBlock a :=
    Nat.sub_lt_left_of_lt_add hsnug.le hsnug.lt
  unfold ScanHeap.splitTail
  simp only [h.header_eq hc, Cell.header_size (h.bounds hc).size_mod, hsnug.le, hsmall, bind,
    Except.bind, pure, Except.pure, if_true]

/-- A cell in use gives back what it does not need. -/
theorem scanSplit (h : r.Laid .scan m (front ++ c :: back)) (hc : c.used = true)
    (hkeep : keep ≤ c.size) (hmod : keep % a.bytes = 0) (hmin : Strategy.scan.minBlock a ≤ keep)
    (order : List Nat) :
    ∃ m', ScanHeap.splitTail r m c.offset keep = .ok m' ∧
      r.Laid .scan m' (Plan.splitTail a .scan keep ⟨front, c, back⟩ order).cells ∧
      Memory.AgreeOutside (fun x => r.Spare (inUse front ++ inUse back) x ∧ ¬ r.Kept c keep x)
        m m' := by
  have hcmem : c ∈ front ++ c :: back := List.mem_append_right _ List.mem_cons_self
  have hb := h.bounds hcmem
  unfold Plan.splitTail
  by_cases hsmall : c.size - keep < Strategy.scan.minBlock a
  · have hsame : ({ c with used := true } : Cell) = c := by rw [← hc]
    refine ⟨m, h.scanSplit_snug hcmem ⟨hkeep, by omega⟩, ?_, .refl _ _⟩
    rw [if_pos hsmall, hsame]
    exact h
  · obtain ⟨m1, m2, hset1, hset2, hlaid, hm⟩ := h.split hmod hmin (Nat.not_lt.mp hsmall)
    refine ⟨m2, ?_, ?_, hm.mono fun x hx => h.spare_of_headers (Nat.not_lt.mp hsmall) hx⟩
    · unfold ScanHeap.splitTail
      simp only [h.header_eq hcmem, Cell.header_size hb.size_mod, hkeep, hsmall, bind, Except.bind,
        pure, Except.pure, if_true, if_false, hset1]
      exact hset2
    · rw [if_neg hsmall]
      show r.Laid .scan m2 ((front ++ [⟨c.offset, keep, true⟩]) ++
        ⟨c.offset + keep, c.size - keep, false⟩ :: back)
      rw [List.append_assoc]
      exact hlaid

/-- No block is carved when the plan says that none is large enough. -/
theorem scanCarve_none (h : r.Laid .scan m p.cells) (hplan : p.carve? a .scan need = none) :
    ScanHeap.carve? r m need = .ok none := by
  have hfind := Plan.carve?_eq_none_iff_find?.mp hplan
  unfold ScanHeap.carve?
  simp only [h.blocks_eq, h.scanFit (fun _ hc => hc), hfind, bind, Except.bind, Option.map_none]
  rfl

/-- **A block is carved** from the free cell that the plan says. -/
theorem scanCarve (h : r.Laid .scan m p.cells) (horder : p.order = [])
    (hmod : need % a.bytes = 0) (hmin : Strategy.scan.minBlock a ≤ need)
    (hplan : p.carve? a .scan need = some (off, p')) :
    ∃ m', ScanHeap.carve? r m need = .ok (some (off, m')) ∧ r.Laid .scan m' p'.cells ∧
      Memory.AgreeOutside (r.Spare (inUse p.cells)) m m' := by
  have hlist : ∀ x ∈ p.order, x ∈ vacant p.cells := fun x hx => by
    rw [horder] at hx
    cases hx
  obtain ⟨f, hfit, hcells, hfree, hneed, rfl, rfl⟩ := Plan.carve?_eq_some hlist h.tiled hplan
  have hfind : p.cells.find? (fun c => !c.used && decide (need ≤ c.size)) = some f.cell := by
    obtain ⟨c, hfind, hf⟩ := Option.bind_eq_some_iff.mp hfit
    have hmem := List.mem_of_find?_eq_some hfind
    obtain ⟨g, hg, rfl⟩ := exists_focus? h.tiled Strategy.scan.minBlock_pos hmem
    rw [hg] at hf
    cases hf
    exact hfind
  obtain ⟨cells, order⟩ := p
  obtain ⟨front, c, back⟩ := f
  simp only at hcells
  subst hcells
  have hcmem : c ∈ front ++ c :: back := List.mem_append_right _ List.mem_cons_self
  have hsize : (c.block a).size = c.size := Cell.header_size (h.bounds hcmem).size_mod
  obtain ⟨m1, hset, hlaid1, hm1⟩ := h.setFlag true
  obtain ⟨m2, hsplit, hlaid2, hm2⟩ := hlaid1.scanSplit rfl hneed hmod hmin (order.erase c.offset)
  have hspare : inUse (front ++ c :: back) = inUse front ++ inUse back := by
    rw [inUse_append, inUse_cons_of_free hfree]
  rw [hspare]
  refine ⟨m2, ?_, hlaid2, hm1.trans (hm2.mono fun x hx => hx.1)⟩
  unfold ScanHeap.carve?
  simp only [h.blocks_eq, h.scanFit (fun _ hc => hc), hfind, bind, Except.bind, Option.map_some,
    hsize]
  simp only [Cell.block, hset, hsplit, pure, Except.pure]

end Region.Laid

namespace ScanHeap

open Region

variable {a : Alignment} {r : Region a} {h : ScanHeap a} {m : Memory} {p p' : Plan} {f : Focus}
  {addr n need : Nat}

/-- The heap has taken over the region, and memory holds the plan. -/
structure Shows (r : Region a) (h : ScanHeap a) (m : Memory) (p : Plan) : Prop where
  region_eq : h.region = some r
  laid : r.Laid .scan m p.cells
  settled : p.Settled .scan

namespace Shows

theorem tiled (hs : Shows r h m p) : Tiled a (Strategy.scan.minBlock a) 0 p.cells r.size :=
  hs.laid.tiled

theorem listed (hs : Shows r h m p) : ∀ x ∈ p.order, x ∈ vacant p.cells :=
  fun _ => hs.settled.mem_vacant

theorem live?_eq (hs : Shows r h m p) (addr : Nat) :
    r.live? m (Strategy.scan.minBlock a) addr = .ok ((p.live? r addr).map Focus.live) :=
  Plan.live?_eq hs.laid addr

/-! ## 2. Operations -/

/-- A carved block, as the heap sees it. -/
theorem carve? {off : Nat} (hs : Shows r h m p) (hserves : Strategy.scan.Serves a n need)
    (hplan : p.carve? a .scan need = some (off, p')) :
    ∃ m', ScanHeap.carve? r m need = .ok (some (off, m')) ∧
      r.payload off = .ok (r.base + off + a.bytes) ∧ Shows r h m' p' ∧
      Memory.AgreeOutside (r.Spare (inUse p.cells)) m m' := by
  obtain ⟨m', hcarve, hlaid, hm⟩ :=
    hs.laid.scanCarve hs.settled hserves.mod hserves.minBlock_le hplan
  obtain ⟨size, -, hnew, -⟩ := Plan.carve?_spec hs.tiled hs.listed hplan
  exact ⟨m', hcarve, payload_eq_ok (hlaid.isHeaderOffset (mem_inUse.mp hnew).1),
    ⟨hs.region_eq, hlaid, hs.settled.carve? hs.tiled hplan⟩, hm⟩

/-- **Allocation follows the plan.** -/
theorem allocate (hs : Shows r h m p) (n : Nat) :
    Follows (Shows r) r (inUse p.cells) m (h.allocate m n) (p.allocate r .scan n).1
      (p.allocate r .scan n).2 := by
  unfold ScanHeap.allocate Plan.allocate
  simp only [hs.region_eq]
  cases hneed : a.blockSize? (Strategy.scan.minPayload a) n with
  | none => exact ⟨_, rfl, rfl, hs, .refl _ _⟩
  | some need =>
    simp only [Option.bind_some, bind, Except.bind]
    cases hplan : p.carve? a .scan need with
    | none =>
      simp only [hs.laid.scanCarve_none hplan]
      exact ⟨_, rfl, rfl, hs, .refl _ _⟩
    | some x =>
      obtain ⟨off, p'⟩ := x
      obtain ⟨m', hcarve, hpayload, hshows, hm⟩ :=
        hs.carve? (Strategy.blockSize?_spec hneed) hplan
      simp only [hcarve, hpayload, pure, Except.pure]
      exact ⟨_, rfl, rfl, hshows, hm⟩

/-- **Release follows the plan.** -/
theorem release (hs : Shows r h m p) (addr : Nat) :
    Follows (Shows r) r (p.others r (some addr)) m (h.release m addr) ()
      (p.release r .scan addr) := by
  have hsettled : (p.release r .scan addr).Settled .scan := hs.settled.release
  unfold ScanHeap.release
  simp only [hs.region_eq, hs.live?_eq, bind, Except.bind]
  unfold Plan.release at hsettled ⊢
  cases hf : p.live? r addr with
  | none => exact ⟨_, rfl, rfl, hs, .refl _ _⟩
  | some f =>
    obtain ⟨hcells, -, -⟩ := Plan.live?_eq_some hf
    have hlaid : r.Laid .scan m (f.front ++ f.cell :: f.back) := hcells ▸ hs.laid
    obtain ⟨m', hset, hlaid', hm⟩ := hlaid.setFlag false
    rw [hf] at hsettled
    simp only [Option.map_some, Focus.live, hset, pure, Except.pure]
    refine ⟨_, rfl, rfl, ⟨hs.region_eq, hlaid', hsettled⟩, hm.mono fun x hx => hx.mono fun c hc => ?_⟩
    exact Plan.mem_sides_of_mem_others hf hc

/-- A shrinking allocation keeps its payload up to the bytes asked for. -/
theorem shrink (hs : Shows r h m p) (hf : p.live? r addr = some f)
    (hserves : Strategy.scan.Serves a n need) (hneed : need ≤ f.cell.size) :
    ∃ m', ScanHeap.splitTail r m f.cell.offset need = .ok m' ∧
      Shows r h m' (Plan.splitTail a .scan need f p.order) ∧
      Memory.AgreeOutside (r.Spare (p.others r (some addr))) m m' ∧
      Memory.Carries m m' addr addr (min (f.cell.size - a.bytes) n) := by
  obtain ⟨hcells, hused, haddr⟩ := Plan.live?_eq_some hf
  have hlaid : r.Laid .scan m (f.front ++ f.cell :: f.back) := hcells ▸ hs.laid
  obtain ⟨m', hsplit, hlaid', hm⟩ :=
    hlaid.scanSplit hused hneed hserves.mod hserves.minBlock_le p.order
  refine ⟨m', hsplit, ⟨hs.region_eq, hlaid', hs.settled.splitTail hf⟩,
    hm.mono fun x hx => hx.1.mono fun c hc => Plan.mem_sides_of_mem_others hf hc, ?_⟩
  have hlen := Nat.min_le_right (f.cell.size - a.bytes) n
  have hpayload := hserves.payload_le
  rw [haddr]
  exact carries_of_kept hm (by omega)

/-- What clients write is of no concern to the heap. -/
theorem congr_of_client {m' : Memory} (hs : Shows r h m p)
    (hm : Memory.AgreeOutside (r.ClientBytes p.cells) m m') : Shows r h m' p :=
  ⟨hs.region_eq, hs.laid.congr_of_client hm, hs.settled⟩

/-- **Relocation follows the plan** and carries the payload along. -/
theorem relocate (hs : Shows r h m p) (hf : p.live? r addr = some f)
    (hserves : Strategy.scan.Serves a n need) :
    FollowsCarrying (Shows r) r (p.others r (some addr)) m (h.relocate r m addr f.live n need)
      (p.relocate r .scan addr need).1 (p.relocate r .scan addr need).2 addr
      (min (f.cell.size - a.bytes) n) := by
  unfold ScanHeap.relocate Plan.relocate
  cases hplan : p.carve? a .scan need with
  | none =>
    simp only [hs.laid.scanCarve_none hplan, bind, Except.bind]
    exact ⟨_, rfl, rfl, hs, .refl _ _, fun _ hnew => nomatch hnew⟩
  | some x =>
    obtain ⟨off, p'⟩ := x
    obtain ⟨m', hcarve, hpayload, hshows, hm⟩ := hs.carve? hserves hplan
    obtain ⟨husable, hcopy, hcopied⟩ :=
      Plan.relocate_copy hs.laid hs.listed hshows.laid hf hplan hserves
    obtain ⟨o, hrelease, -, hshows', hm'⟩ := (hshows.congr_of_client hcopied).release addr
    obtain ⟨hframe, hcarries⟩ := Plan.relocate_carries hs.tiled hs.listed hf hplan
      hserves.payload_le hm hm'
    simp only [hcarve, hpayload, husable, hcopy, hrelease, bind, Except.bind, pure, Except.pure]
    refine ⟨_, rfl, rfl, hshows', hframe, fun new hnew => ?_⟩
    cases hnew
    exact hcarries

/-- **A change of size of a live allocation follows the plan** and carries the payload along, up to
    the smaller of the two sizes. -/
theorem resize_live (hs : Shows r h m p) (hf : p.live? r addr = some f) (hn : n ≠ 0) :
    FollowsCarrying (Shows r) r (p.others r (some addr)) m (h.resize m (some addr) n)
      (p.resize r .scan (some addr) n).1 (p.resize r .scan (some addr) n).2 addr
      (min (f.cell.size - a.bytes) n) := by
  unfold ScanHeap.resize Plan.resize
  simp only [hs.region_eq, hs.live?_eq, hf, if_neg hn, bind, Except.bind, Option.map_some]
  cases hneed : a.blockSize? (Strategy.scan.minPayload a) n with
  | none => exact ⟨_, rfl, rfl, hs, .refl _ _, fun _ hnew => nomatch hnew⟩
  | some need =>
    have hserves := Strategy.blockSize?_spec hneed
    unfold Plan.refit
    by_cases hle : need ≤ f.cell.size
    · obtain ⟨m', hsplit, hshows, hm, hcarries⟩ := hs.shrink hf hserves hle
      simp only [if_pos hle, Focus.live, hsplit, pure, Except.pure]
      refine ⟨_, rfl, rfl, hshows, hm, fun new hnew => ?_⟩
      cases hnew
      exact hcarries
    · have hplan : Plan.grow? a .scan need f p.order = none := rfl
      simp only [Focus.live, hle, if_false, hplan]
      exact hs.relocate hf hserves

/-- **A change of size changes nothing** if the block fits the bytes asked for. -/
theorem resize_fits (hs : Shows r h m p) (hf : p.live? r addr = some f)
    (hfit : Strategy.scan.Fits a n f.cell.size) :
    h.resize m (some addr) n = .ok ⟨h, m, some addr, [.shrunk addr n]⟩ := by
  obtain ⟨need, hneed, hsnug⟩ := hfit
  have hmem := (mem_inUse.mp (Plan.live?_mem hf).1).1
  have hsplit := hs.laid.scanSplit_snug hmem hsnug
  unfold ScanHeap.resize
  simp only [hs.region_eq, hs.live?_eq, hf, if_neg (Alignment.ne_zero_of_blockSize? hneed), hneed,
    Focus.live, if_pos hsnug.le, hsplit, bind, Except.bind, Option.map_some]
  rfl

/-- **A change of size follows the plan.** -/
theorem resize (hs : Shows r h m p) (addr? : Option Nat) (n : Nat) :
    Follows (Shows r) r (p.others r addr?) m (h.resize m addr? n) (p.resize r .scan addr? n).1
      (p.resize r .scan addr? n).2 := by
  cases addr? with
  | none =>
    rw [Plan.others_none]
    exact hs.allocate n
  | some addr =>
    by_cases hn : n = 0
    · obtain ⟨o, hrelease, -, hshows, hm⟩ := hs.release addr
      unfold ScanHeap.resize Plan.resize
      simp only [if_pos hn, hrelease, bind, Except.bind]
      exact ⟨_, rfl, rfl, hshows, hm⟩
    · cases hf : p.live? r addr with
      | some f => exact (hs.resize_live hf hn).follows
      | none =>
        unfold ScanHeap.resize Plan.resize
        simp only [hs.region_eq, hs.live?_eq, hf, if_neg hn, bind, Except.bind, Option.map_none]
        exact ⟨_, rfl, rfl, hs, .refl _ _⟩

/-- The number of usable bytes is that of the plan. -/
theorem usableSize (hs : Shows r h m p) (addr : Nat) :
    h.usableSize m addr = .ok (p.usable r addr) := by
  unfold ScanHeap.usableSize Plan.usable
  simp only [hs.region_eq, hs.live?_eq, bind, Except.bind]
  cases hf : p.live? r addr with
  | none => rfl
  | some f =>
    have hmem := (mem_inUse.mp (Plan.live?_mem hf).1).1
    simp only [Option.map_some, Focus.usable_eq hs.laid hmem]
    rfl

/-- **The heap passes the validation.** -/
theorem validate (hs : Shows r h m p) : h.validate m = .ok ⟨.ok (), [], []⟩ := by
  have haudit := hs.laid.audit_eq false fun h => nomatch h
  unfold ScanHeap.validate
  simp only [hs.region_eq, haudit, bind, Except.bind]
  rfl

end Shows

/-! ## 3. New regions -/

/-- **A heap that was laid out over an accepted range** has one free block. -/
theorem init_ok {addr len : Nat} (m : Memory)
    (hr : ofRange? a (Strategy.scan.minBlock a) addr len = .ok r) :
    ∃ o, ScanHeap.init m addr len = .ok o ∧ o.value = .ok () ∧
      Shows r o.heap o.memory (.fresh r .scan) ∧
      Memory.AgreeOutside (Memory.Between r.base (r.base + r.size)) m o.memory := by
  obtain ⟨-, -, hmin⟩ := ofRange?_eq_ok hr
  obtain ⟨m1, hset, hlaid, hm⟩ := laid_single (c := ⟨0, r.size, false⟩) rfl rfl hmin (r.clear m)
  unfold ScanHeap.init
  simp only [hr, hset, bind, Except.bind, pure, Except.pure]
  exact ⟨_, rfl, rfl, ⟨rfl, hlaid, Strategy.settled_fresh r .scan⟩, (agreeOutside_clear r m).trans hm⟩

end ScanHeap

end RegionHeap
