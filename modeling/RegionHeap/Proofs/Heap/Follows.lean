import RegionHeap.Heap.Outcome
import RegionHeap.Proofs.Layout.Edit
import RegionHeap.Proofs.Plan.Effects
import RegionHeap.Proofs.Request
import RegionHeap.Region.Claim

/-!
# What it means to follow a plan

A heap follows its plan if each operation gives the answer that the plan gives and leads to a heap
and a memory that hold the new plan. Besides, no operation writes outside the bytes that are spare
for the cells in use, except to the cell that it is about.

* `Follows` -- one operation does what the plan says;
* `Plan.fresh` -- the plan of a heap that has just taken over a region;
* `Plan.relocate_carries` -- a block is carved, bytes are copied and the old block is freed: the
  bytes arrive, and no other cell in use is touched.

All of this is the same for the two strategies.
-/

namespace RegionHeap

/-- The step succeeds with the given answer, leads to a heap and a memory that hold the plan, and
    writes to bytes only that are spare for the given cells. -/
def Follows {a : Alignment} {H V : Type} (shows : H → Memory → Plan → Prop) (r : Region a)
    (us : List Cell) (m : Memory) (step : Except Fault (Outcome a H V)) (v : V) (p : Plan) : Prop :=
  ∃ o, step = .ok o ∧ o.value = v ∧ shows o.heap o.memory p ∧
    Memory.AgreeOutside (r.Spare us) m o.memory

/-- The step follows the plan, and if the answer is an address, the `n` bytes that were at `src` are
    found there afterwards. -/
def FollowsCarrying {a : Alignment} {H : Type} (shows : H → Memory → Plan → Prop) (r : Region a)
    (us : List Cell) (m : Memory) (step : Except Fault (Outcome a H (Option Nat))) (v : Option Nat)
    (p : Plan) (src n : Nat) : Prop :=
  ∃ o, step = .ok o ∧ o.value = v ∧ shows o.heap o.memory p ∧
    Memory.AgreeOutside (r.Spare us) m o.memory ∧ ∀ new, v = some new →
      Memory.Carries m o.memory src new n

theorem FollowsCarrying.follows {a : Alignment} {H : Type} {shows : H → Memory → Plan → Prop}
    {r : Region a} {us : List Cell} {m : Memory} {step : Except Fault (Outcome a H (Option Nat))}
    {v : Option Nat} {p : Plan} {src n : Nat} (h : FollowsCarrying shows r us m step v p src n) :
    Follows shows r us m step v p := by
  obtain ⟨o, hstep, hvalue, hshows, hm, -⟩ := h
  exact ⟨o, hstep, hvalue, hshows, hm⟩

/-- The plan of a heap over a new region: one free block, which is listed if free blocks are. -/
def Plan.fresh {a : Alignment} (r : Region a) (s : Strategy) : Plan :=
  ⟨[⟨0, r.size, false⟩], enter s 0 []⟩

namespace Region

variable {a : Alignment} {r : Region a} {s : Strategy} {min addr len : Nat}

/-! ## 1. New regions -/

/-- What is known of a region that was accepted. -/
theorem ofRange?_eq_ok (h : ofRange? a min addr len = .ok r) :
    r.base = addr ∧ r.size = a.alignDown len ∧ min ≤ r.size := by
  unfold ofRange? at h
  split at h
  · split at h
    · cases h
    · split at h
      · rename_i hmin _
        cases h
        exact ⟨rfl, rfl, Nat.not_lt.mp hmin⟩
      · cases h
  · cases h

/-- A region is cleared without a write outside of it. -/
theorem agreeOutside_clear (r : Region a) (m : Memory) :
    Memory.AgreeOutside (Memory.Between r.base (r.base + r.size)) m (r.clear m) := by
  have h := Memory.agreeOutside_writeBytes m r.base (List.replicate r.size 0)
  rwa [List.length_replicate] at h

/-- A single header makes a layout of one block. -/
theorem laid_single {c : Cell} (ho : c.offset = 0) (hend : c.size = r.size)
    (hmin : s.minBlock a ≤ r.size) (m : Memory) :
    ∃ m', r.setHeader m c.offset (.ofSize c.size c.used) = .ok m' ∧ r.Laid s m' [c] ∧
      Memory.AgreeOutside (Memory.Between r.base (r.base + r.size)) m m' := by
  have ht : Tiled a (s.minBlock a) 0 [c] r.size := by
    refine ⟨ho, hend ▸ r.size_mod, hend ▸ hmin, ?_⟩
    show c.offset + c.size = r.size
    omega
  have hb := ht.bounds List.mem_cons_self
  refine ⟨_, setHeader_eq_ok (ht.isHeaderOffset List.mem_cons_self).hasWord, ⟨ht, fun d hd => ?_⟩,
    (Memory.agreeOutside_writeWord m _ _).mono fun x hx => ?_⟩
  · rw [List.mem_singleton.mp hd]
    exact Laid.readWord_writeHeader m hb.next_le
  · have h1 := s.bytes_le_minBlock (a := a)
    have h2 := a.wordSize_le_bytes
    unfold Memory.Between at hx ⊢
    omega

end Region

namespace Strategy

theorem settled_fresh {a : Alignment} (r : Region a) (s : Strategy) :
    (Plan.fresh r s).Settled s := by
  cases s with
  | scan => rfl
  | list => exact ⟨List.isChain_singleton _, List.Perm.refl _⟩

end Strategy

/-- The payload of an allocation is what lies behind the header of its cell. -/
theorem Focus.usable_eq {a : Alignment} {r : Region a} {s : Strategy} {m : Memory} {f : Focus}
    {cs : List Cell} (h : r.Laid s m cs) (hc : f.cell ∈ cs) :
    f.live.usable a = .ok (f.cell.size - a.bytes) :=
  Word.sub_eq_ok (Nat.le_trans s.bytes_le_minBlock (h.bounds hc).min_le)

namespace Plan

variable {a : Alignment} {r : Region a} {s : Strategy} {p p' : Plan} {f : Focus}
  {need n off addr : Nat} {m m1 m3 : Memory} {c : Cell}

/-! ## 2. Live allocations -/

/-- The heap finds the live allocation of the plan. -/
theorem live?_eq (h : r.Laid s m p.cells) (addr : Nat) :
    r.live? m (s.minBlock a) addr = .ok ((p.live? r addr).map Focus.live) :=
  h.live?_eq addr

theorem others_none : p.others r none = inUse p.cells := by
  simp [others]

/-- Where nothing is live, an operation is about no cell in use. -/
theorem others_of_dead (ht : Tiled a (s.minBlock a) 0 p.cells r.size)
    (h : p.live? r addr = none) : p.others r (some addr) = inUse p.cells := by
  refine List.filter_eq_self.mpr fun c hc => decide_eq_true fun e => ?_
  obtain ⟨f, hf, -⟩ := exists_live? ht hc
  rw [← Option.some.inj e, h] at hf
  cases hf

/-! ## 3. Relocation -/

/-- A carved block takes its bytes from a free cell, so they are spare for the cells in use, and the
    cells in use are the old ones and the new one. -/
theorem carve?_spec (ht : Tiled a (s.minBlock a) 0 p.cells r.size)
    (hlist : ∀ x ∈ p.order, x ∈ vacant p.cells) (h : p.carve? a s need = some (off, p')) :
    ∃ size, s.Snug a need size ∧ ⟨off, size, true⟩ ∈ inUse p'.cells ∧
      (∀ c ∈ inUse p.cells, c ∈ inUse p'.cells) ∧
      (∀ c ∈ inUse p'.cells, c ∈ inUse p.cells ∨ c = ⟨off, size, true⟩) ∧
      ∀ x, (⟨off, size, true⟩ : Cell).Covers r.base x → r.Spare (inUse p.cells) x := by
  obtain ⟨f, -, hcells, hfree, hneed, rfl, rfl⟩ := carve?_eq_some hlist ht h
  have hbefore : inUse p.cells = inUse f.front ++ inUse f.back := by
    rw [hcells, inUse_append, inUse_cons_of_free hfree]
  refine ⟨keptSize a s need f.cell.size, snug_keptSize hneed, ?_, fun c hc => ?_, fun c hc => ?_,
    fun x hx => ?_⟩
  · rw [inUse_splitTail]
    exact List.mem_append_right _ List.mem_cons_self
  · rw [hbefore] at hc
    rw [inUse_splitTail]
    simp only [List.mem_append, List.mem_cons] at hc ⊢
    exact hc.imp_right .inr
  · rw [inUse_splitTail] at hc
    rw [hbefore]
    simp only [List.mem_append, List.mem_cons] at hc ⊢
    tauto
  · refine Region.spare_of_free ht (c := f.cell) ?_ hfree ?_
    · rw [hcells]
      exact List.mem_append_right _ List.mem_cons_self
    · have hle : keptSize a s need f.cell.size ≤ f.cell.size := by
        unfold keptSize
        split
        · exact Nat.le_refl _
        · exact hneed
      have h2 : x < r.base + (f.cell.offset + keptSize a s need f.cell.size) := hx.2
      have h1 : r.base + f.cell.offset ≤ x := hx.1
      unfold Cell.Covers Cell.next
      omega

/-- No cell in use begins where all bytes of a block are spare. -/
theorem offset_ne_of_spare {c : Cell} {size : Nat} (ht : Tiled a (s.minBlock a) 0 p.cells r.size)
    (hsize : 0 < size)
    (hspare : ∀ x, (⟨off, size, true⟩ : Cell).Covers r.base x → r.Spare (inUse p.cells) x)
    (hc : c ∈ inUse p.cells) : c.offset ≠ off := by
  intro e
  have hself : (⟨off, size, true⟩ : Cell).Covers r.base (r.base + off) :=
    ⟨Nat.le_refl _, Nat.add_lt_add_left (Nat.lt_add_of_pos_right hsize) _⟩
  have hmin := (ht.bounds (mem_inUse.mp hc).1).min_le
  have hpos := s.minBlock_pos (a := a)
  refine (hspare _ hself).2 c hc ?_
  unfold Cell.Covers Cell.next
  omega

theorem others_subset {addr? : Option Nat} : ∀ c ∈ p.others r addr?, c ∈ inUse p.cells :=
  fun _ hc => (mem_others.mp hc).1

/-- **A relocation carries the bytes** to the new block and touches no other cell in use: from `m` to
    `m1` the new block is carved, then the bytes are copied, and up to `m3` the old block is freed. -/
theorem relocate_carries (ht : Tiled a (s.minBlock a) 0 p.cells r.size)
    (hlist : ∀ x ∈ p.order, x ∈ vacant p.cells) (hf : p.live? r addr = some f)
    (hcarve : p.carve? a s need = some (off, p')) (hneed : n + a.bytes ≤ need)
    (hm1 : Memory.AgreeOutside (r.Spare (inUse p.cells)) m m1)
    (hm3 : Memory.AgreeOutside (r.Spare (p'.others r (some addr)))
      (m1.copy addr (r.base + off + a.bytes) (min (f.cell.size - a.bytes) n)) m3) :
    Memory.AgreeOutside (r.Spare (p.others r (some addr))) m m3 ∧
      Memory.Carries m m3 addr (r.base + off + a.bytes) (min (f.cell.size - a.bytes) n) := by
  obtain ⟨size, ⟨hsize, -⟩, hnew, hold, -, hspare⟩ := carve?_spec ht hlist hcarve
  obtain ⟨hfmem, rfl⟩ := live?_mem hf
  have hpos := a.bytes_pos
  have hlen := Nat.min_le_right (f.cell.size - a.bytes) n
  have hlen' := Nat.min_le_left (f.cell.size - a.bytes) n
  have hcover : ∀ x, r.base + off + a.bytes ≤ x →
      x < r.base + off + a.bytes + min (f.cell.size - a.bytes) n →
      (⟨off, size, true⟩ : Cell).Covers r.base x := by
    intro x h1 h2
    show r.base + off ≤ x ∧ x < r.base + (off + size)
    omega
  have hne : f.cell.offset ≠ off :=
    offset_ne_of_spare ht (Nat.lt_of_lt_of_le (by omega) hsize) hspare hfmem
  have hnew' : (⟨off, size, true⟩ : Cell) ∈ p'.others r (some (f.cell.payload r)) := by
    refine mem_others.mpr ⟨hnew, fun e => hne ?_⟩
    have h1 : r.base + f.cell.offset + a.bytes = r.base + off + a.bytes := Option.some.inj e
    omega
  have hm2 := Memory.agreeOutside_copy m1 (f.cell.payload r) (r.base + off + a.bytes)
    (min (f.cell.size - a.bytes) n)
  constructor
  · refine ((hm1.mono fun x hx => hx.mono others_subset).trans (hm2.mono fun x hx => ?_)).trans
      (hm3.mono fun x hx => hx.mono fun c hc => ?_)
    · exact (hspare x (hcover x hx.1 hx.2)).mono others_subset
    · obtain ⟨hc, hne⟩ := mem_others.mp hc
      exact mem_others.mpr ⟨hold c hc, hne⟩
  · intro i hi
    have h1 := hm3 (r.base + off + a.bytes + i) fun hx =>
      hx.2 _ hnew' (hcover _ (Nat.le_add_right _ i) (Nat.add_lt_add_left hi _))
    have h2 := Memory.get_copy m1 (f.cell.payload r) (r.base + off + a.bytes) hi
    have h3 := hm1 (f.cell.payload r + i) fun hx => hx.2 f.cell hfmem (by
      unfold Cell.Covers Cell.next Cell.payload
      omega)
    rw [h1, h2, h3]

/-- The bytes of a live allocation can be copied to a carved block. -/
theorem copyPayload_eq {cs : List Cell} {src dst : Cell} (h : r.Laid s m cs) (hsrc : src ∈ cs)
    (hdst : dst ∈ cs) (hn : n + a.bytes ≤ dst.size) :
    r.copyPayload m src.offset dst.offset (min (src.size - a.bytes) n) =
      .ok (m.copy (src.payload r) (dst.payload r) (min (src.size - a.bytes) n)) := by
  have h1 : src.offset + a.bytes + min (src.size - a.bytes) n ≤ r.size := by
    have h2 := (h.bounds hsrc).next_le
    have h3 := (h.bounds hsrc).min_le
    have h4 := s.bytes_le_minBlock (a := a)
    unfold Cell.next at h2
    omega
  have h5 : dst.offset + a.bytes + min (src.size - a.bytes) n ≤ r.size := by
    have h6 := (h.bounds hdst).next_le
    unfold Cell.next at h6
    omega
  exact Region.copyPayload_eq_ok (h.isHeaderOffset hsrc) (h.isHeaderOffset hdst) h1 h5

/-- **The copy of a relocation** stays inside the payload of the carved block. -/
theorem relocate_copy (h : r.Laid s m p.cells) (hlist : ∀ x ∈ p.order, x ∈ vacant p.cells)
    (h' : r.Laid s m1 p'.cells) (hf : p.live? r addr = some f)
    (hcarve : p.carve? a s need = some (off, p')) (hserves : s.Serves a n need) :
    f.live.usable a = .ok (f.cell.size - a.bytes) ∧
      r.copyPayload m1 f.live.offset off (min (f.cell.size - a.bytes) n) =
        .ok (m1.copy addr (r.base + off + a.bytes) (min (f.cell.size - a.bytes) n)) ∧
      Memory.AgreeOutside (r.ClientBytes p'.cells) m1
        (m1.copy addr (r.base + off + a.bytes) (min (f.cell.size - a.bytes) n)) := by
  obtain ⟨size, hsize, hnew, hold, -⟩ := carve?_spec h.tiled hlist hcarve
  obtain ⟨hfmem, rfl⟩ := live?_mem hf
  have hfit : n + a.bytes ≤ size := Nat.le_trans hserves.payload_le hsize.le
  refine ⟨Focus.usable_eq h (mem_inUse.mp hfmem).1, ?_, ?_⟩
  · have hcopy := copyPayload_eq h' (mem_inUse.mp (hold _ hfmem)).1 (mem_inUse.mp hnew).1 hfit
    exact hcopy
  · refine (Memory.agreeOutside_copy m1 _ _ _).mono fun x hx =>
      .inr ⟨_, hnew, hx.1, Nat.lt_of_lt_of_le hx.2 ?_⟩
    have hlen := Nat.min_le_right (f.cell.size - a.bytes) n
    show r.base + off + a.bytes + _ ≤ r.base + (off + size)
    omega

end Plan

end RegionHeap
