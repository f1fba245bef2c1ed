import RegionHeap.Proofs.Heap.Intact
import RegionHeap.Proofs.Heap.Scanning
import RegionHeap.Proofs.Layout.Standing

/-!
# Intact scanning heaps

What it means for a scanning heap to be intact, said of the walk over the blocks with no plan in between:
well-formed blocks pave the region. Free neighbours may stand side by side, and a release leaves them so.

* `Block.total`, `Block.Contiguous.total_eq` -- the bytes of the allocated blocks and of the free ones;
  together they are all there are;
* `Region.Paved`, `Laid.paved` -- well-formed blocks pave the region, and every layout is such a paving;
* `Region.Freed`, `Laid.clearFlag` -- the flag of one block is cleared, and nothing else changes;
* `ScanHeap.Shows.release_live` -- that is what the release of a live allocation does.
-/

namespace RegionHeap

namespace Block

variable {a : Alignment} {b : Block a} {bs : List (Block a)}

/-- The bytes of the blocks that are allocated, or those of the free ones, headers included. -/
def total (used : Bool) : List (Block a) → Nat
  | [] => 0
  | b :: bs => (if decide b.header.Allocated = used then b.size else 0) + total used bs

/-- **No byte is lost**: allocated and free blocks make up the whole range. -/
theorem Contiguous.total_eq {lo hi : Nat} (h : Contiguous lo bs hi) :
    lo + (total true bs + total false bs) = hi := by
  induction bs generalizing lo with
  | nil => exact h
  | cons b bs ih =>
    obtain ⟨rfl, h⟩ := h
    have hrest := ih h
    unfold next at hrest
    by_cases hb : b.header.Allocated
    · simp only [total, hb, decide_true, if_true, Bool.true_eq_false, if_false]
      omega
    · simp only [total, hb, decide_false, if_true, Bool.false_eq_true, if_false]
      omega

end Block

namespace Region

open Memory (AgreeOutside)

variable {a : Alignment} {r : Region a} {m m' : Memory} {cs front back : List Cell} {c : Cell}

/-- Well-formed blocks pave the region. -/
structure Paved (r : Region a) (m : Memory) (bs : List (Block a)) : Prop where
  /-- They are the blocks of the walk. -/
  walk : r.blocks m = .ok bs
  /-- They lie one after the other, from the first byte to the last. -/
  contiguous : Block.Contiguous 0 bs r.size
  /-- No header has reserved bits, and no block is too small. -/
  wellFormed : ∀ b ∈ bs, ¬ b.header.Reserved ∧ Strategy.scan.minBlock a ≤ b.size
  /-- The allocated blocks and the free ones have the bytes of the region. -/
  total_eq : Block.total true bs + Block.total false bs = r.size

/-- **A layout in memory is a paving.** -/
theorem Laid.paved (h : r.Laid .scan m cs) : r.Paved m (cs.map (Cell.block a)) := by
  have hcont : Block.Contiguous 0 (cs.map (Cell.block a)) r.size := contiguous_of_tiled h.tiled
  refine ⟨h.blocks_eq, hcont, fun b hb => ?_, ?_⟩
  · obtain ⟨c, hc, rfl⟩ := List.mem_map.mp hb
    have hsize : (c.block a).size = c.size := Cell.header_size (h.bounds hc).size_mod
    exact ⟨Cell.header_not_reserved, hsize ▸ (h.bounds hc).min_le⟩
  · rw [← hcont.total_eq, Nat.zero_add]

/-- The allocated block `b` of the walk becomes free, between the blocks `pre` and `post`: its header
    loses its lowest bit. No other byte of memory changes, so no block is merged, cut or lost. -/
structure Freed (r : Region a) (m m' : Memory) (pre : List (Block a)) (b : Block a)
    (post : List (Block a)) : Prop where
  /-- The blocks before. -/
  before : r.blocks m = .ok (pre ++ b :: post)
  /-- The block was allocated. -/
  allocated : b.header.Allocated
  /-- It has lost its flag and nothing else. -/
  raw_eq : (b.flagged false).header.raw + 1 = b.header.raw
  /-- The blocks afterwards: all others are as they were. -/
  after : r.blocks m' = .ok (pre ++ b.flagged false :: post)
  /-- Nothing but the first byte of the header was written. -/
  frame : AgreeOutside (fun x => x = r.base + b.offset) m m'

/-- The block of a cell with another flag. -/
theorem block_flagged (hmod : c.size % a.bytes = 0) (used : Bool) :
    ({ c with used := used } : Cell).block a = (c.block a).flagged used := by
  have hsize : (c.block a).size = c.size := Cell.header_size hmod
  unfold Block.flagged
  rw [hsize]
  rfl

/-- **A cell in use becomes free** when its header is written without the flag. -/
theorem Laid.clearFlag (h : r.Laid .scan m (front ++ c :: back)) (hused : c.used = true) :
    ∃ m', r.setHeader m c.offset (.ofSize c.size false) = .ok m' ∧
      r.Freed m m' (front.map (Cell.block a)) (c.block a) (back.map (Cell.block a)) := by
  have hmem : c ∈ front ++ c :: back := List.mem_append_right _ List.mem_cons_self
  have hflag := block_flagged (h.bounds hmem).size_mod false
  have hraw : (c.header a).raw = (Header.ofSize c.size false : Header a).raw + 1 := by
    unfold Cell.header
    rw [hused]
    rfl
  have hword : m.readWord (r.base + (c.block a).offset) = (c.header a).raw := h.holds c hmem
  obtain ⟨m', hset, hlaid, -⟩ := h.setFlag false
  have hafter := hlaid.blocks_eq
  rw [List.map_append, List.map_cons, hflag] at hafter
  have hbefore := h.blocks_eq
  rw [List.map_append, List.map_cons] at hbefore
  refine ⟨m', hset, hbefore, Cell.header_allocated.mpr hused, ?_, hafter, ?_⟩
  · rw [← hflag]
    show (Header.ofSize c.size false : Header a).raw + 1 = (c.header a).raw
    rw [hraw]
  · have heven : ¬ (Header.ofSize c.size false : Header a).Allocated := by simp
    rw [setHeader_eq_ok (h.isHeaderOffset hmem).hasWord] at hset
    obtain rfl := Except.ok.inj hset
    refine Memory.agreeOutside_writeWord_lowest ?_
    rw [hword, hraw]
    unfold Header.Allocated at heven
    omega

end Region

namespace ScanHeap

open Region

variable {a : Alignment} {r : Region a} {h : ScanHeap a} {m : Memory} {p : Plan} {f : Focus}
  {addr : Nat}

/-- **The release of a live allocation clears its flag**, and changes nothing else. -/
theorem Shows.release_live (hs : Shows r h m p) (hf : p.live? r addr = some f) :
    ∃ o, h.release m addr = .ok o ∧ o.heap = h ∧
      r.Freed m o.memory (f.front.map (Cell.block a)) (f.cell.block a)
        (f.back.map (Cell.block a)) := by
  obtain ⟨hcells, hused, -⟩ := Plan.live?_eq_some hf
  have hlaid : r.Laid .scan m (f.front ++ f.cell :: f.back) := hcells ▸ hs.laid
  obtain ⟨m', hset, hfreed⟩ := hlaid.clearFlag hused
  unfold ScanHeap.release
  simp only [hs.region_eq, hs.live?_eq, hf, Option.map_some, Focus.live, hset, bind, Except.bind,
    pure, Except.pure]
  exact ⟨_, rfl, rfl, hfreed⟩

end ScanHeap

end RegionHeap
