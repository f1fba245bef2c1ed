import RegionHeap.Proofs.Client.Fragmentation
import RegionHeap.Proofs.Client.Refusal
import RegionHeap.Proofs.Heap.Paved
import RegionHeap.Proofs.Plan.LowestFit

/-!
# What the requests make of a scanning heap

In every state that a run leads to, the walk over the blocks is known, and each request turns it into
another one that is known as well.

* `World.Paves` -- the blocks of the walk, as cells in address order;
* `World.scan_lowest_fit` -- an allocation takes the lowest free block that is large enough; a change
  of size is made in place exactly if the block suffices, and otherwise goes where an allocation goes.
-/

namespace RegionHeap.World

variable {a : Alignment} {w : World a} {r : Region a} {p : Plan}

/-! ## 1. Blocks -/

/-- The heap has laid out the region: the walk over the blocks comes to the cells, which tile the
    region, and all of its headers are well-formed. -/
structure Paves (w : World a) (r : Region a) (cells : List Cell) : Prop where
  region : w.heap.region = some r
  tiled : Tiled a (Strategy.scan.minBlock a) 0 cells r.size
  paved : r.Paved w.memory (cells.map (Cell.block a))

theorem paves_of_shows (hs : w.heap.Shows r .scan w.memory p) : w.Paves r p.cells :=
  ⟨hs.region_eq, hs.tiled, hs.laid.paved⟩

/-! ## 2. Requests -/

/-- **A scanning heap is served from the lowest fit** in every state that a run leads to. An allocation
    succeeds exactly if a free block has the bytes that are needed. It is answered with the payload of
    the first such block in address order; that block is put into use, as a whole or without a rest
    that is a free block, and all others stay as they are. To change its size, a live allocation in
    the block `c` keeps its address exactly if `c` has the bytes, and is cut in the same way. Otherwise
    the answer is that of the allocation, and never the old address: the old block is free then, or
    everything is as it was. Without a region nothing is served. -/
theorem scan_lowest_fit (m : Memory) (acts : List Action) :
    ∃ (w : World a) (trace : List (Action × Answer a)), (fresh .scan m).run acts = .ok (w, trace) ∧
      (w.heap.region = none → ∀ n, w.Refuses n) ∧
      ∀ r, w.heap.region = some r → ∃ cells, w.Paves r cells ∧
        ∀ n need, a.blockSize? (Strategy.scan.minPayload a) n = some need →
          ∃ w1 new? cells1, w.serve (.allocate n) = .ok (w1, .address new?) ∧
            w1.Paves r cells1 ∧ (new? = none → w1 = w) ∧
            Plan.ServedByScan r need cells new? cells1 ∧
            ∀ addr u, w.Grants addr u → ∃ front c back, cells = front ++ c :: back ∧
              c.used = true ∧ c.payload r = addr ∧ c.size - a.bytes = u ∧
              ∃ w2 moved? cells2, w.serve (.resize (some addr) n) = .ok (w2, .address moved?) ∧
                w2.Paves r cells2 ∧ (moved? = none → w2 = w) ∧
                Plan.ResizedByScan r need front c back new? cells1 moved? cells2 := by
  obtain ⟨w, trace, hrun, hw, -⟩ := (matches_fresh (a := a) .scan m).run acts
  refine ⟨w, trace, hrun, fun hr n => ?_, fun r hr => ?_⟩
  · exact refuses_blank (hw.heap_eq_empty hr) n
  · obtain ⟨p, hs⟩ := hw.exists_shows hr
    refine ⟨p.cells, paves_of_shows hs, fun n need hneed => ?_⟩
    obtain ⟨w1, hserve, hs1, -⟩ := allocate_of_shows hs n
    refine ⟨w1, _, _, hserve, paves_of_shows hs1, ?_, Plan.served_scan hs.tiled hneed,
      fun addr u hu => ?_⟩
    · exact eq_of_allOrNothing (w.heap.allocate_allOrNothing w.memory n) hserve
    · obtain ⟨front, c, back, hf, hcells, hused, hpayload, hsize⟩ := exists_focus_of_grants hs hu
      obtain ⟨w2, hserve', hs2, -⟩ := resize_of_shows hs (some addr) n
      refine ⟨front, c, back, hcells, hused, hpayload, hsize, w2, _, _, hserve', paves_of_shows hs2,
        ?_, Plan.resized_scan hs.tiled hs.settled hf hneed⟩
      have hn : n ≠ 0 := Alignment.ne_zero_of_blockSize? hneed
      exact eq_of_allOrNothing (w.heap.resize_allOrNothing w.memory (.inl hn)) hserve'

end RegionHeap.World
