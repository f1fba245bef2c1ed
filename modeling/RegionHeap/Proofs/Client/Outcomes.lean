import RegionHeap.Proofs.Client.Fragmentation
import RegionHeap.Proofs.Client.Preservation
import RegionHeap.Proofs.Heap.Intact
import RegionHeap.Proofs.Plan.Refitting

/-!
# What the requests make of a listing heap

In every state that a run leads to, the walk over the blocks and the list of the free ones are
known, and each request turns them into others that are known as well.

* `World.Lists` -- the blocks of the walk and the nodes of the list, as a plan;
* `World.release_vacates` -- the release of a live allocation frees its block and merges it with the
  free neighbours;
* `World.allocate_first_fit` -- an allocation succeeds exactly if there is a gap for it, and takes
  the first block of the list that is large enough;
* `World.resize_in_place_or_moves` -- a change of size is made in place exactly if there is room,
  and leads to the first block of the list that is large enough otherwise.
-/

namespace RegionHeap

variable {a : Alignment} {w w' : World a} {d : Draft a} {r : Region a} {p : Plan}
  {addr u n need : Nat}

namespace World

/-! ## 1. Blocks and list -/

/-- The heap has laid out the region: the walk over the blocks comes to the cells of the plan, which
    tile the region without two free neighbours, and its list is a doubly linked list of the free
    ones in the order of the plan. -/
structure Lists (w : World a) (r : Region a) (p : Plan) : Prop where
  region : w.heap.region = some r
  tiled : Tiled a (Strategy.list.minBlock a) 0 p.cells r.size
  intact : r.Intact w.memory w.heap.head (p.cells.map (Cell.block a)) p.order

theorem lists_of_shows (hs : w.heap.Shows r .list w.memory p) : w.Lists r p := by
  refine ⟨hs.region_eq, hs.tiled, ?_⟩
  obtain ⟨heap, m⟩ := w
  cases hs with
  | list hs => exact hs.intact

/-- What is granted is the payload of a cell in use, at a known place in the plan. -/
theorem Matches.exists_cell (h : Matches .list d w) (hu : w.Grants addr u) :
    ∃ r front c back order, w.heap.Shows r .list w.memory ⟨front ++ c :: back, order⟩ ∧
      Plan.live? r addr ⟨front ++ c :: back, order⟩ = some ⟨front, c, back⟩ ∧
      c.used = true ∧ c.payload r = addr ∧ c.size - a.bytes = u := by
  obtain ⟨r, ⟨cells, order⟩, ⟨front, c, back⟩, -, hs, hf, rfl⟩ := h.exists_live? hu
  obtain ⟨hcells, hused, rfl⟩ := Plan.live?_eq_some hf
  obtain rfl : cells = front ++ c :: back := hcells
  exact ⟨r, front, c, back, order, hs, hf, hused, rfl, rfl⟩

/-! ## 2. Release -/

/-- What is granted at other addresses is granted after a release. -/
theorem grants_of_release (hs : w.heap.Shows r .list w.memory p)
    (hs' : w'.heap.Shows r .list w'.memory (p.release r .list addr)) {addr' u' : Nat}
    (hne : addr' ≠ addr) (hu : w.Grants addr' u') : w'.Grants addr' u' := by
  obtain ⟨c, hc, rfl, rfl⟩ := (grants_iff hs).mp hu
  refine (grants_iff hs').mpr ⟨c, ?_, rfl, rfl⟩
  rw [Plan.mem_inUse_release hs.tiled, Plan.mem_others]
  exact ⟨hc, fun e => hne (Option.some.inj e).symm⟩

/-- **A release has the same effect in every state that a run leads to.** Let a live allocation lie
    in the block `c` between those of `front` and `back`. Its free neighbours and the block become
    one free block, with the bytes of them all, and the list changes as `Plan.Vacated` says for the
    kind of neighbours. All other blocks stay as they are, and so do the payloads of all other
    allocations. -/
theorem release_vacates (m : Memory) (acts : List Action) :
    ∃ (w : World a) (trace : List (Action × Answer a)), (fresh .list m).run acts = .ok (w, trace) ∧
      ∀ addr u, w.Grants addr u →
        ∃ r front c back order, w.Lists r ⟨front ++ c :: back, order⟩ ∧
          c.used = true ∧ c.payload r = addr ∧ c.size - a.bytes = u ∧
          ∃ w' p', w.serve (.release addr) = .ok (w', .done) ∧ w'.Lists r p' ∧
            Plan.Vacated c front back order p' ∧
            ∀ addr' u', addr' ≠ addr → w.Grants addr' u' → w'.Grants addr' u' ∧
              w'.memory.readBytes addr' u' = w.memory.readBytes addr' u' := by
  obtain ⟨w, trace, hrun, hw, -⟩ := (matches_fresh (a := a) .list m).run acts
  refine ⟨w, trace, hrun, fun addr u hu => ?_⟩
  obtain ⟨r, front, c, back, order, hs, hf, hused, hpayload, hsize⟩ := hw.exists_cell hu
  obtain ⟨o, hstep, -, hs', -⟩ := hs.release addr
  have hserve := serve_release hstep
  refine ⟨r, front, c, back, order, lists_of_shows hs, hused, hpayload, hsize, ⟨o.heap, o.memory⟩,
    Plan.release r .list addr ⟨front ++ c :: back, order⟩, hserve, lists_of_shows hs', ?_, ?_⟩
  · rw [Plan.release, hf]
    exact Plan.vacated_free hs.tiled Strategy.list.minBlock_pos
  · intro addr' u' hne hu'
    refine ⟨grants_of_release hs hs' hne hu', hw.readBytes_eq hserve ?_ hu'⟩
    exact fun e => hne (Option.some.inj e).symm

/-! ## 3. Allocation -/

/-- **An allocation is a complete first fit** in every state that a run leads to. It succeeds exactly
    if one of the gaps between neighbouring allocations, or between an allocation and an end of the
    region, has the bytes that the block needs. Then it answers the payload of the first block of
    the list that has them; that block is put into use, as a whole or without a rest that is listed
    first, and all other blocks stay as they are. Without a region nothing is served. -/
theorem allocate_first_fit (m : Memory) (acts : List Action) :
    ∃ (w : World a) (trace : List (Action × Answer a)), (fresh .list m).run acts = .ok (w, trace) ∧
      (w.heap.region = none → ∀ n, w.Refuses n) ∧
      ∀ r, w.heap.region = some r → ∃ p, w.Lists r p ∧
        ∀ n need, a.blockSize? (Strategy.list.minPayload a) n = some need →
          ∃ w' new? p', w.serve (.allocate n) = .ok (w', .address new?) ∧ w'.Lists r p' ∧
            (new? ≠ none ↔ ∃ g ∈ gaps 0 (inUse p.cells) r.size, need ≤ g) ∧
            (new? = none → p' = p) ∧
            ∀ new, new? = some new → ∃ front c back, p.cells = front ++ c :: back ∧
              p.FirstFit need c ∧ new = c.payload r ∧
              Plan.Taken a need c front back p.order p' := by
  obtain ⟨w, trace, hrun, hw, -⟩ := (matches_fresh (a := a) .list m).run acts
  refine ⟨w, trace, hrun, fun hr n => ?_, fun r hr => ?_⟩
  · exact refuses_blank (hw.heap_eq_empty hr) n
  · obtain ⟨p, hs⟩ := hw.exists_shows hr
    refine ⟨p, lists_of_shows hs, fun n need hneed => ?_⟩
    have hpos : 0 < need := Nat.lt_of_lt_of_le Strategy.list.minBlock_pos
      (Strategy.blockSize?_spec hneed).minBlock_le
    have hnone := Plan.allocate_list_eq_none_iff (r := r) hs.tiled hs.settled hneed
    obtain ⟨o, hstep, hvalue, hs', -⟩ := hs.allocate n
    refine ⟨⟨o.heap, o.memory⟩, (p.allocate r .list n).1, (p.allocate r .list n).2,
      hvalue ▸ serve_allocate hstep, lists_of_shows hs', ?_, Plan.allocate_none, ?_⟩
    · rw [Ne, hnone, exists_gap_iff hs.tiled hs.settled.1 hpos]
      push Not
      rfl
    · exact fun new hnew => Plan.allocate_list_eq_some hs.tiled hs.settled hneed hnew

/-! ## 4. Change of size -/

/-- **A change of size is decided by the neighbourhood** in every state that a run leads to. Let a
    live allocation lie in the block `c` between those of `front` and `back`. It keeps its address
    exactly if the block and the free one behind it have the bytes together, and is refitted in
    place. Otherwise it moves to the first block of the list that has the bytes, and its old block
    is released; if there is none, it is refused and everything stays as it is. -/
theorem resize_in_place_or_moves (m : Memory) (acts : List Action) :
    ∃ (w : World a) (trace : List (Action × Answer a)), (fresh .list m).run acts = .ok (w, trace) ∧
      ∀ addr u, w.Grants addr u →
        ∃ r front c back order, w.Lists r ⟨front ++ c :: back, order⟩ ∧
          c.used = true ∧ c.payload r = addr ∧
          ∀ n need, a.blockSize? (Strategy.list.minPayload a) n = some need →
            ∃ w' new? p', w.serve (.resize (some addr) n) = .ok (w', .address new?) ∧
              w'.Lists r p' ∧ Plan.Resized r need front c back order new? p' := by
  obtain ⟨w, trace, hrun, hw, -⟩ := (matches_fresh (a := a) .list m).run acts
  refine ⟨w, trace, hrun, fun addr u hu => ?_⟩
  obtain ⟨r, front, c, back, order, hs, hf, hused, rfl, -⟩ := hw.exists_cell hu
  refine ⟨r, front, c, back, order, lists_of_shows hs, hused, rfl, fun n need hneed => ?_⟩
  obtain ⟨o, hstep, hvalue, hs', -⟩ := hs.resize (some (c.payload r)) n
  rw [Plan.resize_eq_refit hf hneed] at hvalue hs'
  refine ⟨⟨o.heap, o.memory⟩, _, _, hvalue ▸ serve_resize hstep, lists_of_shows hs', ?_⟩
  exact Plan.resized_refit hs.tiled hs.settled hused (Strategy.blockSize?_spec hneed)

end World

end RegionHeap
