import RegionHeap.Proofs.Client.Exclusivity
import RegionHeap.Proofs.Heap.Paved
import RegionHeap.Proofs.Heap.Toggled

/-!
# Heaps stay intact

Whatever a client asks for, and whatever it writes to its payloads, a heap is intact after every step:
the draft that it keeps to is a plan between two operations.

* `World.Matches.intact` -- a listing heap that keeps to a draft is intact and passes;
* `World.listing_intact` -- so it is after every run;
* `World.Matches.paved`, `World.Matches.frees` -- a scanning heap that keeps to a draft is intact and
  passes, and a release clears the flag of a block;
* `World.scanning_intact` -- so it is after every run;
* `World.toggled_flag_found` -- after every run, no flag of a listing heap can be turned over unseen.
-/

namespace RegionHeap.World

variable {a : Alignment} {w : World a} {d : Draft a} {r : Region a}

/-! ## 1. Listing heaps -/

/-- A listing heap that keeps to a draft is intact, and passes the validation. -/
theorem Matches.intact (h : Matches .list d w) (hr : w.heap.region = some r) :
    (∃ bs nodes, r.Intact w.memory w.heap.head bs nodes) ∧
      w.heap.validate w.memory = .ok ⟨.ok (), [], []⟩ := by
  obtain ⟨p, rfl⟩ := h.exists_plan hr
  have hs : w.heap.Shows r .list w.memory p := h
  refine ⟨?_, hs.validate⟩
  obtain ⟨heap, memory⟩ := w
  cases hs with
  | list hs => exact ⟨_, _, hs.intact⟩

/-- **A listing heap is intact after every run**, with whatever requests, arguments and writes of the
    client: its blocks tile the region, no two free ones are neighbours, and its list is a doubly
    linked list of exactly the free ones. So it passes the validation. A run may hand over a new
    region at any time: a range that is accepted becomes the region. -/
theorem listing_intact (m : Memory) (acts : List Action) :
    ∃ (w : World a) (trace : List (Action × Answer a)), (fresh .list m).run acts = .ok (w, trace) ∧
      (∀ r, w.heap.region = some r →
        (∃ bs nodes, r.Intact w.memory w.heap.head bs nodes) ∧
          w.heap.validate w.memory = .ok ⟨.ok (), [], []⟩) ∧
      ∀ addr len r, Region.ofRange? a (Strategy.list.minBlock a) addr len = .ok r →
        ∃ w', w.perform (.init addr len) = .ok (w', .claim (.ok ())) ∧
          w'.heap.region = some r := by
  obtain ⟨w, trace, hrun, hw, -⟩ := (matches_fresh (a := a) .list m).run acts
  refine ⟨w, trace, hrun, fun r hr => hw.intact hr, fun addr len r hr => ?_⟩
  obtain ⟨w', hinit, hw'⟩ := hw.perform_init hr
  exact ⟨w', hinit, Heap.Shows.region_eq (s := .list) hw'⟩

/-! ## 2. Scanning heaps -/

/-- The blocks of a scanning heap that keeps to a draft pave the region, and the heap passes the
    validation. -/
theorem Matches.paved (h : Matches .scan d w) (hr : w.heap.region = some r) :
    (∃ bs, r.Paved w.memory bs) ∧ w.heap.validate w.memory = .ok ⟨.ok (), [], []⟩ := by
  obtain ⟨p, rfl⟩ := h.exists_plan hr
  have hs : w.heap.Shows r .scan w.memory p := h
  exact ⟨⟨_, hs.laid.paved⟩, hs.validate⟩

/-- **The release of a live allocation clears the flag of its block.** -/
theorem Matches.frees {addr u : Nat} (h : Matches .scan d w) (hr : w.heap.region = some r)
    (hu : w.Grants addr u) :
    ∃ w' pre b post, w.serve (.release addr) = .ok (w', .done) ∧ w'.heap = w.heap ∧
      r.base + b.offset + a.bytes = addr ∧ r.Freed w.memory w'.memory pre b post := by
  obtain ⟨p, rfl⟩ := h.exists_plan hr
  obtain ⟨heap, m⟩ := w
  have hs : heap.Shows r .scan m p := h
  have husable : heap.usableSize m addr = .ok (some u) := hu
  rw [hs.usableSize] at husable
  obtain ⟨f, hf, -⟩ := Option.map_eq_some_iff.mp (Except.ok.inj husable)
  obtain ⟨-, -, rfl⟩ := Plan.live?_eq_some hf
  cases hs with
  | @scan heap m p hs =>
    obtain ⟨o, ho, hheap, hfreed⟩ := hs.release_live hf
    refine ⟨⟨.scan o.heap, o.memory⟩, _, _, _, ?_, congrArg Heap.scan hheap, rfl, hfreed⟩
    simp only [World.serve, Heap.release, ho]
    rfl

/-- **A scanning heap is intact after every run**, with whatever requests, arguments and writes of the
    client: well-formed blocks tile the region, no byte is in none of them, and the heap passes the
    validation. The release of a live allocation clears one flag and does nothing else. A run may hand
    over a new region at any time: a range that is accepted becomes the region. -/
theorem scanning_intact (m : Memory) (acts : List Action) :
    ∃ (w : World a) (trace : List (Action × Answer a)), (fresh .scan m).run acts = .ok (w, trace) ∧
      (∀ r, w.heap.region = some r →
        (∃ bs, r.Paved w.memory bs) ∧ w.heap.validate w.memory = .ok ⟨.ok (), [], []⟩ ∧
        ∀ addr u, w.Grants addr u → ∃ w' pre b post, w.serve (.release addr) = .ok (w', .done) ∧
          w'.heap = w.heap ∧ r.base + b.offset + a.bytes = addr ∧
          r.Freed w.memory w'.memory pre b post) ∧
      ∀ addr len r, Region.ofRange? a (Strategy.scan.minBlock a) addr len = .ok r →
        ∃ w', w.perform (.init addr len) = .ok (w', .claim (.ok ())) ∧
          w'.heap.region = some r := by
  obtain ⟨w, trace, hrun, hw, -⟩ := (matches_fresh (a := a) .scan m).run acts
  refine ⟨w, trace, hrun, fun r hr => ?_, fun addr len r hr => ?_⟩
  · obtain ⟨hpaved, hvalidate⟩ := hw.paved hr
    exact ⟨hpaved, hvalidate, fun addr u hu => hw.frees hr hu⟩
  · obtain ⟨w', hinit, hw'⟩ := hw.perform_init hr
    exact ⟨w', hinit, Heap.Shows.region_eq (s := .scan) hw'⟩

/-! ## 3. Flags turned over -/

/-- A listing heap that keeps to a draft finds a flag that is turned over. -/
theorem Matches.toggle {pre post : List (Block a)} {b : Block a} {e : Defect}
    (h : Matches .list d w) (hr : w.heap.region = some r)
    (hblocks : r.blocks w.memory = .ok (pre ++ b :: post)) (he : Block.Exposes pre b post e) :
    w.heap.validate (r.toggled w.memory b.offset) = .ok ⟨.error e, [e], [.corrupt e]⟩ := by
  obtain ⟨p, rfl⟩ := h.exists_plan hr
  obtain ⟨heap, memory⟩ := w
  have hs : heap.Shows r .list memory p := h
  cases hs with
  | list hs => exact ListHeap.validate_of_defect hs.region_eq (hs.toggle hblocks he)

/-- **After every run, a flag that is turned over is found**, whichever block of the walk it belongs
    to. A free block that passes for allocated is still on the list. An allocated block that passes
    for free is next to a free one, and the pair in front is named if there are two; or it is not,
    and then the walk comes to one free block more than the list. -/
theorem toggled_flag_found (m : Memory) (acts : List Action) :
    ∃ (w : World a) (trace : List (Action × Answer a)), (fresh .list m).run acts = .ok (w, trace) ∧
      ∀ r pre b post, w.heap.region = some r → r.blocks w.memory = .ok (pre ++ b :: post) →
        (∃ d, Block.Exposes pre b post d) ∧
          ∀ d, Block.Exposes pre b post d →
            w.heap.validate (r.toggled w.memory b.offset) = .ok ⟨.error d, [d], [.corrupt d]⟩ := by
  obtain ⟨w, trace, hrun, hw, -⟩ := (matches_fresh (a := a) .list m).run acts
  exact ⟨w, trace, hrun, fun r pre b post hr hblocks =>
    ⟨Block.exists_exposes pre b post, fun d hd => hw.toggle hr hblocks hd⟩⟩

end RegionHeap.World
