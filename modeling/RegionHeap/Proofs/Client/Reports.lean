import RegionHeap.Proofs.Client.World
import RegionHeap.Proofs.Heap.Verdicts

/-!
# Reported defects

A client installs a trap to hear of defects. A validation of an initialized heap tells it of the
defect that is returned, once, and otherwise nothing, on any memory and wherever the free list
begins. The defect of a heap without a region reaches the caller and no one else.

* `World.validate_reports` -- what the trap and the log are told;
* `World.uninitialized_unreported` -- a validation that fails without a word to the trap.
-/

namespace RegionHeap.World

variable {a : Alignment}

/-- **A validation reports what it returns exactly if the heap has a region.** It always comes to a
    verdict and leaves heap and memory as they are; it fails in the ways listed, each of which leads
    to its own defect, and then the trap and the log are told of that defect once; if it does not fail
    they are told nothing. Without a region the defect is returned and nothing is told. -/
theorem validate_reports (w : World a) :
    ∃ v, w.serve .validate = .ok (w, .verdict v) ∧
      (∀ d, v.result = .error d ↔ w.heap.Ails w.memory d) ∧
      (v.Reported ↔ w.heap.region ≠ none) ∧
      (w.heap.region = none → v.result = .error .uninitialized ∧ v.trapped = [] ∧ v.log = []) := by
  obtain ⟨v, hv⟩ := w.heap.exists_judged w.memory
  refine ⟨v, serve_validate hv.answers, hv.result_iff, ⟨fun hreported hnone => ?_, hv.reported⟩,
    fun hnone => ?_⟩
  · rw [hv.unreported hnone] at hreported
    exact Verdict.not_reported_uninitialized hreported
  · rw [hv.unreported hnone]
    exact ⟨rfl, rfl, rfl⟩

/-- **A heap without a region fails unreported**: its validation returns a defect that the trap is
    never told of. -/
theorem uninitialized_unreported :
    ∃ v, serve (fresh .list (Memory.blank 0 0 0) : World .eight) .validate =
        .ok (fresh .list (Memory.blank 0 0 0), .verdict v) ∧
      v.result = .error .uninitialized ∧ v.trapped = [] ∧ ¬ v.Reported :=
  ⟨.uninitialized, rfl, rfl, rfl, Verdict.not_reported_uninitialized⟩

end RegionHeap.World
