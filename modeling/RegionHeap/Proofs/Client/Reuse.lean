import RegionHeap.Proofs.Client.History
import RegionHeap.Proofs.Client.Outcomes
import RegionHeap.Proofs.Plan.Reuse

/-!
# Released blocks are used again

An allocation that is given back can be had again: the same request is answered with the same address,
and leads to the same layout. A listing heap that is asked for something else that fits into the
released block uses that one too, as long as it came to the head of the list. It did not if it was
merged with a free block in front of it, which keeps its place in the list.

* `Action.IsWrite`, `Draft.foldl_writes` -- what clients write is of no concern to the draft;
* `World.allocate_release_restores` -- an allocation, its release and the same allocation;
* `World.released_block_reused_iff` -- when the next allocation goes to the block that was released;
* `World.released_block_passed_over` -- a run after which it does not.
-/

namespace RegionHeap

variable {a : Alignment} {s : Strategy} {w : World a} {d : Draft a}

/-- The client writes, and asks the heap for nothing. -/
def Action.IsWrite : Action → Prop
  | store .. => True
  | elsewhere .. => True
  | _ => False

/-- Writes leave the draft as it is. -/
theorem Draft.foldl_writes {writes : List Action} (h : ∀ act ∈ writes, act.IsWrite) :
    writes.foldl (Draft.after s) d = d := by
  induction writes with
  | nil => rfl
  | cons act writes ih =>
    have hact : d.after s act = d := by
      cases act with
      | store addr skip bytes => rfl
      | elsewhere addr bytes => rfl
      | _ => exact (h _ List.mem_cons_self).elim
    rw [List.foldl_cons, hact]
    exact ih fun act' h' => h act' (List.mem_cons_of_mem act h')

namespace World

/-! ## 1. The same request again -/

/-- Writes leave the world matched with its draft. -/
theorem Matches.run_writes (h : Matches s d w) {writes : List Action}
    (hwrites : ∀ act ∈ writes, act.IsWrite) :
    ∃ w' trace, w.run writes = .ok (w', trace) ∧ Matches s d w' := by
  obtain ⟨w', trace, hrun, hw', -⟩ := h.run writes
  rw [Draft.foldl_writes hwrites] at hw'
  exact ⟨w', trace, hrun, hw'⟩

/-- **An allocation can be taken back and made again** in every state that a run leads to, for both
    strategies and whatever the client has written in between. The second time the answer is the same
    address, and the layout is the same. In a listing heap the order of the list is the same too;
    between release and allocation the layout is what it was at first, and of the list just the block
    that serves the request has changed its place: it has come to the front. -/
theorem allocate_release_restores (s : Strategy) (m : Memory) (acts : List Action) :
    ∃ (w : World a) (trace : List (Action × Answer a)), (fresh s m).run acts = .ok (w, trace) ∧
      ∀ n, ∃ w1 new?, w.serve (.allocate n) = .ok (w1, .address new?) ∧
        ∀ new, new? = some new → ∀ writes, (∀ act ∈ writes, act.IsWrite) →
          ∃ w2 trace' w3 w4, w1.run writes = .ok (w2, trace') ∧
            w2.serve (.release new) = .ok (w3, .done) ∧
            w3.serve (.allocate n) = .ok (w4, .address (some new)) ∧
            (∃ r bs, w1.Lays r bs ∧ w4.Lays r bs) ∧
            (s = .list → ∃ r p p1, ∃ off ∈ p.order, new = r.base + off + a.bytes ∧ w.Lists r p ∧
              w1.Lists r p1 ∧ w3.Lists r (p.promote off) ∧ w4.Lists r p1) := by
  obtain ⟨w, trace, hrun, hw, -⟩ := (matches_fresh (a := a) s m).run acts
  refine ⟨w, trace, hrun, fun n => ?_⟩
  cases hr : w.heap.region with
  | none =>
    obtain ⟨w1, hserve⟩ := refuses_blank (hw.heap_eq_empty hr) n
    exact ⟨w1, none, hserve, fun _ hnew => nomatch hnew⟩
  | some r =>
    obtain ⟨p, hs⟩ := hw.exists_shows hr
    obtain ⟨w1, hserve1, hs1, -⟩ := allocate_of_shows hs n
    refine ⟨w1, _, hserve1, fun new hnew writes hwrites => ?_⟩
    have hw1 : Matches s (.planned r (p.allocate r s n).2) w1 := hs1
    obtain ⟨w2, trace', hrun', hw2⟩ := hw1.run_writes hwrites
    have hs2 : w2.heap.Shows r s w2.memory (p.allocate r s n).2 := hw2
    obtain ⟨w3, hserve3, hs3, -⟩ := release_of_shows hs2 new
    obtain ⟨w4, hserve4, hs4, -⟩ := allocate_of_shows hs3 n
    rw [Plan.allocate_release_allocate hs.tiled hs.settled hnew] at hserve4 hs4
    rw [hnew] at hserve4
    have hw4 : Matches s (.planned r (p.allocate r s n).2) w4 := hs4
    refine ⟨w2, trace', w3, w4, hrun', hserve3, hserve4, ⟨r, _, hw1.lays, hw4.lays⟩, fun hlist => ?_⟩
    subst hlist
    obtain ⟨off, hoff, hpayload, hrelease, -⟩ :=
      Plan.allocate_release_list hs.tiled hs.settled hnew
    rw [hrelease] at hs3
    exact ⟨r, p, _, off, hoff, hpayload, lists_of_shows hs, lists_of_shows hs1, lists_of_shows hs3,
      lists_of_shows hs4⟩

/-! ## 2. Another request that fits -/

/-- **When a released block is used again** by the next allocation, in every state that a run leads to.
    Let a live allocation lie in the block `c` between those of `front` and `back`. After its release
    the block is part of a free block `d`, and every request that `c` has the bytes for is served from
    the first block of the list that has them. That is in `d` exactly if no block in front of `d` in
    the list has them. It always is if `c` had no free block in front of it, and then the answer is the
    old address. -/
theorem released_block_reused_iff (m : Memory) (acts : List Action) :
    ∃ (w : World a) (trace : List (Action × Answer a)), (fresh .list m).run acts = .ok (w, trace) ∧
      ∀ addr u, w.Grants addr u →
        ∃ r front c back order, w.Lists r ⟨front ++ c :: back, order⟩ ∧
          c.used = true ∧ c.payload r = addr ∧ c.size - a.bytes = u ∧
          ∃ w1 p1 d, w.serve (.release addr) = .ok (w1, .done) ∧ w1.Lists r p1 ∧
            Plan.Vacated c front back order p1 ∧ d ∈ p1.cells ∧ d.TakesIn c ∧
            ∀ n need, a.blockSize? (Strategy.list.minPayload a) n = some need → need ≤ c.size →
              ∃ w2 new e, w1.serve (.allocate n) = .ok (w2, .address (some new)) ∧
                p1.FirstFit need e ∧ new = e.payload r ∧
                (d.Covers r.base new ↔ p1.FirstFit need d) ∧
                (Plan.ClosedFront front → new = addr) := by
  obtain ⟨w, trace, hrun, hw, -⟩ := (matches_fresh (a := a) .list m).run acts
  refine ⟨w, trace, hrun, fun addr u hu => ?_⟩
  obtain ⟨r, front, c, back, order, hs, hf, hused, hpayload, hsize⟩ := hw.exists_cell hu
  obtain ⟨w1, hserve1, hs1, -⟩ := release_of_shows hs addr
  rw [Plan.release, hf] at hs1
  have hvacated : Plan.Vacated c front back order (Plan.free .list ⟨front, c, back⟩ order) :=
    Plan.vacated_free hs.tiled Strategy.list.minBlock_pos
  obtain ⟨d, hd, htakes, hhead⟩ := hvacated.exists_merged hs.tiled
  refine ⟨r, front, c, back, order, lists_of_shows hs, hused, hpayload, hsize, w1, _, d, hserve1,
    lists_of_shows hs1, hvacated, hd, htakes, fun n need hneed hle => ?_⟩
  have hfits : need ≤ d.size := Nat.le_trans hle htakes.size_le
  obtain ⟨new, e, hnew, hfit, hpayload', hiff⟩ :=
    Plan.reuse_iff (r := r) hs1.tiled hs1.settled hneed hd htakes.free hfits
  obtain ⟨w2, hserve2, -⟩ := allocate_of_shows hs1 n
  rw [hnew] at hserve2
  refine ⟨w2, new, e, hserve2, hfit, hpayload', hiff, fun hclosed => ?_⟩
  -- the block that was released heads the list
  obtain ⟨hoff, order', horder⟩ := hhead hclosed
  have hfirst := Plan.firstFit_of_head hd htakes.free hfits (hoff ▸ horder)
  rw [hpayload', ← Plan.FirstFit.unique hs1.tiled hfirst hfit, ← hpayload, Cell.payload, hoff]
  rfl

/-- Ninety-six bytes from address 128 on. -/
def crowdedRegion : Region .eight :=
  ⟨128, 96, by decide, by decide, by decide⟩

/-- Four allocations fill the region; then the first one is released, and the last one. -/
def crowdedActions : List Action :=
  [.init 128 96, .request (.allocate 16), .request (.allocate 16), .request (.allocate 16),
    .request (.allocate 16), .request (.release 136), .request (.release 208)]

/-- **A released block may be passed over**: it becomes part of the free block in front of it, which
    stays behind another one in the list, and a request that it has the bytes for is served from that
    one. -/
theorem released_block_passed_over : ∃ (w : World .eight) (trace : List (Action × Answer .eight)),
    (fresh .list (Memory.blank 0 0 0)).run crowdedActions = .ok (w, trace) ∧ w.Grants 160 16 ∧
      w.Lists crowdedRegion
        ⟨[⟨0, 24, false⟩, ⟨24, 24, true⟩, ⟨48, 24, true⟩, ⟨72, 24, false⟩], [72, 0]⟩ ∧
      Alignment.eight.blockSize? (Strategy.list.minPayload .eight) 16 = some 24 ∧
      ∃ w1 w2, w.serve (.release 160) = .ok (w1, .done) ∧
        w1.Lists crowdedRegion ⟨[⟨0, 48, false⟩, ⟨48, 24, true⟩, ⟨72, 24, false⟩], [72, 0]⟩ ∧
        (⟨0, 48, false⟩ : Cell).TakesIn ⟨24, 24, true⟩ ∧
        w1.serve (.allocate 16) = .ok (w2, .address (some 208)) ∧
        ¬ (⟨0, 48, false⟩ : Cell).Covers crowdedRegion.base 208 := by
  obtain ⟨w, trace, hrun, hw, -⟩ :=
    (matches_fresh (a := .eight) .list (Memory.blank 0 0 0)).run crowdedActions
  have hdraft : crowdedActions.foldl (Draft.after .list) .blank = .planned crowdedRegion
      ⟨[⟨0, 24, false⟩, ⟨24, 24, true⟩, ⟨48, 24, true⟩, ⟨72, 24, false⟩], [72, 0]⟩ := rfl
  rw [hdraft] at hw
  have hs : w.heap.Shows crowdedRegion .list w.memory
    ⟨[⟨0, 24, false⟩, ⟨24, 24, true⟩, ⟨48, 24, true⟩, ⟨72, 24, false⟩], [72, 0]⟩ := hw
  obtain ⟨w1, hserve1, hs1, -⟩ := release_of_shows hs 160
  obtain ⟨w2, hserve2, -⟩ := allocate_of_shows hs1 16
  refine ⟨w, trace, hrun, (grants_iff hs).mpr ⟨⟨24, 24, true⟩, by decide, rfl, rfl⟩,
    lists_of_shows hs, by decide, w1, w2, hserve1, lists_of_shows hs1, ⟨rfl, by decide, by decide⟩,
    hserve2, fun hcovers => ?_⟩
  exact absurd hcovers.2 (by decide)

end World

end RegionHeap
