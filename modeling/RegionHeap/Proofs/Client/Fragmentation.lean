import RegionHeap.Proofs.Client.Exclusivity
import RegionHeap.Proofs.Plan.Refines

/-!
# Fragmentation of a scanning heap is for good

A scanning heap cuts blocks and never merges them. As long as it keeps its region, a place where a block
began stays one, and no block is ever larger than the largest one was. So a request that an empty heap
cannot serve will not be served before the heap is laid out anew.

* `Block.largest`, `Block.Finer` -- the size of the largest block; what has become of the blocks;
* `Draft.foldl_refines` -- the draft of a scanning heap is only ever refined;
* `World.Erodes`, `World.Matches.erodes` -- what has become of a world, as its blocks are only ever cut;
* `World.fragmentation_irreversible` -- so it is between any two points of a run with one region.
-/

namespace RegionHeap

variable {a : Alignment} {s : Strategy} {r : Region a} {p p' : Plan} {w w' : World a} {d : Draft a}
  {act : Action} {n : Nat}

/-! ## 1. Blocks -/

namespace Block

variable {b : Block a} {bs bs' : List (Block a)}

/-- The size of the largest block, allocated or free. -/
def largest (bs : List (Block a)) : Nat :=
  bs.foldr (fun b n => max b.size n) 0

theorem size_le_largest (hb : b ∈ bs) : b.size ≤ largest bs := by
  induction bs with
  | nil => cases hb
  | cons c bs ih =>
    rcases List.mem_cons.mp hb with rfl | hb
    · exact Nat.le_max_left _ _
    · exact Nat.le_trans (ih hb) (Nat.le_max_right _ _)

theorem largest_le (h : ∀ b ∈ bs, b.size ≤ n) : largest bs ≤ n := by
  induction bs with
  | nil => exact Nat.zero_le n
  | cons c bs ih =>
    refine Nat.max_le.mpr ⟨h c List.mem_cons_self, ih fun b hb => ?_⟩
    exact h b (List.mem_cons_of_mem c hb)

/-- The later blocks `bs'` have come from the blocks `bs` by cuts. -/
structure Finer (bs bs' : List (Block a)) : Prop where
  /-- Where a block began, one begins. -/
  starts : ∀ b ∈ bs, ∃ b' ∈ bs', b'.offset = b.offset
  /-- Every block lies in one of the earlier ones. -/
  within : ∀ b' ∈ bs', ∃ b ∈ bs, b.offset ≤ b'.offset ∧ b'.next ≤ b.next
  /-- The largest block has not grown. -/
  largest_le : largest bs' ≤ largest bs

/-- A refined layout has blocks that come from cuts. -/
theorem finer_of_refines {m m' : Memory} {cs cs' : List Cell} (h : r.Laid s m cs)
    (h' : r.Laid s m' cs') (hcs : Refines cs cs') :
    Finer (cs.map (Cell.block a)) (cs'.map (Cell.block a)) := by
  have hwithin : ∀ b' ∈ cs'.map (Cell.block a), ∃ b ∈ cs.map (Cell.block a),
      b.offset ≤ b'.offset ∧ b'.next ≤ b.next := by
    intro b' hb'
    obtain ⟨c', hc', rfl⟩ := List.mem_map.mp hb'
    obtain ⟨c, hc, hoff, hnext⟩ := hcs.exists_within h.tiled h'.tiled s.minBlock_pos hc'
    rw [← Cell.block_next (a := a) (h'.bounds hc').size_mod,
      ← Cell.block_next (a := a) (h.bounds hc).size_mod] at hnext
    exact ⟨c.block a, List.mem_map_of_mem hc, hoff, hnext⟩
  refine ⟨fun b hb => ?_, hwithin, largest_le fun b' hb' => ?_⟩
  · obtain ⟨c, hc, rfl⟩ := List.mem_map.mp hb
    obtain ⟨c', hc', hoff⟩ := hcs c hc
    exact ⟨c'.block a, List.mem_map_of_mem hc', hoff⟩
  · obtain ⟨b, hb, hoff, hnext⟩ := hwithin b' hb'
    have hsize := size_le_largest hb
    unfold next at hnext
    omega

end Block

/-! ## 2. Drafts -/

/-- A scanning heap that keeps its region has its layout refined. -/
theorem Draft.after_refines (r : Region a) (p : Plan) (hact : ∀ addr len, act ≠ .init addr len) :
    ∃ p', (planned r p).after .scan act = planned r p' ∧ Refines p.cells p'.cells := by
  cases act with
  | init addr len => exact absurd rfl (hact addr len)
  | request q =>
    cases q with
    | allocate n => exact ⟨_, rfl, Plan.refines_allocate⟩
    | release addr => exact ⟨_, rfl, Plan.refines_release⟩
    | resize addr? n => exact ⟨_, rfl, Plan.refines_resize⟩
    | _ => exact ⟨p, rfl, .refl _⟩
  | _ => exact ⟨p, rfl, .refl _⟩

/-- **The draft of a scanning heap that keeps its region is only ever refined.** -/
theorem Draft.foldl_refines (r : Region a) (p : Plan) (acts : List Action)
    (hacts : ∀ act ∈ acts, ∀ addr len, act ≠ .init addr len) :
    ∃ p', acts.foldl (Draft.after .scan) (planned r p) = planned r p' ∧
      Refines p.cells p'.cells := by
  induction acts generalizing p with
  | nil => exact ⟨p, rfl, .refl _⟩
  | cons act acts ih =>
    obtain ⟨p1, hafter, hrefines⟩ := after_refines r p (hacts act List.mem_cons_self)
    obtain ⟨p2, hfold, hrefines'⟩ := ih p1 fun act' h => hacts act' (List.mem_cons_of_mem act h)
    refine ⟨p2, ?_, hrefines.trans hrefines'⟩
    rw [List.foldl_cons, hafter, hfold]

/-- Without a region there is none until one is handed over. -/
theorem Draft.foldl_blank (s : Strategy) (acts : List Action)
    (hacts : ∀ act ∈ acts, ∀ addr len, act ≠ .init addr len) :
    acts.foldl (Draft.after s) (.blank : Draft a) = .blank := by
  induction acts with
  | nil => rfl
  | cons act acts ih =>
    have hblank : (.blank : Draft a).after s act = .blank := by
      cases act with
      | init addr len => exact absurd rfl (hacts _ List.mem_cons_self addr len)
      | request q => cases q <;> rfl
      | _ => rfl
    rw [List.foldl_cons, hblank]
    exact ih fun act' h => hacts act' (List.mem_cons_of_mem act h)

namespace World

/-! ## 3. Worlds -/

/-- The heap has no block for a request of `n` bytes. -/
def Refuses (w : World a) (n : Nat) : Prop :=
  ∃ w', w.serve (.allocate n) = .ok (w', .address none)

/-- What has become of a world whose blocks are only ever cut. -/
structure Erodes (w w' : World a) : Prop where
  /-- The region is the same. -/
  region_eq : w'.heap.region = w.heap.region
  /-- The blocks have been cut. -/
  blocks : ∀ r, w.heap.region = some r → ∃ bs bs', r.blocks w.memory = .ok bs ∧
    r.blocks w'.memory = .ok bs' ∧ Block.Finer bs bs'
  /-- What was refused when nothing was live is still refused. -/
  refuses : (∀ addr u, ¬ w.Grants addr u) → ∀ n, w.Refuses n → w'.Refuses n

theorem refuses_blank (h : w.heap = .empty s) (n : Nat) : w.Refuses n := by
  obtain ⟨heap, m⟩ := w
  obtain rfl : heap = .empty s := h
  exact ⟨⟨.empty s, m⟩, by cases s <;> rfl⟩

/-- A heap refuses what its plan refuses. -/
theorem refuses_iff (hs : w.heap.Shows r s w.memory p) :
    w.Refuses n ↔ (p.allocate r s n).1 = none := by
  obtain ⟨o, ho, hvalue, -⟩ := hs.allocate n
  have hserve := serve_allocate ho
  rw [← hvalue]
  constructor
  · rintro ⟨w', hw'⟩
    rw [hserve] at hw'
    exact congrArg (fun x => x.2.address?) (Except.ok.inj hw')
  · intro hnone
    rw [hnone] at hserve
    exact ⟨_, hserve⟩

/-- In a heap that grants nothing all cells are free. -/
theorem free_of_grants_nothing (hs : w.heap.Shows r s w.memory p)
    (hnone : ∀ addr u, ¬ w.Grants addr u) : ∀ c ∈ p.cells, c.used = false := by
  intro c hc
  refine Bool.eq_false_iff.mpr fun hused => ?_
  exact hnone _ _ ((grants_iff hs).mpr ⟨c, mem_inUse.mpr ⟨hc, hused⟩, rfl, rfl⟩)

/-- **The blocks of a scanning heap are only ever cut**, as long as it keeps its region. -/
theorem Matches.erodes (h : Matches .scan d w) (acts : List Action)
    (hacts : ∀ act ∈ acts, ∀ addr len, act ≠ .init addr len) :
    ∃ w' trace, w.run acts = .ok (w', trace) ∧ w.Erodes w' := by
  obtain ⟨w', trace, hrun, hw', -⟩ := h.run acts
  refine ⟨w', trace, hrun, ?_⟩
  cases d with
  | blank =>
    rw [Draft.foldl_blank .scan acts hacts] at hw'
    have hheap : w.heap = .empty .scan := h
    have hheap' : w'.heap = .empty .scan := hw'
    refine ⟨by rw [hheap, hheap'], fun r hr => ?_, fun _ n _ => refuses_blank hheap' n⟩
    rw [hheap] at hr
    cases hr
  | planned r p =>
    obtain ⟨p', hfold, hrefines⟩ := Draft.foldl_refines r p acts hacts
    rw [hfold] at hw'
    have hs : w.heap.Shows r .scan w.memory p := h
    have hs' : w'.heap.Shows r .scan w'.memory p' := hw'
    refine ⟨hs'.region_eq.trans hs.region_eq.symm, fun r' hr => ?_, fun hnone n hn => ?_⟩
    · obtain rfl : r = r' := Option.some.inj (hs.region_eq.symm.trans hr)
      exact ⟨_, _, hs.laid.blocks_eq, hs'.laid.blocks_eq,
        Block.finer_of_refines hs.laid hs'.laid hrefines⟩
    · rw [refuses_iff hs, Plan.allocate_none_iff] at hn
      rw [refuses_iff hs', Plan.allocate_none_iff]
      intro need hneed c' hc'
      have hsmall : ∀ c ∈ p.cells, c.size < need := fun c hc =>
        (hn need hneed c hc).resolve_left (by simp [free_of_grants_nothing hs hnone c hc])
      exact .inr (hrefines.size_lt hs.tiled hs'.tiled Strategy.scan.minBlock_pos hsmall c' hc')

/-! ## 4. Runs -/

/-- **Fragmentation of a scanning heap is for good.** Take any state that a run leads to, and go on with
    whatever requests and writes of the client, but no new region. Where a block began, one begins in
    the end, so after every number of steps, and the largest block has not grown. If nothing was live
    and a number of bytes was refused, then it is still refused. -/
theorem fragmentation_irreversible (m : Memory) (acts : List Action) :
    ∃ (w : World a) (trace : List (Action × Answer a)), (fresh .scan m).run acts = .ok (w, trace) ∧
      ∀ acts', (∀ act ∈ acts', ∀ addr len, act ≠ .init addr len) →
        ∃ w' trace', w.run acts' = .ok (w', trace') ∧ w.Erodes w' := by
  obtain ⟨w, trace, hrun, hw, -⟩ := (matches_fresh (a := a) .scan m).run acts
  exact ⟨w, trace, hrun, fun acts' hacts' => hw.erodes acts' hacts'⟩

end World

end RegionHeap
