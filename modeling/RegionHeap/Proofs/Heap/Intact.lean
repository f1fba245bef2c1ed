import RegionHeap.Proofs.FreeList.Audited
import RegionHeap.Proofs.Heap.Listing
import RegionHeap.Proofs.Layout.Rewalk

/-!
# Intact listing heaps

What it means for a listing heap to be intact, said of the walk over the blocks and of the links that
lead from the head, with no plan in between. It is the same as to hold a plan between operations.

* `Region.Tidy` -- well-formed blocks tile the region, and no two free ones are neighbours;
* `Region.Intact` -- besides, the list is a doubly linked list of exactly the free ones;
* `Intact.drawn`, `ListHeap.Shows.intact` -- from an intact heap to its plan and back.
-/

namespace RegionHeap

/-- The blocks lie one after the other from `lo` to `hi`. -/
def Block.Contiguous {a : Alignment} : (lo : Nat) → List (Block a) → (hi : Nat) → Prop
  | lo, [], hi => lo = hi
  | lo, b :: bs, hi => b.offset = lo ∧ Contiguous b.next bs hi

namespace Region

variable {a : Alignment} {r : Region a} {m : Memory} {head prev : Option Nat} {off : Nat}
  {bs : List (Block a)} {nodes : List Nat} {cs : List Cell} {b : Block a}

/-- The walk tiles the region with well-formed blocks, and no two free ones are neighbours. -/
structure Tidy (r : Region a) (m : Memory) (bs : List (Block a)) : Prop where
  walk : r.blocks m = .ok bs
  contiguous : Block.Contiguous 0 bs r.size
  wellFormed : ∀ b ∈ bs, ¬ b.header.Reserved ∧ Strategy.list.minBlock a ≤ b.size
  separated : bs.IsChain fun b c => b.header.Allocated ∨ c.header.Allocated

/-- A listing heap in memory is intact, with the given blocks and the given nodes of its list. -/
structure Intact (r : Region a) (m : Memory) (head : Option Nat) (bs : List (Block a))
    (nodes : List Nat) : Prop extends r.Tidy m bs where
  listed : r.Listed m none head nodes
  nodup : nodes.Nodup
  mem_nodes : ∀ x, x ∈ nodes ↔ ∃ b ∈ bs, b.offset = x ∧ ¬ b.header.Allocated

/-! ## 1. From blocks to cells -/

/-- The blocks of the walk have the headers that lie in memory. -/
theorem walk_header_eq (h : r.blocks m = .ok bs) (hb : b ∈ bs) :
    b.header = ⟨m.readWord (r.base + b.offset)⟩ := by
  obtain ⟨bs', hbs', htrail⟩ := r.blocksFrom_trail m 0
  have hsame : bs = bs' := Except.ok.inj (h.symm.trans hbs')
  exact htrail.header_eq (hsame ▸ hb)

/-- Well-formed blocks that lie one after the other make a tiling. -/
theorem tiled_of_contiguous {min lo hi : Nat} (h : Block.Contiguous lo bs hi)
    (hmin : ∀ b ∈ bs, min ≤ b.size) : Tiled a min lo (bs.map Block.cell) hi := by
  induction bs generalizing lo with
  | nil => exact h
  | cons b bs ih =>
    refine ⟨h.1, b.header.size_mod, hmin b List.mem_cons_self, ?_⟩
    exact ih h.2 fun c hc => hmin c (List.mem_cons_of_mem b hc)

theorem separated_of_blocks (h : bs.IsChain fun b c => b.header.Allocated ∨ c.header.Allocated) :
    Separated (bs.map Block.cell) := by
  refine List.isChain_map_of_isChain _ (fun b c hbc => ?_) h
  exact hbc.imp decide_eq_true decide_eq_true

/-- Well-formed blocks that the walk finds make a layout. -/
theorem laid_of_walk {s : Strategy} (hwalk : r.blocks m = .ok bs)
    (hcont : Block.Contiguous 0 bs r.size)
    (hform : ∀ b ∈ bs, ¬ b.header.Reserved ∧ s.minBlock a ≤ b.size) :
    r.Laid s m (bs.map Block.cell) := by
  refine ⟨tiled_of_contiguous hcont fun b hb => (hform b hb).2, fun c hc => ?_⟩
  obtain ⟨b, hb, rfl⟩ := List.mem_map.mp hc
  have hraw : b.header = b.cell.header a := Header.eq_ofSize (hform b hb).1
  rw [← hraw, walk_header_eq hwalk hb]
  rfl

theorem mem_vacant_iff_block {x : Nat} :
    x ∈ vacant cs ↔ ∃ b ∈ cs.map (Cell.block a), b.offset = x ∧ ¬ b.header.Allocated := by
  rw [mem_vacant]
  constructor
  · intro h
    obtain ⟨c, hc, hfree, rfl⟩ := h
    exact ⟨c.block a, List.mem_map_of_mem hc, rfl, by simp [Cell.block, hfree]⟩
  · intro h
    obtain ⟨b, hb, rfl, hfree⟩ := h
    obtain ⟨c, hc, rfl⟩ := List.mem_map.mp hb
    exact ⟨c, hc, by simpa [Cell.block] using hfree, rfl⟩

theorem mem_vacant_blocks {x : Nat} :
    x ∈ vacant (bs.map Block.cell) ↔ ∃ b ∈ bs, b.offset = x ∧ ¬ b.header.Allocated := by
  rw [mem_vacant]
  constructor
  · intro h
    obtain ⟨c, hc, hfree, rfl⟩ := h
    obtain ⟨b, hb, rfl⟩ := List.mem_map.mp hc
    exact ⟨b, hb, rfl, of_decide_eq_false hfree⟩
  · intro h
    obtain ⟨b, hb, rfl, hfree⟩ := h
    exact ⟨b.cell, List.mem_map_of_mem hb, decide_eq_false hfree, rfl⟩

/-! ## 2. From nodes to links and back -/

/-- A list whose nodes pass the audit is linked both ways. -/
theorem Listed.linked {node? : Option Nat} (h : r.Listed m prev node? nodes) :
    Linked (r.linksAt m) prev nodes none := by
  induction nodes generalizing prev node? with
  | nil => trivial
  | cons x xs ih =>
    obtain ⟨-, hnode, -, next, hlinks, h⟩ := h
    rw [hnode.links_eq] at hlinks
    refine ⟨?_, ih h⟩
    rw [Except.ok.inj hlinks, h.head?_eq, Option.or_none]

/-- A linked list of free blocks passes the audit. -/
theorem listed_of_linked (h : Linked (r.linksAt m) prev nodes none) (hnodes : r.Nodes nodes)
    (hfree : ∀ x ∈ nodes, r.IsFree m x) : r.Listed m prev nodes.head? nodes := by
  induction nodes generalizing prev with
  | nil => rfl
  | cons x xs ih =>
    obtain ⟨hlinks, h⟩ := h
    have hnode := hnodes.fits x List.mem_cons_self
    have hhead := header_eq_ok (m := m) hnode.1.hasWord
    refine ⟨rfl, hnode, ⟨_, hhead, hfree x List.mem_cons_self⟩, xs.head?, ?_, ?_⟩
    · rw [hnode.links_eq, hlinks, Option.or_none]
    · exact ih h (hnodes.mono fun y hy => List.mem_cons_of_mem x hy)
        fun y hy => hfree y (List.mem_cons_of_mem x hy)

theorem listed_of_threaded {l : FreeList} (h : FreeList.Threaded r l nodes) :
    r.Listed l.memory none l.head nodes := by
  rw [h.head_eq]
  exact listed_of_linked h.linked h.nodes h.free

/-- Listed nodes that are free cells of a layout make a plan. -/
theorem Listed.drawn (h : r.Listed m none head nodes) (hlaid : r.Laid .list m cs)
    (hsub : ∀ x ∈ nodes, x ∈ vacant cs) : Drawn r ⟨head, m⟩ ⟨cs, nodes⟩ :=
  ⟨hlaid, h.head?_eq.symm, h.linked, h.nodup, hsub⟩

/-- The free cells of a layout have different offsets. -/
theorem nodup_vacant {min lo hi : Nat} (ht : Tiled a min lo cs hi) (hmin : 0 < min) :
    (vacant cs).Nodup := by
  have hoff := ht.pairwise_offset hmin
  refine List.pairwise_map.mpr ((hoff.filter _).imp fun hlt => Nat.ne_of_lt hlt)

/-- **An intact heap holds a plan**, and the plan is settled. -/
theorem Intact.drawn (h : r.Intact m head bs nodes) :
    Drawn r ⟨head, m⟩ ⟨bs.map Block.cell, nodes⟩ ∧
      Plan.Settled .list ⟨bs.map Block.cell, nodes⟩ := by
  have hlaid := laid_of_walk (s := .list) h.walk h.contiguous h.wellFormed
  have hmem : ∀ x, x ∈ nodes ↔ x ∈ vacant (bs.map Block.cell) := fun x =>
    (h.mem_nodes x).trans mem_vacant_blocks.symm
  refine ⟨h.listed.drawn hlaid fun x hx => (hmem x).mp hx, separated_of_blocks h.separated, ?_⟩
  exact (List.perm_ext_iff_of_nodup h.nodup
    (nodup_vacant hlaid.tiled Strategy.list.minBlock_pos)).mpr hmem

theorem contiguous_of_tiled {min lo hi : Nat} (ht : Tiled a min lo cs hi) :
    Block.Contiguous lo (cs.map (Cell.block a)) hi := by
  induction cs generalizing lo with
  | nil => exact ht
  | cons c cs ih =>
    obtain ⟨ho, hmod, -, ht⟩ := ht
    refine ⟨ho, ?_⟩
    rw [Cell.block_next hmod]
    exact ih ht

/-- The cells of a layout without free neighbours make a tidy walk. -/
theorem Laid.tidy (h : r.Laid .list m cs) (hsep : Separated cs) :
    r.Tidy m (cs.map (Cell.block a)) := by
  refine ⟨h.blocks_eq, contiguous_of_tiled h.tiled, fun b hb => ?_, ?_⟩
  · obtain ⟨c, hc, rfl⟩ := List.mem_map.mp hb
    have hsize : (c.block a).size = c.size := Cell.header_size (h.bounds hc).size_mod
    exact ⟨Cell.header_not_reserved, hsize ▸ (h.bounds hc).min_le⟩
  · refine List.isChain_map_of_isChain _ (fun c d hcd => ?_) hsep
    exact hcd.imp Cell.header_allocated.mpr Cell.header_allocated.mpr

end Region

namespace ListHeap

open Region

variable {a : Alignment} {r : Region a} {h : ListHeap a} {m : Memory} {p : Plan}

/-! ## 3. Intact heaps and their plans -/

/-- **A heap that holds a plan is intact.** -/
theorem Shows.intact (hs : Shows r h m p) :
    r.Intact m h.head (p.cells.map (Cell.block a)) p.order := by
  obtain ⟨hsep, hperm⟩ := hs.settled
  refine ⟨hs.drawn.laid.tidy hsep, listed_of_threaded hs.drawn.threaded, hs.drawn.nodup, fun x => ?_⟩
  rw [hperm.mem_iff, mem_vacant_iff_block]

/-- An intact heap holds the plan made of its blocks and its nodes. -/
theorem shows_of_intact {bs : List (Block a)} {nodes : List Nat} (hr : h.region = some r)
    (hi : r.Intact m h.head bs nodes) : Shows r h m ⟨bs.map Block.cell, nodes⟩ :=
  ⟨hr, hi.drawn.1, hi.drawn.2⟩

end ListHeap

end RegionHeap
