import RegionHeap.Proofs.FreeList.Threaded
import RegionHeap.Proofs.Layout.Edit
import RegionHeap.Proofs.Plan.Effects

/-!
# Plans of listing heaps in memory

Head and memory of a listing heap hold a plan if the layout lies in memory and the links run through
free cells in the order of the plan. In the middle of an operation a free cell may be off the list.

* `Drawn` -- head and memory hold the plan;
* `Drawn.push`, `Drawn.remove` -- a free cell enters the list, a listed one leaves it;
* `Drawn.edit`, `Drawn.setHeader` -- the layout changes and the list stays as it is.
-/

namespace RegionHeap

namespace Region

variable {a : Alignment} {r : Region a} {m m' : Memory} {cs : List Cell} {S : List Nat} {x : Nat}

/-- Free cells can be nodes of a list. -/
theorem nodes_of_vacant (ht : Tiled a (Strategy.list.minBlock a) 0 cs r.size)
    (hS : ∀ x ∈ S, x ∈ vacant cs) : r.Nodes S := by
  constructor
  · intro x hx
    obtain ⟨c, hc, -, rfl⟩ := mem_vacant.mp (hS x hx)
    refine ⟨ht.isHeaderOffset hc, ?_⟩
    have h1 := (ht.bounds hc).next_le
    have h2 := (ht.bounds hc).min_le
    unfold Cell.next at h1
    omega
  · intro x hx y hy
    obtain ⟨c, hc, -, rfl⟩ := mem_vacant.mp (hS x hx)
    obtain ⟨d, hd, -, rfl⟩ := mem_vacant.mp (hS y hy)
    have h1 := (ht.bounds hc).min_le
    have h2 := (ht.bounds hd).min_le
    rcases ht.apart hc hd with rfl | h3 | h3
    · exact .inl rfl
    · refine .inr (.inl ?_)
      unfold Cell.next at h3
      omega
    · refine .inr (.inr ?_)
      unfold Cell.next at h3
      omega

/-- The header of a free cell says that it is free. -/
theorem Laid.isFree {s : Strategy} (h : r.Laid s m cs) (hx : x ∈ vacant cs) : r.IsFree m x := by
  obtain ⟨c, hc, hfree, rfl⟩ := mem_vacant.mp hx
  rw [IsFree, h.holds c hc]
  show ¬ (c.header a).Allocated
  rw [Cell.header_allocated, hfree]
  exact Bool.false_ne_true

/-- The link words of free cells lie inside of free cells, behind their headers. -/
theorem exists_of_linkBytes (ht : Tiled a (Strategy.list.minBlock a) 0 cs r.size)
    (hS : ∀ x ∈ S, x ∈ vacant cs) (hx : r.LinkBytes S x) :
    ∃ c ∈ cs, c.used = false ∧ c.offset ∈ S ∧ c.Covers r.base x ∧ ¬ r.HeaderBytes c x := by
  obtain ⟨y, hy, h1, h2⟩ := hx
  obtain ⟨c, hc, hfree, rfl⟩ := mem_vacant.mp (hS y hy)
  have h3 := (ht.bounds hc).min_le
  have h4 := a.wordSize_le_bytes
  refine ⟨c, hc, hfree, hy, ?_, ?_⟩
  · unfold Cell.Covers Cell.next
    omega
  · unfold HeaderBytes Memory.Between
    omega

theorem spare_of_linkBytes (ht : Tiled a (Strategy.list.minBlock a) 0 cs r.size)
    (hS : ∀ x ∈ S, x ∈ vacant cs) (hx : r.LinkBytes S x) : r.Spare (inUse cs) x := by
  obtain ⟨c, hc, hfree, -, hcx, -⟩ := exists_of_linkBytes ht hS hx
  exact spare_of_free ht hc hfree hcx

/-- A header is no link word of a free cell. -/
theorem Laid.not_linkBytes_of_headerBytes {d : Cell} (h : r.Laid .list m cs)
    (hS : ∀ x ∈ S, x ∈ vacant cs) (hd : d ∈ cs) (hx : r.HeaderBytes d x) : ¬ r.LinkBytes S x := by
  intro hl
  obtain ⟨c, hc, -, -, hcx, hnot⟩ := exists_of_linkBytes h.tiled hS hl
  rw [h.eq_of_covers hd hc (h.covers_of_headerBytes hd hx) hcx] at hx
  exact hnot hx

/-- Links stay as long as their words do. -/
theorem linksAt_eq {T : Nat → Prop} (hm : Memory.AgreeOutside T m m')
    (hT : ∀ addr, T addr → ¬ r.LinkBytes S addr) (hx : x ∈ S) : r.linksAt m' x = r.linksAt m x := by
  have hword : ∀ addr, r.base + (x + a.bytes) ≤ addr →
      addr + Word.size ≤ r.base + (x + Strategy.list.minBlock a) →
      m'.readWord addr = m.readWord addr := by
    intro addr h1 h2
    refine hm.readWord fun z h3 h4 hz => hT z hz ⟨x, hx, ?_⟩
    unfold Memory.Between
    omega
  rw [minBlock_list] at hword
  rw [linksAt, linksAt, hword _ (by omega) (by omega), hword _ (by omega) (by omega)]

/-- A change of links leaves the layout in memory. -/
theorem Laid.frame_links (h : r.Laid .list m cs) (hS : ∀ x ∈ S, x ∈ vacant cs)
    (hm : Memory.AgreeOutside (r.LinkBytes S) m m') : r.Laid .list m' cs :=
  h.frame hm fun _ hc _ hx => h.not_linkBytes_of_headerBytes hS hc hx

end Region

open Region FreeList

/-- Head and memory of a listing heap hold the plan. -/
structure Drawn {a : Alignment} (r : Region a) (l : FreeList) (p : Plan) : Prop where
  laid : r.Laid .list l.memory p.cells
  head_eq : l.head = p.order.head?
  linked : Linked (r.linksAt l.memory) none p.order none
  nodup : p.order.Nodup
  listed : ∀ x ∈ p.order, x ∈ vacant p.cells

namespace Drawn

variable {a : Alignment} {r : Region a} {l : FreeList} {p : Plan} {m' : Memory} {y : Nat}
  {c : Cell} {cs cs' front mid back : List Cell} {order : List Nat} {T : Nat → Prop}

theorem threaded (h : Drawn r l p) : Threaded r l p.order :=
  ⟨h.head_eq, h.linked, h.nodup, nodes_of_vacant h.laid.tiled h.listed,
    fun _ hx => h.laid.isFree (h.listed _ hx)⟩

/-- A list through free cells of a layout makes a plan. -/
theorem of_threaded (hlaid : r.Laid .list l.memory cs) (h : Threaded r l order)
    (hlisted : ∀ x ∈ order, x ∈ vacant cs) : Drawn r l ⟨cs, order⟩ :=
  ⟨hlaid, h.head_eq, h.linked, h.nodup, hlisted⟩

/-! ## 1. The list changes -/

/-- **A free cell enters the list.** -/
theorem push (h : Drawn r l p) (hy : y ∈ vacant p.cells) (hnot : y ∉ p.order) :
    ∃ l', l.push r y = .ok l' ∧ Drawn r l' ⟨p.cells, y :: p.order⟩ ∧
      Memory.AgreeOutside (r.Spare (inUse p.cells)) l.memory l'.memory := by
  have hlisted : ∀ x ∈ y :: p.order, x ∈ vacant p.cells := fun x hx => by
    rcases List.mem_cons.mp hx with rfl | hx
    · exact hy
    · exact h.listed x hx
  have hsub : ∀ x ∈ y :: p.order.head?.toList, x ∈ vacant p.cells := fun x hx =>
    hlisted x (mem_of_mem_entering hx)
  obtain ⟨l', hpush, hthreaded, hm⟩ :=
    h.threaded.push (nodes_of_vacant h.laid.tiled hlisted) hnot (h.laid.isFree hy)
  refine ⟨l', hpush, of_threaded (h.laid.frame_links hsub hm) hthreaded hlisted, ?_⟩
  exact hm.mono fun x hx => spare_of_linkBytes h.laid.tiled hsub hx

/-- **A listed cell leaves the list.** -/
theorem remove (h : Drawn r l p) (hy : y ∈ p.order) :
    ∃ l', l.remove r y = .ok l' ∧ Drawn r l' ⟨p.cells, p.order.erase y⟩ ∧
      Memory.AgreeOutside (r.Spare (inUse p.cells)) l.memory l'.memory := by
  obtain ⟨pre, post, horder⟩ := List.append_of_mem hy
  have herase : p.order.erase y = pre ++ post := by
    have hnot : y ∉ pre := fun hmem => by
      have hnd := h.nodup
      rw [horder] at hnd
      exact (List.nodup_append.mp hnd).2.2 y hmem y List.mem_cons_self rfl
    rw [horder, List.erase_append_right _ hnot, List.erase_cons_head]
  have hthreaded := h.threaded
  rw [horder] at hthreaded
  obtain ⟨l', hremove, hthreaded', -, hm⟩ := hthreaded.remove
  have hsub : ∀ x ∈ y :: (pre.getLast?.toList ++ post.head?.toList), x ∈ vacant p.cells := by
    intro x hx
    have hmem := mem_of_mem_leaving hx
    rw [← horder] at hmem
    exact h.listed x hmem
  rw [herase]
  refine ⟨l', hremove, of_threaded (h.laid.frame_links hsub hm) hthreaded' fun x hx => ?_, ?_⟩
  · rw [← herase] at hx
    exact h.listed x (List.mem_of_mem_erase hx)
  · exact hm.mono fun x hx => spare_of_linkBytes h.laid.tiled hsub hx

/-! ## 2. The layout changes -/

/-- **The layout changes under the list**, which goes on as it is if its nodes are free cells of the
    new layout too and no link is written. -/
theorem edit (h : Drawn r l ⟨cs, order⟩) (hlaid : r.Laid .list m' cs')
    (hm : Memory.AgreeOutside T l.memory m') (hT : ∀ x, T x → ¬ r.LinkBytes order x)
    (hlisted : ∀ x ∈ order, x ∈ vacant cs') : Drawn r ⟨l.head, m'⟩ ⟨cs', order⟩ := by
  have hlinks := h.linked.congr fun x hx => linksAt_eq hm hT hx
  exact ⟨hlaid, h.head_eq, hlinks, h.nodup, hlisted⟩

/-- **One header is written**, and a single cell takes the place of a stretch. -/
theorem setHeader (mid : List Cell) (h : Drawn r l ⟨front ++ (mid ++ back), order⟩)
    (ht : Tiled a (Strategy.list.minBlock a) 0 (front ++ c :: back) r.size)
    (hlisted : ∀ x ∈ order, x ∈ vacant (front ++ c :: back)) :
    ∃ m', r.setHeader l.memory c.offset (.ofSize c.size c.used) = .ok m' ∧
      Drawn r ⟨l.head, m'⟩ ⟨front ++ c :: back, order⟩ ∧
      Memory.AgreeOutside (r.HeaderBytes c) l.memory m' := by
  obtain ⟨m', hset, hlaid, hm⟩ := h.laid.setHeader mid ht
  have hc : c ∈ front ++ c :: back := List.mem_append_right _ List.mem_cons_self
  exact ⟨m', hset,
    h.edit hlaid hm (fun x hx => hlaid.not_linkBytes_of_headerBytes hlisted hc hx) hlisted, hm⟩

/-- **What clients write is of no concern to the heap.** -/
theorem congr_of_client (h : Drawn r l p)
    (hm : Memory.AgreeOutside (r.ClientBytes p.cells) l.memory m') : Drawn r ⟨l.head, m'⟩ p := by
  refine h.edit (h.laid.congr_of_client hm) hm (fun x hx hl => ?_) h.listed
  obtain ⟨d, hd, hfree, -, hdx, -⟩ := exists_of_linkBytes h.laid.tiled h.listed hl
  refine h.laid.not_clientBytes hd hdx (fun hu => ?_) hx
  rw [hfree] at hu
  cases hu

end Drawn

end RegionHeap
