import Mathlib.Data.Nat.Bitwise
import RegionHeap.Proofs.Heap.Accepted
import RegionHeap.Proofs.Layout.Offence

/-!
# Blocks with the wrong flag

In an intact listing heap the flag of one header is turned over. The layout that then lies in memory
is known, and so is what the list leads to: the validation finds the block, whichever it is.

* `Region.toggled` -- the memory with one flag turned over; `Laid.toggled` says what lies in it;
* `Laid.audit_adjacent` -- the audit of a layout with two free neighbours;
* `Shows.toggle_free` -- a free block that passes for allocated is found on the list;
* `Shows.toggle_used` -- an allocated block that passes for free is found next to a free one, or by
  the numbers of free blocks;
* `Block.Exposes`, `Shows.toggle` -- all of it, said of the blocks of the walk.
-/

namespace RegionHeap

/-- The cell with the other flag. -/
def Cell.toggled (c : Cell) : Cell :=
  { c with used := !c.used }

/-- The header of a cell and the one with the other flag differ in the lowest bit. -/
theorem Cell.header_toggled {a : Alignment} (c : Cell) :
    (c.header a).raw ^^^ 1 = (c.toggled.header a).raw := by
  have hmod : ((c.header a).raw ^^^ 1) % 2 = ((c.header a).raw + 1) % 2 := Nat.xor_mod_two_eq
  have hdiv : ((c.header a).raw ^^^ 1) / 2 = (c.header a).raw / 2 := by
    rw [Nat.xor_div_two, Nat.div_eq_of_lt (by decide : 1 < 2), Nat.xor_zero]
  have heven : a.alignDown c.size % 2 = 0 := by
    unfold Alignment.alignDown
    cases a <;> simp only [Alignment.bytes] <;> omega
  obtain ⟨off, size, used⟩ := c
  cases used <;>
    simp only [header, toggled, Header.ofSize, Bool.not_true, Bool.not_false, Bool.false_eq_true,
      if_true, if_false] at hmod hdiv heven ⊢ <;> omega

namespace Region

variable {a : Alignment} {r : Region a} {m : Memory} {s : Strategy} {c d : Cell}
  {front back : List Cell}

/-- The memory in which the used bit of the header at an offset is turned over. -/
def toggled (r : Region a) (m : Memory) (off : Nat) : Memory :=
  m.writeWord (r.base + off) (m.readWord (r.base + off) ^^^ 1)

/-! ## 1. The layout with the other flag -/

/-- **One cell of the layout has the other flag**, and only its header has changed. -/
theorem Laid.toggled (h : r.Laid s m (front ++ c :: back)) :
    r.Laid s (r.toggled m c.offset) (front ++ c.toggled :: back) ∧
      Memory.AgreeOutside (r.HeaderBytes c) m (r.toggled m c.offset) := by
  have hc : c ∈ front ++ c :: back := List.mem_append_right _ List.mem_cons_self
  have htiled : Tiled a (s.minBlock a) 0 (front ++ c.toggled :: back) r.size := h.tiled.flag _
  obtain ⟨m', hset, hlaid, hm⟩ := Laid.setHeader [c] h htiled
  have hwrite := setHeader_eq_ok (m := m) (x := c.toggled.header a) (h.isHeaderOffset hc).hasWord
  obtain rfl : m.writeWord (r.base + c.offset) (c.toggled.header a).raw = m' :=
    Except.ok.inj (hwrite.symm.trans hset)
  have htoggled : r.toggled m c.offset =
      m.writeWord (r.base + c.offset) (c.toggled.header a).raw := by
    rw [Region.toggled, h.holds c hc, Cell.header_toggled]
  rw [htoggled]
  exact ⟨hlaid, hm⟩

theorem Laid.not_isFree (h : r.Laid s m (front ++ c :: back)) (hused : c.used = true) :
    ¬ r.IsFree m c.offset := by
  intro hfree
  rw [IsFree, h.holds c (List.mem_append_right _ List.mem_cons_self)] at hfree
  exact hfree (Cell.header_allocated.mpr hused)

/-- The cells of a tiling that lies in memory make a chain. -/
theorem chained_of_tiled {min lo hi : Nat} {cs : List Cell} (ht : Tiled a min lo cs hi)
    (hm : r.Holds m cs) : r.Chained m lo (cs.map (Cell.block a)) hi := by
  induction cs generalizing lo with
  | nil => exact ht
  | cons c cs ih =>
    obtain ⟨rfl, hmod, -, ht⟩ := ht
    refine ⟨?_, ?_⟩
    · rw [hm c List.mem_cons_self]
      rfl
    · rw [Cell.block_next hmod]
      exact ih ht fun d hd => hm d (List.mem_cons_of_mem c hd)

/-- **The first two free neighbours of a layout** are what the audit names. -/
theorem Laid.audit_adjacent (h : r.Laid s m (front ++ c :: d :: back))
    (hsep : Separated (front ++ [c])) (hc : c.used = false) (hd : d.used = false) :
    r.audit m (s.minBlock a) true = .ok (.error (.adjacentFree c.offset d.offset)) := by
  have hmem : ∀ e ∈ front ++ [c], e ∈ front ++ c :: d :: back := fun e he => by
    rw [List.append_cons]
    exact List.mem_append_left _ he
  have hdmem : d ∈ front ++ c :: d :: back :=
    List.mem_append_right _ (List.mem_cons_of_mem c List.mem_cons_self)
  have htiled := h.tiled
  rw [List.append_cons, tiled_middle] at htiled
  have hblock : ∀ e ∈ front ++ c :: d :: back,
      ¬ (e.block a).header.Reserved ∧ s.minBlock a ≤ (e.block a).size := fun e he =>
    ⟨Cell.header_not_reserved, (h.bounds he).min_le.trans_eq
      (Cell.header_size (h.bounds he).size_mod).symm⟩
  have hfree : ∀ {e : Cell}, e.used = false → ¬ (e.block a).header.Allocated := fun he => by
    simp [Cell.block, he]
  refine FirstOffence.audit_eq ⟨(front ++ [c]).map (Cell.block a), d.block a,
    chained_of_tiled htiled.1 fun e he => h.holds e (hmem e he), ⟨?_, fun _ => ?_⟩, ?_, ?_, ?_⟩
    s.minBlock_pos
  · intro b hb
    obtain ⟨e, he, rfl⟩ := List.mem_map.mp hb
    exact hblock e (hmem e he)
  · refine List.isChain_map_of_isChain _ (fun e f hef => ?_) hsep
    exact hef.imp Cell.header_allocated.mpr Cell.header_allocated.mpr
  · show d.header a = _
    rw [show (d.block a).offset = d.offset from rfl, h.holds d hdmem]
  · have hoff := (h.isHeaderOffset hdmem).2
    have hpos := a.bytes_pos
    show d.offset < r.size
    omega
  · obtain ⟨hres, hsize⟩ := hblock d hdmem
    have hnext : (d.block a).next ≤ r.size := by
      rw [Cell.block_next (h.bounds hdmem).size_mod]
      exact (h.bounds hdmem).next_le
    have hlast : ((front ++ [c]).map (Cell.block a)).getLast? = some (c.block a) := by
      rw [List.map_append]
      exact List.getLast?_concat
    exact .adjacent (c.block a) hres hsize hnext rfl hlast (hfree hc) (hfree hd)

end Region

open Region

/-! ## 2. The validation of a listing heap -/

/-- The defect that a block shows as when its flag is turned over, between the blocks in front of it
    and those behind it. -/
inductive Block.Exposes {a : Alignment} (pre : List (Block a)) (b : Block a)
    (post : List (Block a)) : Defect → Prop
  | listed (hb : ¬ b.header.Allocated) : Exposes pre b post (.usedBlockInFreeList b.offset)
  | left (c : Block a) (hb : b.header.Allocated) (hleft : pre.getLast? = some c)
      (hc : ¬ c.header.Allocated) : Exposes pre b post (.adjacentFree c.offset b.offset)
  | right (d : Block a) (hb : b.header.Allocated)
      (hleft : ∀ c ∈ pre.getLast?, c.header.Allocated) (hright : post.head? = some d)
      (hd : ¬ d.header.Allocated) : Exposes pre b post (.adjacentFree b.offset d.offset)
  | alone (hb : b.header.Allocated) (hleft : ∀ c ∈ pre.getLast?, c.header.Allocated)
      (hright : ∀ d ∈ post.head?, d.header.Allocated) :
      Exposes pre b post (.freeCountMismatch
        ((pre ++ b :: post).countP (fun b => !decide b.header.Allocated) + 1)
        ((pre ++ b :: post).countP fun b => !decide b.header.Allocated))

theorem Block.exists_exposes {a : Alignment} (pre : List (Block a)) (b : Block a)
    (post : List (Block a)) : ∃ d, Block.Exposes pre b post d := by
  by_cases hb : b.header.Allocated
  · by_cases hleft : ∀ c ∈ pre.getLast?, c.header.Allocated
    · by_cases hright : ∀ d ∈ post.head?, d.header.Allocated
      · exact ⟨_, .alone hb hleft hright⟩
      · obtain ⟨d, hd, hfree⟩ : ∃ d, d ∈ post.head? ∧ ¬ d.header.Allocated := by
          simpa only [not_forall, exists_prop] using hright
        exact ⟨_, .right d hb hleft hd hfree⟩
    · obtain ⟨c, hc, hfree⟩ : ∃ c, c ∈ pre.getLast? ∧ ¬ c.header.Allocated := by
        simpa only [not_forall, exists_prop] using hleft
      exact ⟨_, .left c hb hc hfree⟩
  · exact ⟨_, .listed hb⟩

namespace ListHeap.Shows

variable {a : Alignment} {r : Region a} {h : ListHeap a} {m : Memory} {c d : Cell}
  {front back : List Cell} {order : List Nat} {p : Plan}

/-- **A free block that passes for allocated** is found on the list. -/
theorem toggle_free (hs : Shows r h m ⟨front ++ c :: back, order⟩) (hfree : c.used = false) :
    h.audit r (r.toggled m c.offset) = .ok (.error (.usedBlockInFreeList c.offset)) := by
  have hlaid : r.Laid .list m (front ++ c :: back) := hs.drawn.laid
  have hc : c ∈ front ++ c :: back := List.mem_append_right _ List.mem_cons_self
  have hused : c.toggled.used = true := by rw [Cell.toggled, hfree, Bool.not_false]
  obtain ⟨hlaid', hm⟩ := hlaid.toggled
  have hsep : Separated (front ++ c.toggled :: back) := by
    obtain ⟨⟨hfront, -⟩, hback, -⟩ := (separated_middle_of_free hfree).mp hs.settled.1
    exact (separated_middle_of_used hused).mpr ⟨hfront, hback⟩
  refine audit_of_list (hlaid'.audit_eq true fun _ => hsep) ?_
  obtain ⟨pre, post, horder⟩ := List.append_of_mem (hs.settled.mem_order hc hfree)
  obtain rfl : order = pre ++ c.offset :: post := horder
  refine FreeList.audit_of_used (listed_of_threaded hs.drawn.threaded) (fun x hx => ?_)
    (fun x hx => ?_) (hlaid'.not_isFree hused)
  · exact linksAt_eq hm (fun y hy => hlaid.not_linkBytes_of_headerBytes hs.drawn.listed hc hy) hx
  · -- another node is still free
    refine hlaid'.isFree ?_
    have hne : x ≠ c.offset := by
      rintro rfl
      exact (List.nodup_append.mp hs.drawn.nodup).2.2 _ hx _ List.mem_cons_self rfl
    have hold := hs.drawn.listed x (List.mem_append_left _ hx)
    rw [mem_vacant_append, mem_vacant_cons] at hold ⊢
    exact hold.imp_right fun hx => .inr (hx.resolve_left fun hat => hne hat.2.symm)

/-- **An allocated block that passes for free** is found next to a free one, the one in front first;
    and if there is none, the numbers of free blocks differ. -/
theorem toggle_used (hs : Shows r h m ⟨front ++ c :: back, order⟩) (hused : c.used = true) :
    (∀ e ∈ front.getLast?, e.used = false →
      h.audit r (r.toggled m c.offset) = .ok (.error (.adjacentFree e.offset c.offset))) ∧
    ((∀ e ∈ front.getLast?, e.used = true) → ∀ d ∈ back.head?, d.used = false →
      h.audit r (r.toggled m c.offset) = .ok (.error (.adjacentFree c.offset d.offset))) ∧
    ((∀ e ∈ front.getLast?, e.used = true) → (∀ d ∈ back.head?, d.used = true) →
      h.audit r (r.toggled m c.offset) =
        .ok (.error (.freeCountMismatch (order.length + 1) order.length))) := by
  have hlaid : r.Laid .list m (front ++ c :: back) := hs.drawn.laid
  have hc : c ∈ front ++ c :: back := List.mem_append_right _ List.mem_cons_self
  have hfree : c.toggled.used = false := by rw [Cell.toggled, hused, Bool.not_true]
  obtain ⟨hlaid', hm⟩ := hlaid.toggled
  obtain ⟨hfront, hback⟩ := (separated_middle_of_used hused).mp hs.settled.1
  refine ⟨fun e he hefree => ?_, fun hleft d hd hdfree => ?_, fun hleft hright => ?_⟩
  · obtain ⟨front, rfl⟩ := List.getLast?_eq_some_iff.mp he
    refine audit_of_blocks ?_
    rw [List.append_assoc] at hlaid'
    exact hlaid'.audit_adjacent hfront hefree hfree
  · obtain ⟨back, rfl⟩ := List.head?_eq_some_iff.mp hd
    refine audit_of_blocks (hlaid'.audit_adjacent ?_ hfree hdfree)
    refine (separated_middle_of_free hfree).mpr ⟨⟨hfront, hleft⟩, .nil, fun _ hx => nomatch hx⟩
  · -- the list runs through the same free blocks as before, and the walk finds one more
    have hsep : Separated (front ++ c.toggled :: back) :=
      (separated_middle_of_free hfree).mpr ⟨⟨hfront, hleft⟩, hback, hright⟩
    have hvacant : ∀ x ∈ order, x ∈ vacant (front ++ c.toggled :: back) := fun x hx => by
      have hold := hs.drawn.listed x hx
      rw [mem_vacant_append, mem_vacant_cons] at hold ⊢
      exact hold.imp_right fun hx => .inr (hx.resolve_left fun hat => by simp [hused] at hat)
    have hdrawn : Drawn r ⟨h.head, r.toggled m c.offset⟩ ⟨front ++ c.toggled :: back, order⟩ :=
      hs.drawn.edit hlaid' hm
        (fun y hy => hlaid.not_linkBytes_of_headerBytes hs.drawn.listed hc hy) hvacant
    have hlist : FreeList.audit r ⟨h.head, r.toggled m c.offset⟩ = .ok (.ok order.length) :=
      FreeList.audit_eq_ok_iff.mpr ⟨order, listed_of_threaded hdrawn.threaded, rfl⟩
    have hblocks := hlaid'.audit_eq true fun _ => hsep
    have hcount : (front ++ c.toggled :: back).countP (fun c => !c.used) = order.length + 1 := by
      rw [hs.settled.2.length_eq, length_vacant, List.countP_append, List.countP_append,
        List.countP_cons_of_pos (by simp [hfree]), List.countP_cons_of_neg (by simp [hused])]
      exact (Nat.add_assoc _ _ _).symm
    rw [hcount] at hblocks
    exact audit_of_counts hblocks hlist (Nat.succ_ne_self _)

/-- **A flag that is turned over is found**, whichever block of the walk it belongs to. -/
theorem toggle {pre post : List (Block a)} {b : Block a} {d : Defect} (hs : Shows r h m p)
    (hblocks : r.blocks m = .ok (pre ++ b :: post)) (hd : Block.Exposes pre b post d) :
    h.audit r (r.toggled m b.offset) = .ok (.error d) := by
  obtain ⟨cells, order⟩ := p
  have hmap : cells.map (Cell.block a) = pre ++ b :: post :=
    Except.ok.inj (hs.drawn.laid.blocks_eq.symm.trans hblocks)
  obtain ⟨front, rest, rfl, rfl, hrest⟩ := List.map_eq_append_iff.mp hmap
  obtain ⟨c, back, rfl, rfl, rfl⟩ := List.map_eq_cons_iff.mp hrest
  have hflag : ∀ e : Cell, ¬ (e.block a).header.Allocated ↔ e.used = false := fun e => by
    simp [Cell.block]
  have hall : ∀ e? : Option Cell, (∀ b ∈ e?.map (Cell.block a), b.header.Allocated) →
      ∀ e ∈ e?, e.used = true := fun e? h e he =>
    Cell.header_allocated.mp (h (e.block a) (Option.mem_map_of_mem _ he))
  cases hd with
  | listed hb => exact hs.toggle_free ((hflag c).mp hb)
  | left e hb hleft he =>
    rw [List.getLast?_map] at hleft
    obtain ⟨e, hlast, rfl⟩ := Option.map_eq_some_iff.mp hleft
    exact (hs.toggle_used (Cell.header_allocated.mp hb)).1 e hlast ((hflag e).mp he)
  | right e hb hleft hright he =>
    rw [List.getLast?_map] at hleft
    rw [List.head?_map] at hright
    obtain ⟨e, hhead, rfl⟩ := Option.map_eq_some_iff.mp hright
    exact (hs.toggle_used (Cell.header_allocated.mp hb)).2.1 (hall _ hleft) e hhead
      ((hflag e).mp he)
  | alone hb hleft hright =>
    rw [List.getLast?_map] at hleft
    rw [List.head?_map] at hright
    have hlen : order.length =
        (front.map (Cell.block a) ++ c.block a :: back.map (Cell.block a)).countP
          fun b => !decide b.header.Allocated := by
      rw [← hmap, Cell.countP_block, hs.settled.2.length_eq, length_vacant]
    rw [← hlen]
    exact (hs.toggle_used (Cell.header_allocated.mp hb)).2.2 (hall _ hleft) (hall _ hright)

end ListHeap.Shows

end RegionHeap
