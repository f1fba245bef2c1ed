import Mathlib.Data.List.Perm.Subperm
import RegionHeap.Proofs.FreeList.Drawn

/-!
# The edits of a listing heap

Each edit of the free list, with the headers that it writes, does to the plan in memory what the
function of the same name does to the plan on paper. It does not fault, and it writes to no cell in
use but the one that it is about, of whose payload the bytes to keep are left alone.

* `Drawn.coalesce` -- a free cell takes in the free cell behind it;
* `Drawn.splitTail`, `Drawn.splitTail_snug` -- a cell in use gives back what it does not need, or has
  nothing to give back;
* `Drawn.firstFit` -- the search along the list ends, and finds what the plan says;
* `Drawn.grow?_some` -- a cell in use takes in the free cell behind it, if that suffices.

No two neighbours are free in between, so the loops that take in the free cells behind make at most
two passes.
-/

namespace RegionHeap

namespace Drawn

open Region FreeList

variable {a : Alignment} {r : Region a} {l : FreeList} {p : Plan} {need keep : Nat}
  {c d : Cell} {front back : List Cell} {order : List Nat}

/-- The header of a listed cell can be read, and is that of a free one. -/
theorem freeHeader_eq (h : Drawn r l p) (hc : c ∈ p.cells) (hlist : c.offset ∈ p.order) :
    r.freeHeader l.memory c.offset = .ok (c.header a) := by
  rw [h.threaded.nodes.freeHeader_eq hlist (h.threaded.free _ hlist), h.laid.holds c hc]

/-! ## 1. Merging with the cell behind -/

/-- A region is large enough for two passes over a cell. -/
theorem exists_passes (h : Drawn r l ⟨front ++ c :: back, order⟩) :
    ∃ passes, r.size = passes + 2 := by
  have hb := h.laid.bounds (List.mem_append_right front (List.mem_cons_self (a := c) (l := back)))
  have h1 := hb.next_le
  have h2 := hb.min_le
  have h3 := a.bytes_pos
  rw [minBlock_list, Word.size] at h2
  unfold Cell.next at h1
  exact ⟨r.size - 2, by omega⟩

/-- What lies behind a cell is the end of the region or the next cell. -/
theorem behind_eq (h : Drawn r l ⟨front ++ c :: back, order⟩) :
    (back = [] → c.next = r.size) ∧
      ∀ d rest, back = d :: rest → d.offset = c.next ∧ ¬ r.size ≤ c.next := by
  have htail := (tiled_middle.mp h.laid.tiled).2.2.2
  constructor
  · intro e
    subst e
    exact htail
  · rintro d rest rfl
    obtain ⟨h1, -, h2, h3⟩ := htail
    have h4 := h3.le
    have h5 := Strategy.list.minBlock_pos (a := a)
    unfold Cell.next at h4 h1 ⊢
    exact ⟨h1, by omega⟩

/-- Where no free cell lies behind, nothing is taken in. -/
theorem absorb_stop (h : Drawn r l ⟨front ++ c :: back, order⟩)
    (hstop : ∀ d ∈ back.head?, d.used = true) (passes : Nat) :
    absorb r c.offset (passes + 1) c.size l = .ok l := by
  have hc : c ∈ front ++ c :: back := List.mem_append_right _ List.mem_cons_self
  unfold absorb
  simp only [h.laid.next_eq hc, bind, Except.bind]
  cases back with
  | nil =>
    rw [if_pos (Nat.le_of_eq (h.behind_eq.1 rfl).symm)]
    rfl
  | cons d back =>
    obtain ⟨h1, h2⟩ := h.behind_eq.2 d back rfl
    have hd : d ∈ front ++ c :: d :: back :=
      List.mem_append_right _ (List.mem_cons_of_mem c List.mem_cons_self)
    have hread := h.laid.header_eq hd
    rw [h1] at hread
    rw [if_neg h2, hread]
    show (if (d.header a).Allocated then _ else _) = _
    rw [if_pos (Cell.header_allocated.mpr (hstop d rfl))]
    rfl

/-- The list goes on without a cell that is no longer there. -/
theorem listed_erase (h : Drawn r l p) {y : Nat} {cs : List Cell}
    (hkeep : ∀ x ∈ vacant p.cells, x ≠ y → x ∈ vacant cs) :
    ∀ x ∈ p.order.erase y, x ∈ vacant cs := by
  intro x hx
  obtain ⟨hne, hx⟩ := (List.Nodup.mem_erase_iff h.nodup).mp hx
  exact hkeep x (h.listed x hx) hne

/-- A cell is off the list once it was merged into the cell in front. -/
theorem listed_of_merge (h : Drawn r l ⟨front ++ c :: d :: back, order⟩) {c' : Cell}
    (ho : c'.offset = c.offset) (hu : c'.used = c.used) :
    ∀ x ∈ order.erase d.offset, x ∈ vacant (front ++ c' :: back) := by
  refine h.listed_erase fun x hx hne => ?_
  rw [mem_vacant_append, mem_vacant_cons, mem_vacant_cons] at hx
  rw [mem_vacant_append, mem_vacant_cons, ho, hu]
  exact hx.imp_right (.imp_right fun hx => hx.resolve_left fun hd => hne hd.2.symm)

/-- A cell and the one behind it tile as well when they are one. -/
theorem tiled_merged (h : Drawn r l ⟨front ++ c :: d :: back, order⟩) (used : Bool) :
    Tiled a (Strategy.list.minBlock a) 0 (front ++ ⟨c.offset, c.size + d.size, used⟩ :: back)
      r.size := by
  obtain ⟨hfront, hmod, hmin, ho, hdmod, -, hback⟩ := tiled_middle.mp h.laid.tiled
  refine tiled_middle.mpr ⟨hfront, ?_, Nat.le_add_right_of_le hmin, ?_⟩
  · rw [Nat.add_mod, hmod, hdmod, Nat.zero_add, Nat.zero_mod]
  · unfold Cell.next at hback ho ⊢
    rwa [ho, Nat.add_assoc] at hback

theorem add_eq (h : Drawn r l ⟨front ++ c :: d :: back, order⟩) :
    Word.add c.size d.size = .ok (c.size + d.size) := by
  have h1 : c.offset + (c.size + d.size) ≤ r.size :=
    ((h.tiled_merged c.used).bounds (List.mem_append_right _ List.mem_cons_self)).next_le
  have h2 := r.base_add_size_lt
  exact Word.add_eq_ok (by omega)

/-- **A cell takes in the free cell behind it**, which leaves the list. -/
theorem takeIn (h : Drawn r l ⟨front ++ c :: d :: back, order⟩)
    (hlist : d.offset ∈ order) :
    ∃ l1 m2, l.remove r d.offset = .ok l1 ∧
      r.setHeader l1.memory c.offset (.ofSize (c.size + d.size) c.used) = .ok m2 ∧
      Drawn r ⟨l1.head, m2⟩ ⟨front ++ ⟨c.offset, c.size + d.size, c.used⟩ :: back,
        order.erase d.offset⟩ ∧
      Memory.AgreeOutside (fun x => r.Spare (inUse (front ++ c :: back)) x ∨ r.HeaderBytes c x)
        l.memory m2 := by
  obtain ⟨l1, hremove, hdrawn, hm1⟩ := h.remove hlist
  obtain ⟨m2, hset, hdrawn2, hm2⟩ :=
    hdrawn.setHeader [c, d] (h.tiled_merged _) (h.listed_of_merge rfl rfl)
  refine ⟨l1, m2, hremove, hset, hdrawn2, (hm1.mono fun x hx => .inl ?_).trans (hm2.mono fun x => .inr)⟩
  refine hx.mono fun e he => ?_
  obtain ⟨he, hu⟩ := mem_inUse.mp he
  refine mem_inUse.mpr ⟨?_, hu⟩
  simp only [List.mem_append, List.mem_cons] at he ⊢
  tauto

/-- **A free cell takes in the free cell behind it**, if there is one. -/
theorem absorb (h : Drawn r l ⟨front ++ c :: back, order⟩) (hc : c.used = false)
    (hsep : Separated back) (hlist : ∀ d ∈ back.head?, d.used = false → d.offset ∈ order) :
    ∃ l', (∀ passes, absorb r c.offset (passes + 2) c.size l = .ok l') ∧
      Drawn r l' (.put .list front c back order) ∧
      Memory.AgreeOutside (r.Spare (inUse front ++ inUse back)) l.memory l'.memory := by
  have hcmem : c ∈ front ++ c :: back := List.mem_append_right _ List.mem_cons_self
  by_cases hstop : ∀ d ∈ back.head?, d.used = true
  · refine ⟨l, fun _ => h.absorb_stop hstop _, ?_, .refl _ _⟩
    cases back with
    | nil => exact h
    | cons d back =>
      have hd := hstop d rfl
      simpa only [Plan.put, Plan.merge, Plan.unlist, hd, if_true] using h
  · cases back with
    | nil =>
      refine absurd (fun d hd => ?_) hstop
      cases hd
    | cons d back =>
      have hd : d.used = false := by
        cases hu : d.used with
        | true => exact absurd (fun e he => by cases he; exact hu) hstop
        | false => rfl
      have hdmem : d ∈ front ++ c :: d :: back :=
        List.mem_append_right _ (List.mem_cons_of_mem c List.mem_cons_self)
      obtain ⟨h1, h2⟩ := h.behind_eq.2 d back rfl
      have hread := h.laid.header_eq hdmem
      rw [h1] at hread
      obtain ⟨l1, m2, hremove, hset, hdrawn2, hm⟩ := h.takeIn (hlist d rfl hd)
      -- the cell behind `d` is in use, since `d` is free
      have hstop2 := hdrawn2.absorb_stop ((separated_cons_of_free hd).mp hsep).2
      refine ⟨⟨l1.head, m2⟩, fun passes => ?_, ?_, ?_⟩
      · rw [hc] at hset
        unfold FreeList.absorb
        simp only [h.laid.next_eq hcmem, hread, bind, Except.bind]
        rw [if_neg h2]
        show (if (d.header a).Allocated then _ else _) = _
        rw [if_neg (by simp [hd])]
        simp only [← h1, hremove, Cell.header_size (h.laid.bounds hdmem).size_mod, h.add_eq,
          hset]
        exact hstop2 passes
      · simpa only [Plan.put, Plan.merge, Plan.unlist, hd, Bool.false_eq_true, if_false] using hdrawn2
      · rw [inUse_cons_of_free hd]
        refine hm.mono fun x hx => ?_
        rcases hx with hx | hx
        · rwa [inUse_append, inUse_cons_of_free hc] at hx
        · have hcover := hdrawn2.laid.covers_of_headerBytes
            (List.mem_append_right _ List.mem_cons_self) hx
          exact spare_of_covers hdrawn2.laid.tiled hcover

/-- **A free cell is merged with the cells behind it.** -/
theorem coalesce (h : Drawn r l ⟨front ++ c :: back, order⟩) (hc : c.used = false)
    (hsep : Separated back) (hlist : ∀ d ∈ back.head?, d.used = false → d.offset ∈ order) :
    ∃ l', FreeList.coalesce r l c.offset = .ok l' ∧
      Drawn r l' (.put .list front c back order) ∧
      Memory.AgreeOutside (r.Spare (inUse front ++ inUse back)) l.memory l'.memory := by
  have hcmem : c ∈ front ++ c :: back := List.mem_append_right _ List.mem_cons_self
  obtain ⟨passes, hpasses⟩ := h.exists_passes
  obtain ⟨l', habsorb, hdrawn, hm⟩ := h.absorb hc hsep hlist
  refine ⟨l', ?_, hdrawn, hm⟩
  unfold FreeList.coalesce
  simp only [h.laid.header_eq hcmem, bind, Except.bind]
  rw [if_neg (by simp [hc])]
  rw [Cell.header_size (h.laid.bounds hcmem).size_mod, hpasses]
  exact habsorb passes

/-- **A free cell enters the list** and is merged with the cells behind it. -/
theorem enter (h : Drawn r l ⟨front ++ c :: back, order⟩) (hc : c.used = false)
    (hnot : c.offset ∉ order) (hsep : Separated back)
    (hlist : ∀ d ∈ back.head?, d.used = false → d.offset ∈ order) :
    ∃ l1 l', l.push r c.offset = .ok l1 ∧ l1.coalesce r c.offset = .ok l' ∧
      Drawn r l' (.put .list front c back (c.offset :: order)) ∧
      Memory.AgreeOutside (r.Spare (inUse front ++ inUse back)) l.memory l'.memory := by
  have hvacant : c.offset ∈ vacant (front ++ c :: back) :=
    mem_vacant.mpr ⟨c, List.mem_append_right _ List.mem_cons_self, hc, rfl⟩
  obtain ⟨l1, hpush, hdrawn, hm1⟩ := h.push hvacant hnot
  obtain ⟨l2, hcoalesce, hdrawn2, hm2⟩ := hdrawn.coalesce hc hsep
    fun d hd hfree => List.mem_cons_of_mem _ (hlist d hd hfree)
  refine ⟨l1, l2, hpush, hcoalesce, hdrawn2, Memory.AgreeOutside.trans (hm1.mono fun x hx => ?_) hm2⟩
  rwa [inUse_append, inUse_cons_of_free hc] at hx

/-! ## 2. Splitting -/

/-- No listed cell begins inside of a cell in use. -/
theorem not_listed_inside (h : Drawn r l p) (hcmem : c ∈ p.cells) (hc : c.used = true) {y : Nat}
    (h1 : c.offset ≤ y) (h2 : y < c.next) : y ∉ p.order := by
  intro hy
  obtain ⟨e, he, hfree, rfl⟩ := mem_vacant.mp (h.listed y hy)
  have hcover : e.Covers r.base (r.base + e.offset) := by
    have h3 := (h.laid.bounds he).min_le
    have h4 := Strategy.list.minBlock_pos (a := a)
    unfold Cell.Covers Cell.next
    omega
  have hsame := h.laid.eq_of_covers hcmem he (x := r.base + e.offset)
    ⟨Nat.add_le_add_left h1 _, Nat.add_lt_add_left h2 _⟩ hcover
  rw [hsame, hfree] at hc
  cases hc

/-- A cell in use is not listed. -/
theorem not_listed (h : Drawn r l p) (hcmem : c ∈ p.cells) (hc : c.used = true) :
    c.offset ∉ p.order := by
  refine h.not_listed_inside hcmem hc (Nat.le_refl _) ?_
  have h1 := (h.laid.bounds hcmem).min_le
  have h2 := Strategy.list.minBlock_pos (a := a)
  unfold Cell.next
  omega

/-- A cell in use is cut in two, the second of which is free and not yet listed. -/
theorem split (h : Drawn r l ⟨front ++ c :: back, order⟩) (hc : c.used = true)
    (hmod : keep % a.bytes = 0) (hmin : Strategy.list.minBlock a ≤ keep)
    (hrest : Strategy.list.minBlock a ≤ c.size - keep) :
    ∃ m1 m2, r.setHeader l.memory c.offset (.ofSize keep true) = .ok m1 ∧
      r.setHeader m1 (c.offset + keep) (.ofSize (c.size - keep) false) = .ok m2 ∧
      Drawn r ⟨l.head, m2⟩ ⟨front ++ ⟨c.offset, keep, true⟩ ::
        ⟨c.offset + keep, c.size - keep, false⟩ :: back, order⟩ ∧
      Memory.AgreeOutside (fun x => r.Spare (inUse front ++ inUse back) x ∧ ¬ r.Kept c keep x)
        l.memory m2 := by
  obtain ⟨m1, m2, hset1, hset2, hlaid, hm⟩ := h.laid.split hmod hmin hrest
  have hlisted : ∀ x ∈ order, x ∈ vacant
      (front ++ ⟨c.offset, keep, true⟩ :: ⟨c.offset + keep, c.size - keep, false⟩ :: back) := by
    intro x hx
    have hx := h.listed x hx
    rw [vacant_append, vacant_cons_of_used hc, List.mem_append] at hx
    rw [vacant_append, vacant_cons_of_used rfl, vacant_cons_of_free rfl, List.mem_append]
    exact hx.imp_right (List.mem_cons_of_mem _)
  refine ⟨m1, m2, hset1, hset2, h.edit hlaid hm (fun x hx => ?_) hlisted,
    hm.mono fun x hx => h.laid.spare_of_headers hrest hx⟩
  rcases hx with hx | hx
  · exact hlaid.not_linkBytes_of_headerBytes hlisted (by simp) hx
  · exact hlaid.not_linkBytes_of_headerBytes hlisted (by simp) hx

/-- A cell in use has nothing to give back if it was cut down before. -/
theorem splitTail_snug (h : Drawn r l p) (hmem : c ∈ p.cells) (hc : c.used = true)
    (hsnug : Strategy.list.Snug a keep c.size) :
    FreeList.splitTail r l c.offset keep = .ok l := by
  have hsmall : c.size - keep < Strategy.list.minBlock a :=
    Nat.sub_lt_left_of_lt_add hsnug.le hsnug.lt
  unfold FreeList.splitTail
  simp only [h.laid.header_eq hmem, Cell.header_allocated,
    Cell.header_size (h.laid.bounds hmem).size_mod, hc, hsnug.le, hsmall, bind, Except.bind, pure,
    Except.pure, if_true]

/-- **A cell in use gives back what it does not need.** The bytes that it keeps stay as they are. -/
theorem splitTail (h : Drawn r l ⟨front ++ c :: back, order⟩) (hc : c.used = true)
    (hkeep : keep ≤ c.size) (hmod : keep % a.bytes = 0) (hmin : Strategy.list.minBlock a ≤ keep)
    (hsep : Separated back) (hlist : ∀ d ∈ back.head?, d.used = false → d.offset ∈ order) :
    ∃ l', FreeList.splitTail r l c.offset keep = .ok l' ∧
      Drawn r l' (.splitTail a .list keep ⟨front, c, back⟩ order) ∧
      Memory.AgreeOutside (fun x => r.Spare (inUse front ++ inUse back) x ∧ ¬ r.Kept c keep x)
        l.memory l'.memory := by
  have hcmem : c ∈ front ++ c :: back := List.mem_append_right _ List.mem_cons_self
  have hb := h.laid.bounds hcmem
  unfold Plan.splitTail
  by_cases hsmall : c.size - keep < Strategy.list.minBlock a
  · have hsame : ({ c with used := true } : Cell) = c := by rw [← hc]
    refine ⟨l, h.splitTail_snug hcmem hc ⟨hkeep, by omega⟩, ?_, .refl _ _⟩
    rw [if_pos hsmall, hsame]
    exact h
  · obtain ⟨m1, m2, hset1, hset2, hdrawn, hm⟩ := h.split hc hmod hmin (Nat.not_lt.mp hsmall)
    have hinside : c.offset + keep < c.next := by
      have h1 := Strategy.list.minBlock_pos (a := a)
      unfold Cell.next
      omega
    have hdrawn' : Drawn r ⟨l.head, m2⟩ ⟨(front ++ [⟨c.offset, keep, true⟩]) ++
        ⟨c.offset + keep, c.size - keep, false⟩ :: back, order⟩ := by
      rw [List.append_assoc]
      exact hdrawn
    obtain ⟨l3, l4, hpush, hcoalesce, hdrawn4, hm4⟩ := hdrawn'.enter rfl
      (h.not_listed_inside hcmem hc (Nat.le_add_right ..) hinside) hsep hlist
    refine ⟨l4, ?_, ?_, hm.trans (hm4.mono fun x hx => ?_)⟩
    · unfold FreeList.splitTail
      simp only [h.laid.header_eq hcmem, Cell.header_allocated, Cell.header_size hb.size_mod, hc,
        hkeep, hsmall, bind, Except.bind, pure, Except.pure, if_true, if_false, hset1, hset2, hpush]
      exact hcoalesce
    · rw [if_neg hsmall]
      exact hdrawn4
    · rw [inUse_append, inUse_cons_of_used rfl, inUse_nil, List.append_assoc] at hx
      exact spare_of_kept hx

/-! ## 3. Searching -/

/-- A list has no more nodes than there are words in the region. -/
theorem length_order_le (h : Drawn r l p) : p.order.length ≤ r.size / Word.size := by
  have h1 : p.order.length ≤ (vacant p.cells).length :=
    (List.subperm_of_subset h.nodup h.listed).length_le
  have h2 : (vacant p.cells).length ≤ p.cells.length := by
    rw [length_vacant]
    exact List.countP_le_length
  have h3 := h.laid.tiled.length_mul_le
  have h4 : Word.size ≤ Strategy.list.minBlock a :=
    Nat.le_trans a.wordSize_le_bytes Strategy.list.bytes_le_minBlock
  have h5 := Nat.mul_le_mul_left p.cells.length h4
  rw [Nat.le_div_iff_mul_le (by decide)]
  have h6 := Nat.mul_le_mul_right Word.size (Nat.le_trans h1 h2)
  omega

/-- The search from a node on finds the first of the remaining nodes that is large enough. -/
theorem firstFitFrom (h : Drawn r l p) {steps : Nat} {pre rest : List Nat}
    (horder : p.order = pre ++ rest) (hsteps : rest.length ≤ steps) :
    FreeList.firstFitFrom r l.memory need steps rest.head? =
      .ok (((rest.find? fun x => (focus? x p.cells).any fun f => decide (need ≤ f.cell.size)).bind
        fun x => focus? x p.cells).map fun f => f.cell.block a) := by
  induction rest generalizing pre steps with
  | nil =>
    unfold FreeList.firstFitFrom
    rfl
  | cons x rest ih =>
    obtain ⟨steps, rfl⟩ : ∃ k, steps = k + 1 := ⟨steps - 1, by rw [List.length_cons] at hsteps; omega⟩
    have hx : x ∈ p.order := by
      rw [horder]
      exact List.mem_append_right _ List.mem_cons_self
    obtain ⟨c, hc, hfree, rfl⟩ := mem_vacant.mp (h.listed x hx)
    obtain ⟨f, hf, rfl⟩ := exists_focus? h.laid.tiled Strategy.list.minBlock_pos hc
    have hhead := h.freeHeader_eq hc hx
    have hnext : r.links l.memory f.cell.offset = .ok ⟨pre.getLast?, rest.head?⟩ := by
      have hlinked := h.linked
      rw [horder] at hlinked
      rw [h.threaded.nodes.links_eq hx, hlinked.links_eq]
    rw [List.head?_cons]
    unfold FreeList.firstFitFrom
    simp only [hhead, bind, Except.bind]
    rw [Cell.header_size (h.laid.bounds hc).size_mod, List.find?_cons, hf, Option.any_some]
    by_cases hfit : need ≤ f.cell.size
    · rw [if_pos hfit, decide_eq_true hfit]
      simp only [Option.bind_some, hf]
      rfl
    · rw [if_neg hfit, decide_eq_false hfit]
      simp only [hnext]
      have horder : p.order = (pre ++ [f.cell.offset]) ++ rest := by
        rw [horder, List.append_assoc]
        rfl
      exact ih horder (Nat.le_of_succ_le_succ hsteps)

/-- **The search along the list** ends and finds the block that the plan says. -/
theorem firstFit (h : Drawn r l p) :
    FreeList.firstFit r l need = .ok ((p.fit? .list need).map fun f => f.cell.block a) := by
  rw [FreeList.firstFit, h.head_eq]
  have horder : p.order = [] ++ p.order := rfl
  exact h.firstFitFrom horder h.length_order_le

/-! ## 4. Growing in place -/

/-- The measuring ends where no free cell lies behind. -/
theorem reach_stop (h : Drawn r l ⟨front ++ c :: back, order⟩)
    (hstop : ∀ d ∈ back.head?, d.used = true) {off size : Nat} (hsum : off + size = c.next)
    (need passes : Nat) : reach r l.memory off need (passes + 1) size = .ok size := by
  have hc : c ∈ front ++ c :: back := List.mem_append_right _ List.mem_cons_self
  have hadd : Word.add off size = .ok c.next := by
    have h1 := (h.laid.bounds hc).next_le
    have h2 := r.base_add_size_lt
    rw [← hsum]
    exact Word.add_eq_ok (by omega)
  unfold reach
  split
  · rfl
  · simp only [hadd, bind, Except.bind]
    cases back with
    | nil =>
      rw [if_pos (Nat.le_of_eq (h.behind_eq.1 rfl).symm)]
      rfl
    | cons d back =>
      obtain ⟨h1, h2⟩ := h.behind_eq.2 d back rfl
      have hread := h.laid.header_eq (c := d)
        (List.mem_append_right _ (List.mem_cons_of_mem c List.mem_cons_self))
      rw [h1] at hread
      rw [if_neg h2, hread]
      show (if (d.header a).Allocated then _ else _) = _
      rw [if_pos (Cell.header_allocated.mpr (hstop d rfl))]
      rfl

/-- What a cell in use reaches is itself and the free cell behind it. -/
theorem reach (h : Drawn r l ⟨front ++ c :: d :: back, order⟩) (hd : d.used = false)
    (hsep : Separated (d :: back)) (hneed : c.size < need) (passes : Nat) :
    FreeList.reach r l.memory c.offset need (passes + 2) c.size = .ok (c.size + d.size) := by
  have hcmem : c ∈ front ++ c :: d :: back := List.mem_append_right _ List.mem_cons_self
  have hdmem : d ∈ front ++ c :: d :: back :=
    List.mem_append_right _ (List.mem_cons_of_mem c List.mem_cons_self)
  obtain ⟨h1, h2⟩ := h.behind_eq.2 d back rfl
  have hread := h.laid.header_eq hdmem
  rw [h1] at hread
  have hmove : Drawn r l ⟨(front ++ [c]) ++ d :: back, order⟩ := by
    rw [List.append_assoc]
    exact h
  have hsum : c.offset + (c.size + d.size) = d.next := by
    unfold Cell.next at h1 ⊢
    omega
  have hstop := hmove.reach_stop ((separated_cons_of_free hd).mp hsep).2 hsum need passes
  unfold FreeList.reach
  rw [if_neg (Nat.not_le.mpr hneed)]
  simp only [h.laid.next_eq hcmem, hread, bind, Except.bind]
  rw [if_neg h2]
  show (if (d.header a).Allocated then _ else _) = _
  rw [if_neg (by simp [hd])]
  simp only [Cell.header_size (h.laid.bounds hdmem).size_mod, h.add_eq]
  exact hstop

/-- Gathering ends behind the free cell that suffices. -/
theorem gather (h : Drawn r l ⟨front ++ c :: d :: back, order⟩) (hlist : d.offset ∈ order)
    (hneed : c.size < need) (hfit : need ≤ c.size + d.size) {l1 : FreeList}
    (hremove : l.remove r d.offset = .ok l1) (passes : Nat) :
    FreeList.gather r c.offset need (passes + 2) c.size l = .ok (c.size + d.size, l1) := by
  have hdmem : d ∈ front ++ c :: d :: back :=
    List.mem_append_right _ (List.mem_cons_of_mem c List.mem_cons_self)
  have ho : d.offset = c.offset + c.size := (h.behind_eq.2 d back rfl).1
  have hread := h.freeHeader_eq hdmem hlist
  unfold FreeList.gather
  rw [if_neg (Nat.not_le.mpr hneed), ← ho]
  simp only [hread, hremove, Cell.header_size (h.laid.bounds hdmem).size_mod, h.add_eq, bind,
    Except.bind]
  unfold FreeList.gather
  rw [if_pos hfit]
  rfl

/-- Nothing changes when the plan says that a cell in use cannot grow. -/
theorem grow?_none (h : Drawn r l ⟨front ++ c :: back, order⟩) (hneed : c.size < need)
    (hsep : Separated back) (hplan : Plan.grow? a .list need ⟨front, c, back⟩ order = none) :
    FreeList.grow? r l c.offset need = .ok none := by
  have hcmem : c ∈ front ++ c :: back := List.mem_append_right _ List.mem_cons_self
  obtain ⟨passes, hpasses⟩ := h.exists_passes
  have hreach : ∃ size, size < need ∧
      FreeList.reach r l.memory c.offset need (passes + 2 + 1) c.size = .ok size := by
    cases back with
    | nil => exact ⟨c.size, hneed, h.reach_stop (fun _ hd => nomatch hd) rfl need _⟩
    | cons d back =>
      cases hd : d.used with
      | true =>
        exact ⟨c.size, hneed, h.reach_stop (fun e he => by cases he; exact hd) rfl need _⟩
      | false =>
        refine ⟨c.size + d.size, Nat.not_le.mp fun hfit => ?_, h.reach hd hsep hneed _⟩
        simp [Plan.grow?, hd, hfit] at hplan
  obtain ⟨size, hlt, hreach⟩ := hreach
  unfold FreeList.grow?
  simp only [h.laid.header_eq hcmem, Cell.header_size (h.laid.bounds hcmem).size_mod, hpasses,
    hreach, bind, Except.bind]
  rw [if_pos hlt]
  rfl

/-- **A cell in use grows into the free cell behind it** when the plan says so. All of its payload
    stays as it is. -/
theorem grow?_some {p' : Plan} (h : Drawn r l ⟨front ++ c :: back, order⟩) (hc : c.used = true)
    (hneed : c.size < need) (hmod : need % a.bytes = 0) (hsep : Separated back)
    (hlist : ∀ d ∈ back.head?, d.used = false → d.offset ∈ order)
    (hplan : Plan.grow? a .list need ⟨front, c, back⟩ order = some p') :
    ∃ l', FreeList.grow? r l c.offset need = .ok (some l') ∧ Drawn r l' p' ∧
      Memory.AgreeOutside (fun x => r.Spare (inUse front ++ inUse back) x ∧ ¬ r.Kept c c.size x)
        l.memory l'.memory := by
  obtain ⟨-, d, back, hback, hd, hfit, rfl⟩ := Plan.grow?_eq_some hplan
  simp only at hback
  subst hback
  have hcmem : c ∈ front ++ c :: d :: back := List.mem_append_right _ List.mem_cons_self
  have hb := h.laid.bounds hcmem
  obtain ⟨passes, hpasses⟩ := h.exists_passes
  obtain ⟨l1, m2, hremove, hset, hdrawn, hm⟩ := h.takeIn (hlist d rfl hd)
  obtain ⟨hback, hnext⟩ := (separated_cons_of_free hd).mp hsep
  obtain ⟨l3, hsplit, hdrawn3, hm3⟩ := hdrawn.splitTail hc hfit hmod
    (Nat.le_trans hb.min_le (Nat.le_of_lt hneed)) hback
    fun e he hfree => absurd (hnext e he) (by simp [hfree])
  have hreach := h.reach hd hsep hneed (passes + 1)
  have hgather := h.gather (hlist d rfl hd) hneed hfit hremove (passes + 1)
  rw [hc] at hset
  refine ⟨l3, ?_, hdrawn3, (hm.mono fun x hx => ?_).trans (hm3.mono fun x hx => ?_)⟩
  · unfold FreeList.grow?
    simp only [h.laid.header_eq hcmem, Cell.header_size hb.size_mod, hpasses, hreach, hgather, hset,
      hsplit, bind, Except.bind, pure, Except.pure]
    rw [if_neg (Nat.not_lt.mpr hfit)]
  · rw [inUse_cons_of_free hd]
    rcases hx with hx | hx
    · have hself : c = ⟨c.offset, c.size, true⟩ := by rw [← hc]
      rw [inUse_append, inUse_cons_of_used hc, hself] at hx
      exact spare_of_kept hx
    · have hspare := spare_of_covers h.laid.tiled (h.laid.covers_of_headerBytes hcmem hx)
      rw [inUse_cons_of_free hd] at hspare
      exact ⟨hspare, not_kept_of_headerBytes hx⟩
  · rw [inUse_cons_of_free hd]
    refine ⟨hx.1, fun hk => hx.2 ⟨hk.1, Nat.lt_of_lt_of_le hk.2 ?_⟩⟩
    exact Nat.add_le_add_left (Nat.le_of_lt hneed) _

end Drawn

end RegionHeap
