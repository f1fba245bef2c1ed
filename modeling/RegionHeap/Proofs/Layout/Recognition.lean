import RegionHeap.Proofs.Layout.Rewalk

/-!
# Which addresses name live allocations

Any address may come in, and a client can write words that look like headers in front of it. What
decides is the walk: the address names a live allocation exactly if the walk comes to the offset one
header in front of it and finds a header there that an allocated block can have. All of this holds on
any memory, also where the walk runs into sizes that make no sense.

* `Block.leftOf?_eq_some_iff` -- the search for the neighbour in front may end early, since offsets
  increase along the walk, and still finds every block;
* `live?_payload` -- what is found at an address, once header and walk are known;
* `Names` -- an address names an allocation; `live?_names` finds it;
* `live?_recognizes` -- the same for every memory and address, with what is known of the neighbour.
-/

namespace RegionHeap

/-! ## 1. The search for the neighbour in front -/

/-- What lies somewhere in a list is its first element or lies in the rest. -/
theorem exists_split_cons {α : Type} {x : α} {xs : List α} {P : List α → α → Prop} :
    (∃ front y back, x :: xs = front ++ y :: back ∧ P front y) ↔
      P [] x ∨ ∃ front y back, xs = front ++ y :: back ∧ P (x :: front) y := by
  constructor
  · intro hex
    obtain ⟨front, y, back, heq, hP⟩ := hex
    rcases List.cons_eq_append_iff.mp heq with ⟨rfl, hback⟩ | ⟨front', rfl, hrest⟩
    · cases hback
      exact .inl hP
    · exact .inr ⟨front', y, back, hrest, hP⟩
  · intro h
    rcases h with hP | ⟨front, y, back, rfl, hP⟩
    · exact ⟨[], x, xs, rfl, hP⟩
    · exact ⟨x :: front, y, back, rfl, hP⟩

/-- **A block is found wherever it lies in the list**, together with the one right in front of it. -/
theorem Block.leftOf?_eq_some_iff {a : Alignment} {off : Nat} {before left : Option Nat}
    {bs : List (Block a)} (hsorted : bs.Pairwise fun b c => b.offset < c.offset) :
    Block.leftOf? off before bs = some left ↔
      ∃ front b back, bs = front ++ b :: back ∧ b.offset = off ∧
        left = (front.getLast?.map Block.offset).or before := by
  induction bs generalizing before with
  | nil =>
    constructor
    · intro h
      cases h
    · intro hex
      obtain ⟨front, b, back, heq, -⟩ := hex
      exact absurd heq.symm (List.append_ne_nil_of_right_ne_nil front (List.cons_ne_nil b back))
  | cons c bs ih =>
    obtain ⟨hlt, hsorted⟩ := List.pairwise_cons.mp hsorted
    -- the blocks behind the first one lie further back
    have hbehind : off ≤ c.offset → ∀ front b back, bs = front ++ b :: back → b.offset ≠ off := by
      intro hle front b back heq hb
      have hback := hlt b (heq ▸ List.mem_append_right front List.mem_cons_self)
      omega
    rw [leftOf?, exists_split_cons]
    by_cases hhere : c.offset = off
    · rw [if_pos hhere]
      constructor
      · intro h
        cases h
        exact .inl ⟨hhere, rfl⟩
      · intro h
        rcases h with ⟨-, rfl⟩ | ⟨front, b, back, heq, hb, -⟩
        · rfl
        · exact absurd hb (hbehind (Nat.le_of_eq hhere.symm) front b back heq)
    · rw [if_neg hhere]
      by_cases hpast : off < c.offset
      · -- the search gives up
        rw [if_pos hpast]
        constructor
        · intro h
          cases h
        · intro h
          rcases h with ⟨hb, -⟩ | ⟨front, b, back, heq, hb, -⟩
          · exact absurd hb hhere
          · exact absurd hb (hbehind (Nat.le_of_lt hpast) front b back heq)
      · rw [if_neg hpast, ih hsorted]
        simp only [getLast?_cons_map_or, hhere, false_and, false_or]

namespace Region

variable {a : Alignment} {r : Region a} {m : Memory} {min addr off : Nat} {live : Live}
  {bs front back : List (Block a)} {b c : Block a}

/-! ## 2. Headers of allocations -/

/-- A header that an allocated block of at least `min` bytes can have at the offset. -/
structure Fit (r : Region a) (min off : Nat) (h : Header a) : Prop where
  allocated : h.Allocated
  not_reserved : ¬ h.Reserved
  min_le : min ≤ h.size
  end_le : off + h.size ≤ r.size

/-- **The header decides first, then the walk.** -/
theorem live?_payload (htrail : r.Trail m 0 bs) (min : Nat) (hoff : r.IsHeaderOffset off)
    {h : Header a} (hheader : r.header m off = .ok h) :
    r.Fit min off h ∧ r.live? m min (r.base + off + a.bytes) =
        .ok ((Block.leftOf? off none bs).map fun left => ⟨off, h.size, left⟩) ∨
      ¬ r.Fit min off h ∧ r.live? m min (r.base + off + a.bytes) = .ok none := by
  have hend := hoff.2
  unfold live?
  simp only [offsetOf?_payload hoff, hheader, room_eq_ok hoff, blocks_eq_of_trail htrail, bind,
    Except.bind, pure, Except.pure]
  by_cases hshape : ¬ h.Allocated ∨ h.Reserved ∨ h.size < min
  · rw [if_pos hshape]
    refine .inr ⟨fun hfit => ?_, rfl⟩
    rcases hshape with hfree | hres | hsmall
    · exact hfree hfit.allocated
    · exact hfit.not_reserved hres
    · exact Nat.not_lt.mpr hfit.min_le hsmall
  · rw [if_neg hshape]
    by_cases hroom : r.size - off < h.size
    · rw [if_pos hroom]
      refine .inr ⟨fun hfit => ?_, rfl⟩
      have hle := hfit.end_le
      omega
    · rw [if_neg hroom]
      obtain ⟨hall, hshape⟩ := not_or.mp hshape
      obtain ⟨hres, hmin⟩ := not_or.mp hshape
      refine .inl ⟨⟨not_not.mp hall, hres, Nat.not_lt.mp hmin, by omega⟩, ?_⟩
      cases Block.leftOf? off none bs <;> rfl

/-! ## 3. Names of allocations -/

/-- The address names the allocation `live` of the walk past the blocks `bs`. -/
structure Names (r : Region a) (m : Memory) (bs : List (Block a)) (min addr : Nat) (live : Live) :
    Prop where
  /-- There is room for a header in front of the address, so the differences below are exact. -/
  le_addr : r.base + a.bytes ≤ addr
  /-- The block begins one header in front of the address. -/
  offset_eq : live.offset = addr - r.base - a.bytes
  /-- The walk comes to the block, and right before that to its neighbour in front. -/
  walked : ∃ front b back, bs = front ++ b :: back ∧ b.offset = live.offset ∧
    live.left = front.getLast?.map Block.offset
  /-- The header there is one that an allocation can have, and gives its size. -/
  fit : ∃ h, r.header m live.offset = .ok h ∧ r.Fit min live.offset h ∧ live.size = h.size

/-- The header that memory holds at a block of the walk is the one that the walk has seen. -/
theorem Trail.header_ok (htrail : r.Trail m 0 bs) (hb : b ∈ bs) :
    r.header m b.offset = .ok b.header := by
  rw [htrail.header_eq hb]
  exact header_eq_ok (htrail.bounds hb).2.hasWord

/-- The block of an allocation that an address names. -/
theorem Names.exists_block (h : r.Names m bs min addr live) (htrail : r.Trail m 0 bs) :
    ∃ b ∈ bs, r.Fit min b.offset b.header ∧ addr = r.base + b.offset + a.bytes ∧
      live.offset = b.offset ∧ live.size = b.size := by
  obtain ⟨hle, hoff, ⟨front, b, back, rfl, hb, -⟩, header, hheader, hfit, hsize⟩ := h
  have hmem : b ∈ front ++ b :: back := List.mem_append_right front List.mem_cons_self
  rw [← hb, htrail.header_ok hmem] at hheader
  cases hheader
  refine ⟨b, hmem, hb ▸ hfit, by omega, hb.symm, hsize⟩

/-- What it means that the address of a payload names an allocation. -/
theorem names_payload_iff {h : Header a} (hheader : r.header m off = .ok h) :
    r.Names m bs min (r.base + off + a.bytes) live ↔
      r.Fit min off h ∧ ∃ left, (∃ front b back, bs = front ++ b :: back ∧ b.offset = off ∧
        left = front.getLast?.map Block.offset) ∧ live = ⟨off, h.size, left⟩ := by
  constructor
  · intro hnames
    obtain ⟨hle, hoff, hwalked, header, hheader', hfit, hsize⟩ := hnames
    obtain ⟨o, size, left⟩ := live
    obtain rfl : o = off := by
      show o = off
      have heq : o = r.base + off + a.bytes - r.base - a.bytes := hoff
      omega
    obtain rfl : h = header := Except.ok.inj (hheader.symm.trans hheader')
    obtain rfl : size = h.size := hsize
    exact ⟨hfit, left, hwalked, rfl⟩
  · intro hboth
    obtain ⟨hfit, left, hwalked, rfl⟩ := hboth
    have hoff : off = r.base + off + a.bytes - r.base - a.bytes := by omega
    exact ⟨by omega, hoff, hwalked, h, hheader, hfit, rfl⟩

/-- **An address leads to the allocation that it names**, and to nothing if it names none. -/
theorem live?_names (htrail : r.Trail m 0 bs) (min addr : Nat) :
    ∃ live?, r.live? m min addr = .ok live? ∧
      ∀ live, live? = some live ↔ r.Names m bs min addr live := by
  cases hoff : r.offsetOf? addr with
  | none =>
    have hnone : r.live? m min addr = .ok none := by
      unfold live?
      rw [hoff]
      rfl
    refine ⟨none, hnone, fun live => ⟨fun h => (nomatch h), fun h => ?_⟩⟩
    obtain ⟨b, hb, -, rfl, -⟩ := h.exists_block htrail
    rw [offsetOf?_payload (htrail.bounds hb).2] at hoff
    cases hoff
  | some off =>
    obtain ⟨ho, rfl⟩ := offsetOf?_eq_some_iff.mp hoff
    have hheader := header_eq_ok (m := m) ho.hasWord
    rcases live?_payload htrail min ho hheader with ⟨hfit, hlive⟩ | ⟨hfit, hlive⟩
    · refine ⟨_, hlive, fun live => ?_⟩
      rw [names_payload_iff hheader, Option.map_eq_some_iff]
      simp only [Block.leftOf?_eq_some_iff htrail.pairwise_offset, Option.or_none, hfit, true_and,
        eq_comm (a := live)]
    · refine ⟨none, hlive, fun live => ⟨fun h => (nomatch h), fun h => ?_⟩⟩
      exact absurd ((names_payload_iff hheader).mp h).1 hfit

/-! ## 4. The neighbour in front -/

/-- Only the first block of the walk begins where the region does. -/
theorem Trail.front_eq_nil_iff (h : r.Trail m 0 (front ++ b :: back)) :
    front = [] ↔ b.offset = 0 := by
  obtain ⟨hfront, -⟩ := trail_append_cons.mp h
  constructor
  · intro hnil
    rw [hnil] at hfront
    exact hfront.symm
  · intro hzero
    cases front with
    | nil => rfl
    | cons c front =>
      obtain ⟨-, hsize, hnext⟩ := hfront.bounds List.mem_cons_self
      have hpos := a.bytes_pos
      unfold Block.next at hnext
      omega

/-- The block right in front of another one ends where that one begins. -/
theorem Trail.next_of_getLast? (h : r.Trail m 0 (front ++ b :: back)) (hc : front.getLast? = some c) :
    c.next = b.offset := by
  obtain ⟨pre, rfl⟩ := List.getLast?_eq_some_iff.mp hc
  rw [List.append_assoc, List.singleton_append] at h
  obtain ⟨-, -, -, hrest⟩ := trail_append_cons.mp h
  split at hrest
  · cases hrest
  · exact (congrArg Block.offset hrest.2.1).symm

/-- What is known of the neighbour in front of an allocation: it is missing only at the start of the
    region, and its header leads to the allocation. -/
theorem Names.left_spec (h : r.Names m bs min addr live) (htrail : r.Trail m 0 bs) :
    (live.left = none ↔ live.offset = 0) ∧
      ∀ off ∈ live.left, ∃ h, r.header m off = .ok h ∧ off + h.size = live.offset := by
  obtain ⟨front, b, back, rfl, hb, hleft⟩ := h.walked
  rw [hleft, ← hb]
  refine ⟨?_, fun off hoff => ?_⟩
  · rw [Option.map_eq_none_iff, List.getLast?_eq_none_iff]
    exact htrail.front_eq_nil_iff
  · obtain ⟨c, hc, rfl⟩ := Option.map_eq_some_iff.mp hoff
    have hmem : c ∈ front ++ b :: back := List.mem_append_left _ (List.mem_of_getLast? hc)
    exact ⟨c.header, htrail.header_ok hmem, htrail.next_of_getLast? hc⟩

/-- An address names an allocation as soon as it is the payload of a block of the walk that an
    allocation can have. -/
theorem exists_names_iff (htrail : r.Trail m 0 bs) :
    (∃ live, r.Names m bs min addr live) ↔
      ∃ b ∈ bs, addr = r.base + b.offset + a.bytes ∧ r.Fit min b.offset b.header := by
  constructor
  · intro hex
    obtain ⟨live, h⟩ := hex
    obtain ⟨b, hb, hfit, haddr, -⟩ := h.exists_block htrail
    exact ⟨b, hb, haddr, hfit⟩
  · intro hex
    obtain ⟨b, hb, rfl, hfit⟩ := hex
    obtain ⟨front, back, heq⟩ := List.append_of_mem hb
    exact ⟨_, (names_payload_iff (htrail.header_ok hb)).mpr
      ⟨hfit, _, ⟨front, b, back, heq, rfl, rfl⟩, rfl⟩⟩

/-! ## 5. Any address on any memory -/

/-- **A live allocation is what the walk comes to**, on any memory and for any address. The walk and
    the look at the address always end well, and the walk follows the headers. The look finds exactly
    the allocation that the address names, and finds nothing exactly if no block of the walk with its
    payload there has a header for an allocation, whatever word lies in front of the address. -/
theorem live?_recognizes (r : Region a) (m : Memory) (min addr : Nat) :
    ∃ bs live?, r.blocks m = .ok bs ∧ r.Trail m 0 bs ∧ r.live? m min addr = .ok live? ∧
      (∀ live, live? = some live ↔ r.Names m bs min addr live) ∧
      (live? = none ↔
        ∀ b ∈ bs, addr = r.base + b.offset + a.bytes → ¬ r.Fit min b.offset b.header) ∧
      ∀ live ∈ live?, (live.left = none ↔ live.offset = 0) ∧
        ∀ off ∈ live.left, ∃ h, r.header m off = .ok h ∧ off + h.size = live.offset := by
  obtain ⟨bs, hblocks, htrail⟩ := r.blocksFrom_trail m 0
  obtain ⟨live?, hlive, hnames⟩ := live?_names htrail min addr
  refine ⟨bs, live?, hblocks, htrail, hlive, hnames, ?_, fun live h => ?_⟩
  · have hnone : live? = none ↔ ¬ ∃ live, r.Names m bs min addr live := by
      rw [Option.eq_none_iff_forall_ne_some, not_exists]
      exact forall_congr' fun live => not_congr (hnames live)
    rw [hnone, exists_names_iff htrail]
    simp only [not_exists, not_and]
  · exact ((hnames live).mp h).left_spec htrail

end Region

end RegionHeap
