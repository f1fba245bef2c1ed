import RegionHeap.Proofs.Client.Places
import RegionHeap.Proofs.Plan.FirstFit

/-!
# What a change of size makes of a listing heap

A block can be refitted in place as long as it and the free block behind it have the bytes together.
Otherwise it moves to the first block of the list that is large enough, and if there is none,
everything stays as it is.

* `Plan.room`, `Plan.Refitted` -- the room behind a block, and the plan after it was refitted;
* `Plan.Moved` -- the plan after a block has moved;
* `Plan.refit_of_le`, `Plan.refit_of_lt` -- the room decides over the two;
* `Plan.relocate_some`, `Plan.relocate_eq_none_iff` -- a block moves to the first fit, or there is
  none;
* `Plan.Resized`, `Plan.resized_refit` -- all of it, for a live allocation.
-/

namespace RegionHeap.Plan

variable {a : Alignment} {r : Region a} {c d : Cell} {front back : List Cell} {order : List Nat}
  {need addr n new : Nat} {p p' : Plan}

/-- The bytes of the first cell behind, if it is free. -/
def room : (back : List Cell) → Nat
  | [] => 0
  | d :: _ => if d.used then 0 else d.size

/-- The plan after the cell `c` in use between `front` and `back` was refitted in place to `need`
    bytes. What is left over, with the free cell behind, is one free block and listed first, unless
    it is too small to be one. -/
inductive Refitted (a : Alignment) (need : Nat) (c : Cell) (front : List Cell) :
    (back : List Cell) → (order : List Nat) → Plan → Prop where
  /-- The cell has the bytes, and what is left over is no block: nothing changes. -/
  | kept {back : List Cell} {order : List Nat} (hneed : need ≤ c.size)
      (hrest : c.size - need < Strategy.list.minBlock a) :
      Refitted a need c front back order ⟨front ++ c :: back, order⟩
  /-- The cell has the bytes, and what is left over becomes a block of its own. -/
  | shrunk {back : List Cell} {order : List Nat} (hneed : need ≤ c.size)
      (hrest : Strategy.list.minBlock a ≤ c.size - need) (hback : ClosedBack back) :
      Refitted a need c front back order
        ⟨front ++ ⟨c.offset, need, true⟩ :: ⟨c.offset + need, c.size - need, false⟩ :: back,
          (c.offset + need) :: order⟩
  /-- The cell has the bytes, and what is left over becomes a block with the free one behind. -/
  | shrunkMerged {back : List Cell} {order : List Nat} {right : Cell} (hneed : need ≤ c.size)
      (hrest : Strategy.list.minBlock a ≤ c.size - need) (hright : right.used = false) :
      Refitted a need c front (right :: back) order
        ⟨front ++ ⟨c.offset, need, true⟩ ::
            ⟨c.offset + need, c.size - need + right.size, false⟩ :: back,
          (c.offset + need) :: order.erase right.offset⟩
  /-- The cell takes in the whole free one behind. -/
  | grown {back : List Cell} {order : List Nat} {right : Cell} (hlt : c.size < need)
      (hneed : need ≤ c.size + right.size) (hright : right.used = false)
      (hrest : c.size + right.size - need < Strategy.list.minBlock a) :
      Refitted a need c front (right :: back) order
        ⟨front ++ ⟨c.offset, c.size + right.size, true⟩ :: back, order.erase right.offset⟩
  /-- The cell takes in a part of the free one behind, and the rest stays a block. -/
  | grownSplit {back : List Cell} {order : List Nat} {right : Cell} (hlt : c.size < need)
      (hneed : need ≤ c.size + right.size) (hright : right.used = false)
      (hrest : Strategy.list.minBlock a ≤ c.size + right.size - need) :
      Refitted a need c front (right :: back) order
        ⟨front ++ ⟨c.offset, need, true⟩ ::
            ⟨c.offset + need, c.size + right.size - need, false⟩ :: back,
          (c.offset + need) :: order.erase right.offset⟩

/-- The plan after the cell `c` has moved into `need` bytes of the free cell `d`: those are taken
    first, and then the old cell is given back. -/
def Moved (a : Alignment) (need : Nat) (c d : Cell) (p p' : Plan) : Prop :=
  ∃ front back mid front' back', p.cells = front ++ d :: back ∧
    Taken a need d front back p.order mid ∧
    mid.cells = front' ++ c :: back' ∧ Vacated c front' back' mid.order p'

/-- What is answered to a change of size of the cell `c` in use between `front` and `back`, to a
    block of `need` bytes, and the plan that it leads to. -/
structure Resized (r : Region a) (need : Nat) (front : List Cell) (c : Cell) (back : List Cell)
    (order : List Nat) (new? : Option Nat) (p' : Plan) : Prop where
  /-- The address stays the same exactly if the cell and the free one behind have the bytes. -/
  stays_iff : new? = some (c.payload r) ↔ need ≤ c.size + room back
  /-- No address is answered exactly if no free cell has the bytes either. -/
  refused_iff : new? = none ↔ c.size + room back < need ∧
    ∀ d ∈ front ++ c :: back, d.used = false → d.size < need
  /-- What stays in place is refitted. -/
  refits : need ≤ c.size + room back → Refitted a need c front back order p'
  /-- What is refused changes nothing. -/
  unchanged : new? = none → p' = ⟨front ++ c :: back, order⟩
  /-- Another address is that of the first fit, and the cell has moved there. -/
  moves : ∀ new, new? = some new → new ≠ c.payload r →
    ∃ d, FirstFit ⟨front ++ c :: back, order⟩ need d ∧ new = d.payload r ∧
      Moved a need c d ⟨front ++ c :: back, order⟩ p'

/-! ## 1. In place -/

theorem room_of_closed (h : ClosedBack back) : room back = 0 := by
  cases back with
  | nil => rfl
  | cons d back => exact if_pos (h d rfl)

theorem room_of_free (h : d.used = false) : room (d :: back) = d.size :=
  if_neg (by simp [h])

/-- A cell that has the bytes is cut down. -/
theorem refitted_splitTail
    (ht : Tiled a (Strategy.list.minBlock a) 0 (front ++ c :: back) r.size) (hused : c.used = true)
    (hneed : need ≤ c.size) :
    Refitted a need c front back order (splitTail a .list need ⟨front, c, back⟩ order) := by
  have hpos := Strategy.list.minBlock_pos (a := a)
  rcases Nat.lt_or_ge (c.size - need) (Strategy.list.minBlock a) with hrest | hrest
  · rw [splitTail_of_lt hrest, show ({ c with used := true } : Cell) = c by rw [← hused]]
    exact .kept hneed hrest
  · rcases closedBack_or back with hback | ⟨right, back, rfl, hright⟩
    · rw [splitTail_of_closed hrest hback]
      exact .shrunk hneed hrest hback
    · -- what is left over begins before the cell behind does
      have hne : c.offset + need ≠ right.offset := by
        have hnext := ht.next_le_of_mem_back List.mem_cons_self
        unfold Cell.next at hnext
        omega
      rw [splitTail, if_neg (Nat.not_lt.mpr hrest), put_list_of_free hright, enter,
        List.erase_cons_tail (by simpa using hne), List.append_assoc]
      exact .shrunkMerged hneed hrest hright

/-- A cell without a free one behind does not grow. -/
theorem grow?_of_closed (h : ClosedBack back) :
    grow? a .list need ⟨front, c, back⟩ order = none := by
  cases back with
  | nil => rfl
  | cons d back =>
    have hd : d.used = true := h d rfl
    exact if_neg (by simp [hd])

/-- A cell grows into the free one behind if they have the bytes together. -/
theorem grow?_of_free (hd : d.used = false) :
    grow? a .list need ⟨front, c, d :: back⟩ order =
      if need ≤ c.size + d.size then
        some (splitTail a .list need ⟨front, { c with size := c.size + d.size }, back⟩
          (order.erase d.offset))
      else none := by
  simp only [grow?, hd, true_and]

/-- What has grown is refitted. -/
theorem refitted_grow? (hsep : Separated (front ++ c :: back)) (hused : c.used = true)
    (hlt : c.size < need) (h : grow? a .list need ⟨front, c, back⟩ order = some p') :
    Refitted a need c front back order p' := by
  obtain ⟨-, right, rest, rfl, hright, hneed, rfl⟩ := grow?_eq_some h
  -- the cell behind a free one is in use
  have hback : ClosedBack rest :=
    ((separated_cons_of_free hright).mp ((separated_middle_of_used hused).mp hsep).2).2
  rcases Nat.lt_or_ge (c.size + right.size - need) (Strategy.list.minBlock a) with hrest | hrest
  · rw [splitTail_of_lt hrest]
    exact .grown hlt hneed hright hrest
  · rw [splitTail_of_closed hrest hback]
    exact .grownSplit hlt hneed hright hrest

/-- **With enough room behind it, a block is refitted in place.** -/
theorem refit_of_le (addr : Nat) (ht : Tiled a (Strategy.list.minBlock a) 0 p.cells r.size)
    (hs : p.Settled .list) (hcells : p.cells = front ++ c :: back) (hused : c.used = true)
    (h : need ≤ c.size + room back) :
    ∃ p', p.refit r .list addr need ⟨front, c, back⟩ = (some addr, p') ∧
      Refitted a need c front back p.order p' := by
  have hsep : Separated (front ++ c :: back) := hcells ▸ hs.1
  rw [hcells] at ht
  rcases Nat.lt_or_ge c.size need with hlt | hle
  · rcases closedBack_or back with hback | ⟨right, rest, rfl, hright⟩
    · rw [room_of_closed hback] at h
      omega
    · rw [room_of_free hright] at h
      have hgrow : ∃ p', grow? a .list need ⟨front, c, right :: rest⟩ p.order = some p' :=
        ⟨_, (grow?_of_free hright).trans (if_pos h)⟩
      obtain ⟨p', hgrow⟩ := hgrow
      refine ⟨p', ?_, refitted_grow? hsep hused hlt hgrow⟩
      rw [refit, if_neg (Nat.not_le.mpr hlt), hgrow]
  · exact ⟨_, if_pos hle, refitted_splitTail ht hused hle⟩

/-- Without enough room behind it, a block moves. -/
theorem refit_of_lt (h : c.size + room back < need) :
    p.refit r .list addr need ⟨front, c, back⟩ = p.relocate r .list addr need := by
  have hlt : ¬ need ≤ c.size := by omega
  have hgrow : grow? a .list need ⟨front, c, back⟩ p.order = none := by
    rcases closedBack_or back with hback | ⟨right, rest, rfl, hright⟩
    · exact grow?_of_closed hback
    · rw [room_of_free hright] at h
      rw [grow?_of_free hright, if_neg (Nat.not_le.mpr h)]
  rw [refit, if_neg hlt, hgrow]

/-! ## 2. To another block -/

/-- **A block that finds no room in place moves to the first fit.** -/
theorem relocate_some (ht : Tiled a (Strategy.list.minBlock a) 0 p.cells r.size)
    (hs : p.Settled .list) (hserves : Strategy.list.Serves a n need) (hc : c ∈ inUse p.cells)
    (h : (p.relocate r .list (c.payload r) need).1 = some new) :
    ∃ d, p.FirstFit need d ∧ new = d.payload r ∧ new ≠ c.payload r ∧
      Moved a need c d p (p.relocate r .list (c.payload r) need).2 := by
  unfold relocate at h ⊢
  cases hcarve : p.carve? a .list need with
  | none =>
    rw [hcarve] at h
    cases h
  | some x =>
    obtain ⟨off, mid⟩ := x
    rw [hcarve] at h
    cases h
    obtain ⟨front, d, back, hcells, rfl, hfit, htaken⟩ := carve?_list_eq_some ht hs hcarve
    obtain ⟨-, -, -, hold, -⟩ := carve?_spec ht (fun _ => hs.mem_vacant) hcarve
    have ht' := tiled_carve? ht hs hserves hcarve
    obtain ⟨⟨front', e, back'⟩, hf, he⟩ := exists_live? ht' (hold c hc)
    obtain rfl : c = e := he.symm
    obtain ⟨hcells', -, -⟩ := live?_eq_some hf
    have hne := payload_ne_of_free ht hc hfit.mem hfit.free
    refine ⟨d, hfit, rfl, hne, front, back, mid, front', back', hcells, htaken, hcells', ?_⟩
    show Vacated c front' back' mid.order (mid.release r .list (c.payload r))
    rw [hcells'] at ht'
    rw [release, hf]
    exact vacated_free ht' Strategy.list.minBlock_pos

/-- A block does not move if no free cell is large enough. -/
theorem relocate_eq_none_iff (ht : Tiled a (Strategy.list.minBlock a) 0 p.cells r.size)
    (hs : p.Settled .list) : (p.relocate r .list addr need).1 = none ↔
      ∀ c ∈ p.cells, c.used = false → c.size < need := by
  rw [← fit?_list_eq_none_iff ht hs]
  unfold relocate carve?
  cases p.fit? .list need <;> simp

/-! ## 3. Change of size -/

/-- **A change of size is decided by the room behind the block.** -/
theorem resized_refit (ht : Tiled a (Strategy.list.minBlock a) 0 (front ++ c :: back) r.size)
    (hs : Settled .list ⟨front ++ c :: back, order⟩) (hused : c.used = true)
    (hserves : Strategy.list.Serves a n need) :
    Resized r need front c back order
      (refit r .list (c.payload r) need ⟨front, c, back⟩ ⟨front ++ c :: back, order⟩).1
      (refit r .list (c.payload r) need ⟨front, c, back⟩ ⟨front ++ c :: back, order⟩).2 := by
  have hc : c ∈ inUse (front ++ c :: back) :=
    mem_inUse.mpr ⟨List.mem_append_right _ List.mem_cons_self, hused⟩
  rcases Nat.lt_or_ge (c.size + room back) need with hlt | hle
  · rw [refit_of_lt hlt]
    have hmoved := fun new =>
      @relocate_some a r c need n new ⟨front ++ c :: back, order⟩ ht hs hserves hc
    have hnot : ¬ need ≤ c.size + room back := Nat.not_le.mpr hlt
    constructor
    case stays_iff =>
      refine iff_of_false (fun h => ?_) hnot
      obtain ⟨-, -, -, hne, -⟩ := hmoved _ h
      exact hne rfl
    case refused_iff => rw [relocate_eq_none_iff ht hs, and_iff_right hlt]
    case refits => exact fun hle => absurd hle hnot
    case unchanged => exact relocate_none
    case moves =>
      intro new hnew _
      obtain ⟨d, hfit, heq, -, hmoves⟩ := hmoved new hnew
      exact ⟨d, hfit, heq, hmoves⟩
  · obtain ⟨p', hp', hrefitted⟩ := refit_of_le (c.payload r) ht hs rfl hused hle
    rw [hp']
    constructor
    case stays_iff => exact iff_of_true rfl hle
    case refused_iff =>
      exact iff_of_false (Option.some_ne_none _) fun h => Nat.not_le.mpr h.1 hle
    case refits => exact fun _ => hrefitted
    case unchanged => exact fun h => absurd h (Option.some_ne_none _)
    case moves => exact fun new hnew hne => absurd (Option.some.inj hnew).symm hne

/-- A live allocation is refitted if a block can have the size that is asked for. -/
theorem resize_eq_refit {f : Focus} (hf : p.live? r addr = some f)
    (hneed : a.blockSize? (Strategy.list.minPayload a) n = some need) :
    p.resize r .list (some addr) n = p.refit r .list addr need f := by
  rw [resize, if_neg (Alignment.ne_zero_of_blockSize? hneed), hf, hneed]

end RegionHeap.Plan
