import RegionHeap.Proofs.Plan.Effects

/-!
# What a release makes of a listing heap

The block that is given back meets two neighbours, and each of them is free or in use. Which of the
four it is decides over the layout and over the order of the list.

* `Plan.Vacated` -- the plan after a release, for each kind of neighbours;
* `Plan.put_list_of_closed`, `Plan.put_list_of_free` -- a free cell is put in front of others;
* `Plan.vacated_free` -- freeing a block leads to the plan that its neighbours call for.
-/

namespace RegionHeap.Plan

variable {a : Alignment} {c d : Cell} {front back : List Cell} {order : List Nat} {min lo hi : Nat}

/-- No free cell is the last of those in front. -/
def ClosedFront (front : List Cell) : Prop :=
  ∀ d ∈ front.getLast?, d.used = true

/-- No free cell is the first of those behind. -/
def ClosedBack (back : List Cell) : Prop :=
  ∀ d ∈ back.head?, d.used = true

/-- The plan after the cell `c` between `front` and `back` was given back. Free neighbours and the
    cell become one free cell that has the bytes of them all. -/
inductive Vacated (c : Cell) : (front back : List Cell) → (order : List Nat) → Plan → Prop where
  /-- Both neighbours are free: the one in front keeps its place in the list, the one behind leaves
      it. -/
  | both {front back : List Cell} {left right : Cell} {order : List Nat}
      (hleft : left.used = false) (hright : right.used = false) :
      Vacated c (front ++ [left]) (right :: back) order
        ⟨front ++ ⟨left.offset, left.size + c.size + right.size, false⟩ :: back,
          order.erase right.offset⟩
  /-- Only the one in front is free: the list stays as it is. -/
  | left {front back : List Cell} {left : Cell} {order : List Nat}
      (hleft : left.used = false) (hback : ClosedBack back) :
      Vacated c (front ++ [left]) back order
        ⟨front ++ ⟨left.offset, left.size + c.size, false⟩ :: back, order⟩
  /-- Only the one behind is free: it leaves the list, and the cell enters at its head. -/
  | right {front back : List Cell} {right : Cell} {order : List Nat}
      (hfront : ClosedFront front) (hright : right.used = false) :
      Vacated c front (right :: back) order
        ⟨front ++ ⟨c.offset, c.size + right.size, false⟩ :: back,
          c.offset :: order.erase right.offset⟩
  /-- None is free: the cell enters the list at its head. -/
  | neither {front back : List Cell} {order : List Nat}
      (hfront : ClosedFront front) (hback : ClosedBack back) :
      Vacated c front back order
        ⟨front ++ ⟨c.offset, c.size, false⟩ :: back, c.offset :: order⟩

/-! ## 1. A free cell is put in front of others -/

/-- A free cell in front of a cell in use, or of none, stays as it is. -/
theorem put_list_of_closed (h : ClosedBack back) :
    put .list front c back order = ⟨front ++ c :: back, order⟩ := by
  cases back with
  | nil => rfl
  | cons d back =>
    have hd : d.used = true := h d rfl
    rw [put, merge, unlist, if_pos hd, if_pos hd]

/-- A free cell in front of a free cell takes it in. -/
theorem put_list_of_free (hd : d.used = false) : put .list front c (d :: back) order =
    ⟨front ++ { c with size := c.size + d.size } :: back, order.erase d.offset⟩ := by
  have hnot : ¬ d.used = true := by simp [hd]
  rw [put, merge, unlist, if_neg hnot, if_neg hnot]

/-- The cells behind begin with a free one, or they do not. -/
theorem closedBack_or (back : List Cell) :
    ClosedBack back ∨ ∃ d rest, back = d :: rest ∧ d.used = false := by
  cases back with
  | nil => exact .inl fun _ hd => nomatch hd
  | cons d rest =>
    cases hd : d.used with
    | false => exact .inr ⟨d, rest, rfl, hd⟩
    | true =>
      refine .inl fun e he => ?_
      cases he
      exact hd

/-- The cell behind has an offset of its own. -/
theorem offset_ne_behind (ht : Tiled a min lo (front ++ c :: d :: back) hi) (hmin : 0 < min) :
    c.offset ≠ d.offset := by
  have hnext := ht.next_le_of_mem_back (List.mem_cons_self (a := d) (l := back))
  have hsize := (tiled_middle.mp ht).2.2.1
  unfold Cell.next at hnext
  omega

/-! ## 2. Release -/

/-- The cells in front end with a free one, or they do not. -/
theorem closedFront_or (front : List Cell) :
    ClosedFront front ∨ ∃ init d, front = init ++ [d] ∧ d.used = false := by
  rcases List.eq_nil_or_concat' front with rfl | ⟨init, d, rfl⟩
  · exact .inl fun _ hd => nomatch hd
  · cases hd : d.used with
    | false => exact .inr ⟨init, d, rfl, hd⟩
    | true =>
      refine .inl fun e he => ?_
      rw [List.getLast?_concat] at he
      cases he
      exact hd

/-- Behind a cell in use, a block is freed by itself. -/
theorem free_list_of_closed (h : ClosedFront front) : free .list ⟨front, c, back⟩ order =
    put .list front { c with used := false } back (c.offset :: order) := by
  have hnone : leftFree? .list ⟨front, c, back⟩ = none := by
    refine Option.filter_eq_none_iff.mpr fun d hd => ?_
    simp [h d hd]
  rw [free, hnone]
  rfl

/-- Behind a free cell, a block is taken in by that one. -/
theorem free_list_of_free (h : d.used = false) : free .list ⟨front ++ [d], c, back⟩ order =
    put .list front { d with size := d.size + c.size } back order := by
  have hsome : leftFree? .list ⟨front ++ [d], c, back⟩ = some d := by
    rw [leftFree?, List.getLast?_concat]
    exact Option.filter_some_pos (by simp [h])
  rw [free, hsome]
  simp only [List.dropLast_concat]

/-- **Freeing a block leads to the plan that its neighbours call for.** -/
theorem vacated_free (ht : Tiled a min lo (front ++ c :: back) hi) (hmin : 0 < min) :
    Vacated c front back order (free .list ⟨front, c, back⟩ order) := by
  rcases closedFront_or front with hfront | ⟨init, left, rfl, hleft⟩
  · rw [free_list_of_closed hfront]
    rcases closedBack_or back with hback | ⟨right, rest, rfl, hright⟩
    · rw [put_list_of_closed hback]
      exact .neither hfront hback
    · -- the cell has entered the list, and the one behind is not that cell
      have hne : c.offset ≠ right.offset := offset_ne_behind ht hmin
      rw [put_list_of_free hright, List.erase_cons_tail (by simpa using hne)]
      exact .right hfront hright
  · rw [free_list_of_free hleft]
    rcases closedBack_or back with hback | ⟨right, rest, rfl, hright⟩
    · rw [put_list_of_closed hback, hleft]
      exact .left hleft hback
    · rw [put_list_of_free hright, hleft]
      exact .both hleft hright

end RegionHeap.Plan
