import RegionHeap.FreeList.Basic
import RegionHeap.Proofs.Layout.Alike

/-!
# The free list lies in its region

Links and headers are read and written through the region. So two lists that start at the same block,
over memories with the same bytes in the region, stay such a pair through every edit, or both edits
come to the same fault.

* `FreeList.Alike` -- the lists start at the same block and are the same in the region;
* `Alike.push`, `Alike.remove` -- one block enters or leaves;
* `Alike.absorb`, `Alike.splitTail`, `Alike.grow?` -- blocks are merged and cut;
* `Region.Alike.firstFit_eq`, `Region.Alike.reach_eq` -- a search and a measurement.
-/

namespace RegionHeap

variable {a : Alignment} {r : Region a} {m m' : Memory} {l l' : FreeList}

/-! ## 1. Links -/

namespace Region.Alike

theorem links_eq (hm : r.Alike m m') (off : Nat) : r.links m' off = r.links m off := by
  unfold Region.links
  rw [hm.word_eq, hm.word_eq]

theorem freeHeader_eq (hm : r.Alike m m') (off : Nat) : r.freeHeader m' off = r.freeHeader m off := by
  unfold Region.freeHeader
  rw [hm.header_eq]

theorem setPrev (hm : r.Alike m m') (off : Nat) (prev : Option Nat) :
    Together r.Alike (r.setPrev m off prev) (r.setPrev m' off prev) :=
  hm.setWord _ _

theorem setNext (hm : r.Alike m m') (off : Nat) (next : Option Nat) :
    Together r.Alike (r.setNext m off next) (r.setNext m' off next) :=
  hm.setWord _ _

/-! ## 2. Searches -/

theorem firstFitFrom_eq (hm : r.Alike m m') (need steps : Nat) (off? : Option Nat) :
    FreeList.firstFitFrom r m' need steps off? = FreeList.firstFitFrom r m need steps off? := by
  induction steps generalizing off? with
  | zero => cases off? <;> rfl
  | succ steps ih =>
    cases off? with
    | none => rfl
    | some off =>
      unfold FreeList.firstFitFrom
      simp only [hm.freeHeader_eq, hm.links_eq, ih]

theorem reach_eq (hm : r.Alike m m') (off need passes size : Nat) :
    FreeList.reach r m' off need passes size = FreeList.reach r m off need passes size := by
  induction passes generalizing size with
  | zero => rfl
  | succ passes ih =>
    unfold FreeList.reach
    simp only [hm.header_eq, ih]

end Region.Alike

namespace FreeList

/-- The lists start at the same block, and their memories hold the same bytes in the region. -/
structure Alike (r : Region a) (l l' : FreeList) : Prop where
  /-- The first block is the same. -/
  head_eq : l'.head = l.head
  /-- The bytes in the region are the same. -/
  memory : r.Alike l.memory l'.memory

namespace Alike

theorem firstFit_eq (h : Alike r l l') (need : Nat) : l'.firstFit r need = l.firstFit r need := by
  unfold FreeList.firstFit
  rw [h.head_eq, h.memory.firstFitFrom_eq]

/-! ## 3. One block -/

theorem of_memory (head : Option Nat) (hm : r.Alike m m') : Alike r ⟨head, m⟩ ⟨head, m'⟩ :=
  ⟨rfl, hm⟩

theorem withMemory (h : Alike r l l') (hm : r.Alike m m') :
    Alike r { l with memory := m } { l' with memory := m' } :=
  ⟨h.head_eq, hm⟩

/-- The head stays, and the memory behind it is written in the same way. -/
theorem write {x y : Except Fault Memory} (h : Alike r l l') (hxy : Together r.Alike x y) :
    Together (Alike r) (x >>= fun m => pure { l with memory := m })
      (y >>= fun m => pure { l' with memory := m }) :=
  hxy.bind fun _ _ hm => .ok (h.withMemory hm)

theorem linkBack (h : Alike r l l') (next prev : Option Nat) :
    Together (Alike r) (linkBack r l next prev) (linkBack r l' next prev) := by
  cases next with
  | none => exact .ok h
  | some n =>
    unfold FreeList.linkBack
    simp only [h.memory.freeHeader_eq]
    exact .bind_same fun _ => h.write (h.memory.setPrev n prev)

theorem linkForward (h : Alike r l l') (block : Nat) (prev next : Option Nat) :
    Together (Alike r) (linkForward r l block prev next) (linkForward r l' block prev next) := by
  cases prev with
  | none =>
    unfold FreeList.linkForward
    simp only [h.head_eq]
    split
    · exact .ok ⟨rfl, h.memory⟩
    · exact .fault _
  | some p =>
    unfold FreeList.linkForward
    simp only [h.memory.freeHeader_eq]
    exact .bind_same fun _ => h.write (h.memory.setNext p next)

/-- **A block enters both lists.** -/
theorem push (h : Alike r l l') (off : Nat) : Together (Alike r) (l.push r off) (l'.push r off) := by
  unfold FreeList.push
  simp only [h.head_eq]
  refine (h.memory.setPrev off none).bind fun m1 m1' hm1 => ?_
  refine (hm1.setNext off l.head).bind fun m2 m2' hm2 => ?_
  refine ((of_memory l.head hm2).linkBack l.head (some off)).bind fun l3 l3' h3 => ?_
  exact .ok ⟨rfl, h3.memory⟩

/-- **A block leaves both lists.** -/
theorem remove (h : Alike r l l') (off : Nat) :
    Together (Alike r) (l.remove r off) (l'.remove r off) := by
  unfold FreeList.remove
  simp only [h.memory.links_eq]
  refine .bind_same fun links => ?_
  refine (h.linkForward off links.prev links.next).bind fun l1 l1' h1 => ?_
  refine (h1.linkBack links.next links.prev).bind fun l2 l2' h2 => ?_
  refine (h2.memory.setPrev off none).bind fun m3 m3' hm3 => ?_
  exact h2.write (hm3.setNext off none)

/-! ## 4. Neighbours -/

/-- **Both lists take in the same blocks.** -/
theorem absorb (h : Alike r l l') (off passes size : Nat) :
    Together (Alike r) (absorb r off passes size l) (absorb r off passes size l') := by
  induction passes generalizing l l' size with
  | zero => exact .fault _
  | succ passes ih =>
    unfold FreeList.absorb
    simp only [h.memory.header_eq]
    refine .bind_same fun next => ?_
    by_cases hnext : r.size ≤ next
    · simp only [if_pos hnext]
      exact .ok h
    · simp only [if_neg hnext]
      refine .bind_same fun x => ?_
      by_cases hx : x.Allocated
      · simp only [if_pos hx]
        exact .ok h
      · simp only [if_neg hx]
        refine (h.remove next).bind fun l1 l1' h1 => .bind_same fun size' => ?_
        exact (h1.memory.setHeader off _).bind fun m2 m2' hm2 => ih (h1.withMemory hm2) size'

theorem coalesce (h : Alike r l l') (off : Nat) :
    Together (Alike r) (l.coalesce r off) (l'.coalesce r off) := by
  unfold FreeList.coalesce
  simp only [h.memory.header_eq]
  refine .bind_same fun x => ?_
  by_cases hx : x.Allocated
  · simp only [if_pos hx]
    exact .fault _
  · simp only [if_neg hx]
    exact h.absorb off r.size x.size

theorem splitTail (h : Alike r l l') (off keep : Nat) :
    Together (Alike r) (l.splitTail r off keep) (l'.splitTail r off keep) := by
  unfold FreeList.splitTail
  simp only [h.memory.header_eq]
  refine .bind_same fun x => ?_
  by_cases hx : x.Allocated
  · by_cases hkeep : keep ≤ x.size
    · simp only [hx, hkeep, if_true]
      split
      · exact .ok h
      · refine (h.memory.setHeader off _).bind fun m1 m1' hm1 => ?_
        refine (hm1.setHeader (off + keep) _).bind fun m2 m2' hm2 => ?_
        refine ((h.withMemory hm2).push (off + keep)).bind fun l3 l3' h3 => ?_
        exact h3.coalesce (off + keep)
    · simp only [hx, hkeep, if_true, if_false]
      exact .fault _
  · simp only [hx, if_false]
    exact .fault _

theorem gather (h : Alike r l l') (off need passes size : Nat) :
    Together (fun u u' => u'.1 = u.1 ∧ Alike r u.2 u'.2) (gather r off need passes size l)
      (gather r off need passes size l') := by
  induction passes generalizing l l' size with
  | zero => exact .fault _
  | succ passes ih =>
    unfold FreeList.gather
    simp only [h.memory.freeHeader_eq]
    by_cases hneed : need ≤ size
    · simp only [if_pos hneed]
      exact .ok ⟨rfl, h⟩
    · simp only [if_neg hneed]
      refine .bind_same fun x => (h.remove _).bind fun l1 l1' h1 => ?_
      exact .bind_same fun size' => ih h1 size'

/-- **Both lists let the same block grow**, or neither does. -/
theorem grow? (h : Alike r l l') (off need : Nat) :
    Together (Option.Rel (Alike r)) (l.grow? r off need) (l'.grow? r off need) := by
  unfold FreeList.grow?
  simp only [h.memory.header_eq, h.memory.reach_eq]
  refine .bind_same fun x => .bind_same fun reached => ?_
  by_cases hneed : reached < need
  · simp only [if_pos hneed]
    exact .ok .none
  · simp only [if_neg hneed]
    refine (h.gather off need _ _).bind fun u u' hu => ?_
    obtain ⟨size, l1⟩ := u
    obtain ⟨size', l1'⟩ := u'
    obtain ⟨rfl, h1⟩ := hu
    refine (h1.memory.setHeader off _).bind fun m2 m2' hm2 => ?_
    exact ((h1.withMemory hm2).splitTail off need).bind fun l3 l3' h3 => .ok (.some h3)

end Alike

end FreeList

end RegionHeap
