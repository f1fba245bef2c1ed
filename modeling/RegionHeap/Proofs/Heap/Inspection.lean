import RegionHeap.Proofs.Heap.Reach
import RegionHeap.Proofs.Heap.Verdicts

/-!
# Looks at a listing heap

The operations of a listing heap that only look, on any memory and with any head of the list. Sizes
and links are not trusted: the walk leads past so many blocks only as there are places on the grid,
and what lies outside of the region is not read.

* `Trail.length_le` -- the number of the blocks of a walk;
* `Alike.listUsableSize_eq` and the like -- looks read the region alone;
* `ListHeap.usableSize_ok` -- any address can be asked about.
-/

namespace RegionHeap

namespace Region

variable {a : Alignment} {r : Region a} {m m' : Memory} {lo : Nat} {bs : List (Block a)}

/-! ## 1. The walk and the grid -/

/-- Each block of a walk takes up a place of the grid. -/
theorem Trail.add_length_mul_le (h : r.Trail m lo bs) (hne : bs ≠ []) :
    lo + bs.length * a.bytes ≤ r.size := by
  induction bs generalizing lo with
  | nil => exact absurd rfl hne
  | cons b bs ih =>
    obtain ⟨hoff, hb, hrest⟩ := h
    have hlo : b.offset = lo := congrArg Block.offset hb
    have hend := hoff.2
    rw [List.length_cons, Nat.succ_mul]
    by_cases hbs : bs = []
    · rw [hbs, List.length_nil, Nat.zero_mul, Nat.zero_add]
      exact hend
    · by_cases hsize : b.size = 0
      · rw [if_pos hsize] at hrest
        exact absurd hrest hbs
      · rw [if_neg hsize] at hrest
        have hmul := ih hrest hbs
        have hbytes := Block.bytes_le_size hsize
        unfold Block.next at hmul
        omega

/-- **A walk comes past no more blocks than the region has places.** -/
theorem Trail.length_le (h : r.Trail m 0 bs) : bs.length ≤ r.size / a.bytes := by
  refine (Nat.le_div_iff_mul_le a.bytes_pos).mpr ?_
  by_cases hbs : bs = []
  · rw [hbs, List.length_nil, Nat.zero_mul]
    exact Nat.zero_le _
  · have hmul := h.add_length_mul_le hbs
    rwa [Nat.zero_add] at hmul

/-- A node fits where the grid and the end of the region let it: the difference in the test is
    exact. -/
theorem isNode_iff {x : Nat} :
    r.IsNode x ↔ x % a.bytes = 0 ∧ x + Strategy.list.minBlock a ≤ r.size := by
  have hmin := Strategy.list.bytes_le_minBlock (a := a)
  unfold IsNode IsHeaderOffset
  omega

/-! ## 2. Memories that agree on the region -/

namespace Alike

variable {head : Option Nat}

theorem listUsableSize_eq (hm : r.Alike m m') (addr : Nat) :
    ListHeap.usableSize ⟨some r, head⟩ m' addr = ListHeap.usableSize ⟨some r, head⟩ m addr := by
  unfold ListHeap.usableSize
  simp only [hm.live?_eq]

theorem listValidate_eq (hm : r.Alike m m') :
    ListHeap.validate ⟨some r, head⟩ m' = ListHeap.validate ⟨some r, head⟩ m := by
  unfold ListHeap.validate ListHeap.audit FreeList.audit
  simp only [hm.audit_eq, FreeList.auditFrom_congr hm]

theorem listLines_eq (hm : r.Alike m m') (index : Nat) (bs : List (Block a)) :
    Snapshot.listLines r m' index bs = Snapshot.listLines r m index bs := by
  induction bs generalizing index with
  | nil => rfl
  | cons b bs ih =>
    unfold Snapshot.listLines
    simp only [hm.links_eq, ih]

theorem listDump_eq (hm : r.Alike m m') (room : Option Nat) :
    (Heap.list ⟨some r, head⟩).dump m' room = (Heap.list ⟨some r, head⟩).dump m room := by
  unfold Heap.dump Heap.snapshot ListHeap.snapshot
  simp only [hm.blocks_eq, hm.listLines_eq]

end Alike

end Region

/-! ## 3. Usable bytes -/

/-- The number of usable bytes can be told, whatever is in memory. -/
theorem ListHeap.usableSize_ok {a : Alignment} (r : Region a) (m : Memory) (head : Option Nat)
    (addr : Nat) : ∃ n?, ListHeap.usableSize ⟨some r, head⟩ m addr = .ok n? := by
  obtain ⟨bs, -, htrail⟩ := r.blocksFrom_trail m 0
  obtain ⟨live?, hlive, hblock⟩ := Region.live?_block htrail (Strategy.list.minBlock a) addr
  unfold ListHeap.usableSize
  simp only [hlive, bind, Except.bind]
  cases live? with
  | none => exact ⟨none, rfl⟩
  | some live =>
    obtain ⟨c, -, -, hmin, -, -, -, hsize⟩ := hblock live rfl
    have hbytes : a.bytes ≤ live.size := by
      rw [hsize]
      exact Nat.le_trans Strategy.list.bytes_le_minBlock hmin
    simp only [Live.usable, Word.sub_eq_ok hbytes]
    exact ⟨_, rfl⟩

end RegionHeap
