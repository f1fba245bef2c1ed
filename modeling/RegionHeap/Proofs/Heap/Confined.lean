import RegionHeap.Proofs.FreeList.Confined
import RegionHeap.Snapshot.Basic

/-!
# Heaps look at their region only

Two memories that hold the same bytes in the region of a heap are one memory to it: every operation
gives the same answer on both, or comes to the same fault, and leaves the same bytes in the region. So
no byte outside the region is ever read, whatever is in memory.

* `Alike.SameOutcome` -- the same outcome, up to memory outside the region;
* `Alike.allocate`, `Alike.release`, `Alike.resize`, `Alike.usableSize_eq`, `Alike.validate_eq`,
  `Alike.dump_eq` -- the operations of a scanning heap;
* `ListHeap.allocate_together`, `ListHeap.release_together`, `ListHeap.resize_together` -- those of a
  listing heap that may write;
* `Heap.allocate_together`, `Heap.release_together`, `Heap.resize_together` -- the same for either;
* `Heap.init_together` -- a new region is the same whatever was in memory.
-/

namespace RegionHeap

namespace Region.Alike

variable {a : Alignment} {r : Region a} {h : ScanHeap a} {m m' : Memory}

/-! ## 1. Outcomes -/

/-- The outcomes are the same, up to what memory holds outside the region. -/
def SameOutcome {H V : Type} (r : Region a) (o o' : Outcome a H V) : Prop :=
  o'.heap = o.heap ∧ o'.value = o.value ∧ o'.log = o.log ∧ r.Alike o.memory o'.memory

/-- Outcomes stay the same when the heap is seen as part of another one. -/
theorem SameOutcome.lift {H H' V : Type} {wrap : H → H'} {x y : Except Fault (Outcome a H V)}
    (hxy : Together (SameOutcome r) x y) :
    Together (SameOutcome r) (x.map (Outcome.lift wrap)) (y.map (Outcome.lift wrap)) := by
  cases hxy with
  | ok ho => exact .ok ⟨congrArg wrap ho.1, ho.2⟩
  | fault e => exact .fault e

/-! ## 2. The scanning heap -/

theorem splitTail (hm : r.Alike m m') (off keep : Nat) :
    Together r.Alike (ScanHeap.splitTail r m off keep) (ScanHeap.splitTail r m' off keep) := by
  unfold ScanHeap.splitTail
  rw [hm.header_eq]
  refine .bind_same fun x => ?_
  by_cases hkeep : keep ≤ x.size
  · simp only [hkeep, if_true]
    split
    · exact .ok hm
    · exact (hm.setHeader off _).bind fun m1 m1' hm1 => hm1.setHeader _ _
  · simp only [hkeep, if_false]
    exact .fault _

theorem carve? (hm : r.Alike m m') (need : Nat) :
    Together (Option.Rel fun x x' => x.1 = x'.1 ∧ r.Alike x.2 x'.2) (ScanHeap.carve? r m need)
      (ScanHeap.carve? r m' need) := by
  unfold ScanHeap.carve?
  rw [hm.blocks_eq]
  refine .bind_same fun bs => .bind_same fun b? => ?_
  cases b? with
  | none => exact .ok .none
  | some b =>
    refine (hm.setHeader b.offset _).bind fun m1 m1' hm1 => ?_
    exact (hm1.splitTail b.offset need).bind fun m2 m2' hm2 => .ok (.some ⟨rfl, hm2⟩)

theorem allocate (hm : r.Alike m m') (hr : h.region = some r) (n : Nat) :
    Together (SameOutcome r) (h.allocate m n) (h.allocate m' n) := by
  unfold ScanHeap.allocate
  simp only [hr]
  cases a.blockSize? (Strategy.scan.minPayload a) n with
  | none => exact .ok ⟨rfl, rfl, rfl, hm⟩
  | some need =>
    refine (hm.carve? need).bind fun c c' hc => ?_
    cases hc with
    | none => exact .ok ⟨rfl, rfl, rfl, hm⟩
    | some hc =>
      obtain ⟨hoff, hm1⟩ := hc
      simp only [hoff]
      exact .bind_same fun addr => .ok ⟨rfl, rfl, rfl, hm1⟩

theorem release (hm : r.Alike m m') (hr : h.region = some r) (addr : Nat) :
    Together (SameOutcome r) (h.release m addr) (h.release m' addr) := by
  unfold ScanHeap.release
  simp only [hr, hm.live?_eq]
  refine .bind_same fun live? => ?_
  cases live? with
  | none => exact .ok ⟨rfl, rfl, rfl, hm⟩
  | some live =>
    exact (hm.setHeader live.offset _).bind fun m1 m1' hm1 => .ok ⟨rfl, rfl, rfl, hm1⟩

theorem relocate (hm : r.Alike m m') (hr : h.region = some r) (addr : Nat) (live : Live)
    (n need : Nat) :
    Together (SameOutcome r) (h.relocate r m addr live n need)
      (h.relocate r m' addr live n need) := by
  unfold ScanHeap.relocate
  refine (hm.carve? need).bind fun c c' hc => ?_
  cases hc with
  | none => exact .ok ⟨rfl, rfl, rfl, hm⟩
  | some hc =>
    obtain ⟨hoff, hm1⟩ := hc
    simp only [hoff]
    refine .bind_same fun new => .bind_same fun usable => ?_
    refine (hm1.copyPayload live.offset _ _).bind fun m2 m2' hm2 => ?_
    refine (hm2.release hr addr).bind fun o o' ho => ?_
    obtain ⟨hheap, -, hlog, hm3⟩ := ho
    exact .ok ⟨hheap, rfl, by simp only [hlog], hm3⟩

theorem resize (hm : r.Alike m m') (hr : h.region = some r) (addr? : Option Nat) (n : Nat) :
    Together (SameOutcome r) (h.resize m addr? n) (h.resize m' addr? n) := by
  cases addr? with
  | none => exact hm.allocate hr n
  | some addr =>
    unfold ScanHeap.resize
    by_cases hn : n = 0
    · simp only [if_pos hn]
      refine (hm.release hr addr).bind fun o o' ho => ?_
      obtain ⟨hheap, -, hlog, hm1⟩ := ho
      exact .ok ⟨hheap, rfl, hlog, hm1⟩
    · simp only [if_neg hn, hr, hm.live?_eq]
      refine .bind_same fun live? => ?_
      cases live? with
      | none => exact .ok ⟨rfl, rfl, rfl, hm⟩
      | some live =>
        cases a.blockSize? (Strategy.scan.minPayload a) n with
        | none => exact .ok ⟨rfl, rfl, rfl, hm⟩
        | some need =>
          by_cases hle : need ≤ live.size
          · simp only [if_pos hle]
            exact (hm.splitTail live.offset need).bind fun m1 m1' hm1 => .ok ⟨rfl, rfl, rfl, hm1⟩
          · simp only [if_neg hle]
            exact hm.relocate hr addr live n need

theorem usableSize_eq (hm : r.Alike m m') (hr : h.region = some r) (addr : Nat) :
    h.usableSize m' addr = h.usableSize m addr := by
  unfold ScanHeap.usableSize
  simp only [hr, hm.live?_eq]

theorem validate_eq (hm : r.Alike m m') (hr : h.region = some r) :
    h.validate m' = h.validate m := by
  unfold ScanHeap.validate
  simp only [hr, hm.audit_eq]

theorem scanLines_eq (hm : r.Alike m m') (index : Nat) (bs : List (Block a)) :
    Snapshot.scanLines r m' index bs = Snapshot.scanLines r m index bs := by
  induction bs generalizing index with
  | nil => rfl
  | cons b bs ih =>
    unfold Snapshot.scanLines Snapshot.preview
    simp only [hm.bytes_eq, ih]

theorem dump_eq (hm : r.Alike m m') (hr : h.region = some r) (room : Option Nat) :
    (Heap.scan h).dump m' room = (Heap.scan h).dump m room := by
  unfold Heap.dump Heap.snapshot ScanHeap.snapshot
  simp only [hr, hm.blocks_eq, hm.scanLines_eq]

end Region.Alike

open Region.Alike (SameOutcome)

variable {a : Alignment} {r : Region a} {m m' : Memory} {addr : Nat}

/-! ## 3. The listing heap -/

namespace ListHeap

variable {h : ListHeap a}

theorem withList_congr {l l' : FreeList} (hl : FreeList.Alike r l l') : h.withList l' = h.withList l := by
  unfold ListHeap.withList
  rw [hl.head_eq]

theorem carve?_together {l l' : FreeList} (hl : FreeList.Alike r l l') (need : Nat) :
    Together (Option.Rel fun x x' => x.1 = x'.1 ∧ FreeList.Alike r x.2 x'.2) (carve? r l need)
      (carve? r l' need) := by
  unfold ListHeap.carve?
  rw [hl.firstFit_eq]
  refine .bind_same fun b? => ?_
  cases b? with
  | none => exact .ok .none
  | some b =>
    refine (hl.remove b.offset).bind fun l1 l1' h1 => ?_
    refine (h1.memory.setHeader b.offset _).bind fun m2 m2' hm2 => ?_
    exact ((h1.withMemory hm2).splitTail b.offset need).bind fun l3 l3' h3 => .ok (.some ⟨rfl, h3⟩)

theorem free_together {l l' : FreeList} (hl : FreeList.Alike r l l') (live : Live) :
    Together (FreeList.Alike r) (free r l live) (free r l' live) := by
  unfold ListHeap.free
  refine (hl.memory.setHeader live.offset _).bind fun m1 m1' hm1 => ?_
  have h1 := hl.withMemory hm1
  have alone : Together (FreeList.Alike r)
      (do (← FreeList.push r { l with memory := m1 } live.offset).coalesce r live.offset)
      (do (← FreeList.push r { l' with memory := m1' } live.offset).coalesce r live.offset) :=
    (h1.push live.offset).bind fun l2 l2' h2 => h2.coalesce live.offset
  cases live.left with
  | none => exact alone
  | some left =>
    simp only [hm1.header_eq]
    refine .bind_same fun x => ?_
    by_cases hx : x.Allocated
    · simp only [if_pos hx]
      exact alone
    · simp only [if_neg hx]
      refine .bind_same fun size => (hm1.setHeader left _).bind fun m2 m2' hm2 => ?_
      exact (hl.withMemory hm2).coalesce left

theorem allocate_together (hr : h.region = some r) (hm : r.Alike m m') (n : Nat) :
    Together (SameOutcome r) (h.allocate m n) (h.allocate m' n) := by
  unfold ListHeap.allocate
  simp only [hr]
  cases a.blockSize? (Strategy.list.minPayload a) n with
  | none => exact .ok ⟨rfl, rfl, rfl, hm⟩
  | some need =>
    refine (carve?_together (.of_memory h.head hm) need).bind fun c c' hc => ?_
    cases hc with
    | none => exact .ok ⟨rfl, rfl, rfl, hm⟩
    | @some x x' hx =>
      obtain ⟨hoff, hl⟩ := hx
      simp only [hoff, withList_congr hl]
      exact .bind_same fun addr => .ok ⟨rfl, rfl, rfl, hl.memory⟩

theorem release_together (hr : h.region = some r) (hm : r.Alike m m') (addr : Nat) :
    Together (SameOutcome r) (h.release m addr) (h.release m' addr) := by
  unfold ListHeap.release
  simp only [hr, hm.live?_eq]
  refine .bind_same fun live? => ?_
  cases live? with
  | none => exact .ok ⟨rfl, rfl, rfl, hm⟩
  | some live =>
    refine (free_together (.of_memory h.head hm) live).bind fun l l' hl => ?_
    simp only [withList_congr hl]
    exact .ok ⟨rfl, rfl, rfl, hl.memory⟩

theorem relocate_together (hr : h.region = some r) (hm : r.Alike m m') (addr : Nat) (live : Live)
    (n need : Nat) :
    Together (SameOutcome r) (h.relocate r m addr live n need)
      (h.relocate r m' addr live n need) := by
  unfold ListHeap.relocate
  refine (carve?_together (.of_memory h.head hm) need).bind fun c c' hc => ?_
  cases hc with
  | none => exact .ok ⟨rfl, rfl, rfl, hm⟩
  | @some x x' hx =>
    obtain ⟨hoff, hl⟩ := hx
    simp only [hoff, withList_congr hl]
    refine .bind_same fun new => .bind_same fun usable => ?_
    refine (hl.memory.copyPayload live.offset _ _).bind fun m2 m2' hm2 => ?_
    have hr' : (h.withList x.2).region = some r := hr
    refine (release_together hr' hm2 addr).bind fun o o' ho => ?_
    obtain ⟨hheap, -, hlog, hm3⟩ := ho
    exact .ok ⟨hheap, rfl, by simp only [hlog], hm3⟩

theorem resize_together (hr : h.region = some r) (hm : r.Alike m m') (addr? : Option Nat) (n : Nat) :
    Together (SameOutcome r) (h.resize m addr? n) (h.resize m' addr? n) := by
  cases addr? with
  | none => exact allocate_together hr hm n
  | some addr =>
    unfold ListHeap.resize
    by_cases hn : n = 0
    · simp only [if_pos hn]
      refine (release_together hr hm addr).bind fun o o' ho => ?_
      obtain ⟨hheap, -, hlog, hm1⟩ := ho
      exact .ok ⟨hheap, rfl, hlog, hm1⟩
    · simp only [if_neg hn, hr, hm.live?_eq]
      refine .bind_same fun live? => ?_
      cases live? with
      | none => exact .ok ⟨rfl, rfl, rfl, hm⟩
      | some live =>
        cases a.blockSize? (Strategy.list.minPayload a) n with
        | none => exact .ok ⟨rfl, rfl, rfl, hm⟩
        | some need =>
          have hl : FreeList.Alike r ⟨h.head, m⟩ ⟨h.head, m'⟩ := .of_memory h.head hm
          by_cases hle : need ≤ live.size
          · simp only [if_pos hle]
            refine (hl.splitTail live.offset need).bind fun l1 l1' h1 => ?_
            simp only [withList_congr h1]
            exact .ok ⟨rfl, rfl, rfl, h1.memory⟩
          · simp only [if_neg hle]
            refine (hl.grow? live.offset need).bind fun l? l?' hl? => ?_
            cases hl? with
            | none => exact relocate_together hr hm addr live n need
            | some h1 =>
              simp only [withList_congr h1]
              exact .ok ⟨rfl, rfl, rfl, h1.memory⟩

end ListHeap

/-! ## 4. Heaps of either strategy -/

namespace Heap

variable {h : Heap a}

/-- **An allocation looks at the region only.** -/
theorem allocate_together (hr : h.region = some r) (hm : r.Alike m m') (n : Nat) :
    Together (SameOutcome r) (h.allocate m n) (h.allocate m' n) := by
  cases h with
  | scan h => exact SameOutcome.lift (hm.allocate hr n)
  | list h => exact SameOutcome.lift (ListHeap.allocate_together hr hm n)

/-- **A release looks at the region only.** -/
theorem release_together (hr : h.region = some r) (hm : r.Alike m m') (addr : Nat) :
    Together (SameOutcome r) (h.release m addr) (h.release m' addr) := by
  cases h with
  | scan h => exact SameOutcome.lift (hm.release hr addr)
  | list h => exact SameOutcome.lift (ListHeap.release_together hr hm addr)

/-- **A change of size looks at the region only.** -/
theorem resize_together (hr : h.region = some r) (hm : r.Alike m m') (addr? : Option Nat) (n : Nat) :
    Together (SameOutcome r) (h.resize m addr? n) (h.resize m' addr? n) := by
  cases h with
  | scan h => exact SameOutcome.lift (hm.resize hr addr? n)
  | list h => exact SameOutcome.lift (ListHeap.resize_together hr hm addr? n)

end Heap

/-! ## 5. New regions -/

/-- A region that was filled with zeros is the same whatever was in memory. -/
theorem Region.clear_alike (r : Region a) (m m' : Memory) : r.Alike (r.clear m) (r.clear m') := by
  intro x hx
  have hi : x - r.base < (List.replicate r.size (0 : UInt8)).length := by
    obtain ⟨hlo, hhi⟩ := hx
    rw [List.length_replicate]
    omega
  unfold Region.clear Memory.fill
  rw [Memory.get_writeBytes, Memory.get_writeBytes, if_pos hx.1, if_pos hx.1,
    List.getElem?_eq_getElem hi]
  rfl

/-- **A new region is the same whatever was in memory.** -/
theorem Heap.init_together {len : Nat} (h : Heap a) (m m' : Memory)
    (hr : Region.ofRange? a (h.strategy.minBlock a) addr len = .ok r) :
    Together (SameOutcome r) (h.init m addr len) (h.init m' addr len) := by
  have hclear := r.clear_alike m m'
  cases h with
  | scan h =>
    have hr : Region.ofRange? a (Strategy.scan.minBlock a) addr len = .ok r := hr
    refine SameOutcome.lift ?_
    unfold ScanHeap.init
    simp only [hr]
    exact (hclear.setHeader 0 _).bind fun m1 m1' hm1 => .ok ⟨rfl, rfl, rfl, hm1⟩
  | list h =>
    have hr : Region.ofRange? a (Strategy.list.minBlock a) addr len = .ok r := hr
    refine SameOutcome.lift ?_
    unfold ListHeap.init
    simp only [hr]
    refine (hclear.setHeader 0 _).bind fun m1 m1' hm1 => ?_
    have hl : FreeList.Alike r ⟨none, m1⟩ ⟨none, m1'⟩ := .of_memory none hm1
    refine (hl.push 0).bind fun l l' h1 => ?_
    simp only [h1.head_eq]
    exact .ok ⟨rfl, rfl, rfl, h1.memory⟩

end RegionHeap
