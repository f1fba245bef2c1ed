import RegionHeap.Proofs.Heap.Accepted
import RegionHeap.Proofs.Heap.Snapshot

/-!
# Heaps that hold a plan

The same statements for a heap of either strategy. From here on nothing is said of headers and links:
a heap is a plan, an operation goes from a plan to the next one, and memory matters only as far as
the payloads of the cells in use are concerned.

* `Heap.Shows` -- heap and memory hold the plan, between operations;
* `Shows.allocate`, `Shows.release`, `Shows.resize`, `Shows.resize_live` -- the operations follow it;
* `Shows.resize_fits` -- a change of size that changes nothing;
* `Shows.usableSize`, `Shows.validate`, `Shows.dump` -- what can be read off it;
* `Shows.congr_of_client` -- the client may write its own bytes;
* `Heap.init_ok`, `Heap.init_error` -- a heap over a new region, or over none.
-/

namespace RegionHeap

/-- A heap has taken over the region, and with the memory it holds the plan between its operations. -/
inductive Heap.Shows {a : Alignment} (r : Region a) : Strategy → Heap a → Memory → Plan → Prop where
  | scan {h : ScanHeap a} {m : Memory} {p : Plan} (hs : ScanHeap.Shows r h m p) :
      Shows r .scan (.scan h) m p
  | list {h : ListHeap a} {m : Memory} {p : Plan} (hs : ListHeap.Shows r h m p) :
      Shows r .list (.list h) m p

variable {a : Alignment} {r : Region a} {s : Strategy} {h : Heap a} {m m' : Memory} {p : Plan}
  {us : List Cell} {f : Focus} {addr n : Nat}

/-! ## 1. A step of one heap is a step of the other -/

section

variable {H V : Type} {shows : H → Memory → Plan → Prop} {shows' : Heap a → Memory → Plan → Prop}
  {wrap : H → Heap a} {step : Except Fault (Outcome a H V)} {v : V}

/-- A step that follows a plan still does if its heap is seen as part of another one. -/
theorem Follows.lift (h : Follows shows r us m step v p)
    (hwrap : ∀ h m p, shows h m p → shows' (wrap h) m p) :
    Follows shows' r us m (step.map (Outcome.lift wrap)) v p := by
  obtain ⟨o, rfl, hvalue, hshows, hm⟩ := h
  exact ⟨_, rfl, hvalue, hwrap _ _ _ hshows, hm⟩

theorem FollowsCarrying.lift {step : Except Fault (Outcome a H (Option Nat))} {v : Option Nat}
    {src n : Nat} (h : FollowsCarrying shows r us m step v p src n)
    (hwrap : ∀ h m p, shows h m p → shows' (wrap h) m p) :
    FollowsCarrying shows' r us m (step.map (Outcome.lift wrap)) v p src n := by
  obtain ⟨o, rfl, hvalue, hshows, hm, hcarries⟩ := h
  exact ⟨_, rfl, hvalue, hwrap _ _ _ hshows, hm, hcarries⟩

end

namespace Heap.Shows

/-! ## 2. What a heap that holds a plan is like -/

theorem strategy_eq (hs : Shows r s h m p) : h.strategy = s := by
  cases hs <;> rfl

theorem region_eq (hs : Shows r s h m p) : h.region = some r := by
  cases hs with
  | scan hs => exact hs.region_eq
  | list hs => exact hs.region_eq

theorem laid (hs : Shows r s h m p) : r.Laid s m p.cells := by
  cases hs with
  | scan hs => exact hs.laid
  | list hs => exact hs.drawn.laid

theorem tiled (hs : Shows r s h m p) : Tiled a (s.minBlock a) 0 p.cells r.size :=
  hs.laid.tiled

theorem settled (hs : Shows r s h m p) : p.Settled s := by
  cases hs with
  | scan hs => exact hs.settled
  | list hs => exact hs.settled

/-- **What clients write is of no concern to the heap.** -/
theorem congr_of_client (hs : Shows r s h m p)
    (hm : Memory.AgreeOutside (r.ClientBytes p.cells) m m') : Shows r s h m' p := by
  cases hs with
  | scan hs => exact .scan (hs.congr_of_client hm)
  | list hs => exact .list (hs.congr_of_client hm)

/-! ## 3. Operations -/

/-- **Allocation follows the plan**, and touches no cell in use. -/
theorem allocate (hs : Shows r s h m p) (n : Nat) :
    Follows (Shows r s) r (inUse p.cells) m (h.allocate m n) (p.allocate r s n).1
      (p.allocate r s n).2 := by
  cases hs with
  | scan hs => exact (hs.allocate n).lift fun _ _ _ => .scan
  | list hs => exact (hs.allocate n).lift fun _ _ _ => .list

/-- **Release follows the plan**, and touches no cell in use but the one at the address. -/
theorem release (hs : Shows r s h m p) (addr : Nat) :
    Follows (Shows r s) r (p.others r (some addr)) m (h.release m addr) () (p.release r s addr) := by
  cases hs with
  | scan hs => exact (hs.release addr).lift fun _ _ _ => .scan
  | list hs => exact (hs.release addr).lift fun _ _ _ => .list

/-- **A change of size follows the plan**, and touches no cell in use but the one at the address. -/
theorem resize (hs : Shows r s h m p) (addr? : Option Nat) (n : Nat) :
    Follows (Shows r s) r (p.others r addr?) m (h.resize m addr? n) (p.resize r s addr? n).1
      (p.resize r s addr? n).2 := by
  cases hs with
  | scan hs => exact (hs.resize addr? n).lift fun _ _ _ => .scan
  | list hs => exact (hs.resize addr? n).lift fun _ _ _ => .list

/-- A change of size of a live allocation carries its payload along. -/
theorem resize_live (hs : Shows r s h m p) (hf : p.live? r addr = some f) (hn : n ≠ 0) :
    FollowsCarrying (Shows r s) r (p.others r (some addr)) m (h.resize m (some addr) n)
      (p.resize r s (some addr) n).1 (p.resize r s (some addr) n).2 addr
      (min (f.cell.size - a.bytes) n) := by
  cases hs with
  | scan hs => exact (hs.resize_live hf hn).lift fun _ _ _ => .scan
  | list hs => exact (hs.resize_live hf hn).lift fun _ _ _ => .list

/-- **A change of size changes nothing** if the block fits the bytes asked for. -/
theorem resize_fits (hs : Shows r s h m p) (hf : p.live? r addr = some f)
    (hfit : s.Fits a n f.cell.size) :
    h.resize m (some addr) n = .ok ⟨h, m, some addr, [.shrunk addr n]⟩ := by
  cases hs with
  | scan hs => rw [Heap.resize, hs.resize_fits hf hfit]; rfl
  | list hs => rw [Heap.resize, hs.resize_fits hf hfit]; rfl

/-- The number of usable bytes is that of the plan. -/
theorem usableSize (hs : Shows r s h m p) (addr : Nat) :
    h.usableSize m addr = .ok (p.usable r addr) := by
  cases hs with
  | scan hs => exact hs.usableSize addr
  | list hs => exact hs.usableSize addr

/-- **The heap passes the validation.** -/
theorem validate (hs : Shows r s h m p) : h.validate m = .ok ⟨.ok (), [], []⟩ := by
  cases hs with
  | scan hs => exact hs.validate
  | list hs => exact hs.validate

/-- The heap can be shown. -/
theorem dump (hs : Shows r s h m p) (room : Option Nat) : ∃ w, h.dump m room = .ok w := by
  cases hs with
  | scan hs => exact hs.dump room
  | list hs => exact hs.dump room

end Heap.Shows

namespace Heap

/-! ## 4. New regions -/

/-- **A heap that was laid out over an accepted range** holds the plan of one free block. -/
theorem init_ok {len : Nat} (h : Heap a) (m : Memory)
    (hr : Region.ofRange? a (h.strategy.minBlock a) addr len = .ok r) :
    ∃ o, h.init m addr len = .ok o ∧ o.value = .ok () ∧
      Shows r h.strategy o.heap o.memory (.fresh r h.strategy) ∧
      Memory.AgreeOutside (Memory.Between r.base (r.base + r.size)) m o.memory := by
  cases h with
  | scan h =>
    obtain ⟨o, ho, hvalue, hshows, hm⟩ := ScanHeap.init_ok m hr
    exact ⟨o.lift .scan, by rw [init, ho]; rfl, hvalue, .scan hshows, hm⟩
  | list h =>
    obtain ⟨o, ho, hvalue, hshows, hm⟩ := ListHeap.init_ok m hr
    exact ⟨o.lift .list, by rw [init, ho]; rfl, hvalue, .list hshows, hm⟩

/-- A refused range leaves memory as it is and the heap without a region. -/
theorem init_error {len : Nat} {e : ClaimError} (h : Heap a) (m : Memory)
    (hr : Region.ofRange? a (h.strategy.minBlock a) addr len = .error e) :
    h.init m addr len = .ok ⟨empty h.strategy, m, .error e, []⟩ := by
  cases h with
  | scan h =>
    have hinit : (ScanHeap.init m addr len : Except Fault (Outcome a _ _)) =
        .ok ⟨ScanHeap.empty, m, .error e, []⟩ := by
      unfold ScanHeap.init
      rw [show Region.ofRange? a (Strategy.scan.minBlock a) addr len = .error e from hr]
      rfl
    rw [init, hinit]
    rfl
  | list h =>
    have hinit : (ListHeap.init m addr len : Except Fault (Outcome a _ _)) =
        .ok ⟨ListHeap.empty, m, .error e, []⟩ := by
      unfold ListHeap.init
      rw [show Region.ofRange? a (Strategy.list.minBlock a) addr len = .error e from hr]
      rfl
    rw [init, hinit]
    rfl

end Heap

end RegionHeap
