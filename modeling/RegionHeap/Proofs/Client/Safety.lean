import RegionHeap.Proofs.Client.Run
import RegionHeap.Proofs.Heap.Rounds

/-!
# Runs come to no fault

Accesses, sums and loops are checked at every step, and a step whose check fails is a fault. On a
heap that only its client's requests and writes have shaped no check ever fails, and the loops that
follow links and sizes end after as many rounds as there are blocks to come to.

* `World.serveWithin` -- a request served with the rounds of the loops counted; with the rounds that a
  region has at hand it is the request itself (`serveWithin_given`);
* `World.Safe` -- what is safe about a world;
* `World.Matches.safe` -- a world that keeps to a draft is safe;
* `World.never_faults` -- so it is after every run.
-/

namespace RegionHeap.World

open FreeList

variable {a : Alignment} {s : Strategy} {w w' : World a} {d : Draft a} {r : Region a} {p : Plan}
  {answer : Answer a} {k : Rounds}

/-! ## 1. Requests within rounds -/

/-- The heap serves a request with the rounds of its loops counted. A scanning heap has none but the
    walk. -/
def serveWithin (k : Rounds) (w : World a) (q : Request) : Except Fault (World a × Answer a) :=
  match w.heap, q with
  | .list h, .allocate n =>
    (h.allocateWithin k w.memory n).map fun o => (⟨.list o.heap, o.memory⟩, .address o.value)
  | .list h, .release addr =>
    (h.releaseWithin k w.memory addr).map fun o => (⟨.list o.heap, o.memory⟩, .done)
  | .list h, .resize addr? n =>
    (h.resizeWithin k w.memory addr? n).map fun o => (⟨.list o.heap, o.memory⟩, .address o.value)
  | _, q => w.serve q

/-- The rounds do not show where the operations are the same. -/
theorem serveWithin_eq_serve {h : ListHeap a} {m : Memory} {q : Request}
    (hallocate : ∀ n, h.allocateWithin k m n = h.allocate m n)
    (hrelease : ∀ addr, h.releaseWithin k m addr = h.release m addr)
    (hresize : ∀ addr? n, h.resizeWithin k m addr? n = h.resize m addr? n) :
    serveWithin k ⟨.list h, m⟩ q = serve ⟨.list h, m⟩ q := by
  cases q with
  | allocate n =>
    simp only [serveWithin, serve, Heap.allocate, hallocate]
    cases h.allocate m n <;> rfl
  | release addr =>
    simp only [serveWithin, serve, Heap.release, hrelease]
    cases h.release m addr <;> rfl
  | resize addr? n =>
    simp only [serveWithin, serve, Heap.resize, hresize]
    cases h.resize m addr? n <;> rfl
  | _ => rfl

/-- **A request is served with the rounds that the region has at hand.** -/
theorem serveWithin_given (hr : w.heap.region = some r) (q : Request) :
    w.serveWithin (.given r) q = w.serve q := by
  obtain ⟨heap, m⟩ := w
  cases heap with
  | scan h => cases q <;> rfl
  | list h =>
    obtain ⟨region, head⟩ := h
    have hr : region = some r := hr
    subst hr
    exact serveWithin_eq_serve (fun _ => rfl) (fun _ => rfl) (fun _ _ => rfl)

/-! ## 2. Safe worlds -/

/-- The address lies in the region. -/
def Owns (w : World a) (x : Nat) : Prop :=
  ∃ r ∈ w.heap.region, Memory.Between r.base (r.base + r.size) x

/-- Nothing that the client can do leads to a fault, to a write outside of the region or to a loop
    that comes to a block twice. -/
structure Safe (w : World a) : Prop where
  /-- All checks succeed: accesses are in bounds, sums and differences are words, listed blocks are
      free, and loops end. -/
  steps : ∀ act, ∃ w' answer, w.perform act = .ok (w', answer)
  /-- A request writes to the region only. -/
  inside : ∀ q w' answer, w.serve q = .ok (w', answer) →
    Memory.AgreeOutside w.Owns w.memory w'.memory
  /-- A heap is laid out by writes to its new region only. -/
  init_inside : ∀ addr len w' answer, w.perform (.init addr len) = .ok (w', answer) →
    Memory.AgreeOutside w'.Owns w.memory w'.memory
  /-- A search comes to free blocks of the walk only, and to none of them twice. -/
  searches : ∀ r, w.heap.region = some r → ∃ bs, r.blocks w.memory = .ok bs ∧
    ∀ need, ∃ offs b?, Searches r w.memory need w.heap.head offs b? ∧ offs.Nodup ∧
      ∀ x ∈ offs, ∃ b ∈ bs, b.offset = x ∧ ¬ b.header.Allocated
  /-- As many rounds as there are free blocks are enough to search; two are enough to merge and to
      grow, so at most one block is taken in. -/
  rounds : ∀ r bs, w.heap.region = some r → r.blocks w.memory = .ok bs →
    ∀ q, w.serveWithin ⟨bs.countP fun b => !decide b.header.Allocated, 2, 2⟩ q = w.serve q

/-- What a request may write to lies in the region. -/
theorem Matches.writes_owned (h : Matches s d w) {q : Request} {x : Nat} (hx : d.Writes q x) :
    w.Owns x := by
  cases d with
  | blank => exact hx.elim
  | planned r p => exact ⟨r, Heap.Shows.region_eq (s := s) h, hx.1⟩

/-- A new heap is laid out by writes to its region. -/
theorem Matches.init_inside (h : Matches s d w) {addr len : Nat}
    (hinit : w.perform (.init addr len) = .ok (w', answer)) :
    Memory.AgreeOutside w'.Owns w.memory w'.memory := by
  have hstrategy := h.strategy_eq
  cases hr : Region.ofRange? a (s.minBlock a) addr len with
  | ok r =>
    obtain ⟨o, ho, -, hshows, hm⟩ := w.heap.init_ok w.memory (hstrategy ▸ hr)
    rw [World.perform_init ho] at hinit
    cases hinit
    exact hm.mono fun x hx => ⟨r, hshows.region_eq, hx⟩
  | error e =>
    have ho := w.heap.init_error w.memory (hstrategy ▸ hr)
    rw [World.perform_init ho] at hinit
    cases hinit
    exact .refl _ _

/-- **A search comes to free blocks only**, and to none of them twice. -/
theorem searches_of_shows (hs : w.heap.Shows r s w.memory p) (need : Nat) :
    ∃ offs b?, Searches r w.memory need w.heap.head offs b? ∧ offs.Nodup ∧
      ∀ x ∈ offs, ∃ b ∈ p.cells.map (Cell.block a), b.offset = x ∧ ¬ b.header.Allocated := by
  obtain ⟨heap, m⟩ := w
  cases hs with
  | scan hs => exact ⟨[], none, .nothing, List.nodup_nil, fun _ hx => nomatch hx⟩
  | list hs =>
    obtain ⟨offs, b?, hsearches, hnodup, hfree⟩ := hs.drawn.searches need
    refine ⟨offs, b?, hsearches, hnodup, fun x hx => ?_⟩
    obtain ⟨c, hc, hu, rfl⟩ := mem_vacant.mp (hfree x hx)
    exact ⟨c.block a, List.mem_map_of_mem hc, rfl, by simp [Cell.block, hu]⟩

/-- **One round for every free block and two rounds of merging and growing** serve every request. -/
theorem rounds_of_shows (hs : w.heap.Shows r s w.memory p) (q : Request) :
    w.serveWithin ⟨p.cells.countP fun c => !c.used, 2, 2⟩ q = w.serve q := by
  obtain ⟨heap, m⟩ := w
  cases hs with
  | scan hs => cases q <;> rfl
  | list hs =>
    have hk : Rounds.Enough ⟨p.cells.countP fun c => !c.used, 2, 2⟩ p :=
      ⟨by rw [← length_vacant, hs.settled.2.length_eq], Nat.le_refl 2, Nat.le_refl 2⟩
    exact serveWithin_eq_serve (hs.allocateWithin_eq hk) (hs.releaseWithin_eq hk.merge)
      (hs.resizeWithin_eq hk)

/-- **A world that keeps to a draft is safe.** -/
theorem Matches.safe (h : Matches s d w) : w.Safe := by
  constructor
  case steps =>
    intro act
    obtain ⟨w', answer, hperform, -⟩ := h.perform act
    exact ⟨w', answer, hperform⟩
  case inside =>
    intro q w' answer hserve
    obtain ⟨-, -, hm⟩ := h.of_serve hserve
    exact hm.mono fun x hx => h.writes_owned hx
  case init_inside =>
    intro addr len w' answer hinit
    exact h.init_inside hinit
  case searches =>
    intro r hr
    obtain ⟨p, rfl⟩ := h.exists_plan hr
    have hs : w.heap.Shows r s w.memory p := h
    exact ⟨_, hs.laid.blocks_eq, searches_of_shows hs⟩
  case rounds =>
    intro r bs hr hbs q
    obtain ⟨p, rfl⟩ := h.exists_plan hr
    have hs : w.heap.Shows r s w.memory p := h
    rw [hs.laid.blocks_eq] at hbs
    cases hbs
    rw [Cell.countP_block]
    exact rounds_of_shows hs q

/-! ## 3. Runs -/

/-- **No run comes to a fault**, for both strategies and whatever the client asks for and writes to its
    payloads, and neither does anything that the client can do after the run. No request touches
    memory outside of the region, no search comes to a block twice, and no merging and no growing
    takes in more than one block. -/
theorem never_faults (s : Strategy) (m : Memory) (acts : List Action) :
    ∃ (w : World a) (trace : List (Action × Answer a)), (fresh s m).run acts = .ok (w, trace) ∧
      w.Safe := by
  obtain ⟨w, trace, hrun, hw, -⟩ := (matches_fresh (a := a) s m).run acts
  exact ⟨w, trace, hrun, hw.safe⟩

end RegionHeap.World
