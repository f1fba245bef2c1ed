import RegionHeap.Proofs.Client.World
import RegionHeap.Proofs.Heap.Confined
import RegionHeap.Proofs.Heap.Untrusted

/-!
# Scanning heaps survive corruption

The headers of a scanning heap lie between the payloads of its clients, and a client that writes
past its own leaves anything there. The heap may then serve the wrong bytes, but it does no harm of
its own: no request comes to a fault, none reaches outside the region, and a block that is carved
out for a request shares no byte with another one.

* `World.Survives` -- what holds of a request to a scanning heap on any memory;
* `World.survives_of_step`, `World.survives_of_look` -- the requests that may write, and those that
  leave memory alone;
* `World.scan_survives` -- every request is such a one.
-/

namespace RegionHeap

namespace World

open Region ScanHeap
open Memory (AgreeOutside Between Carries)

variable {a : Alignment} {r : Region a} {m : Memory} {q : Request}

/-- What holds of a request to a scanning heap over a region, whatever is in memory, when it ends
    with this world and this answer. -/
structure Survives (r : Region a) (m : Memory) (q : Request) (w' : World a) (answer : Answer a) :
    Prop where
  /-- The heap keeps its region. -/
  heap_eq : w'.heap = .scan ⟨some r⟩
  /-- Nothing is written outside the region. -/
  writes : AgreeOutside (Between r.base (r.base + r.size)) m w'.memory
  /-- Nothing is read outside the region: a memory with the same bytes in it gives the same answer
      and is left with the same bytes. -/
  reads : ∀ m₂, r.Alike m m₂ → ∃ m₂', serve ⟨.scan ⟨some r⟩, m₂⟩ q =
    .ok (⟨.scan ⟨some r⟩, m₂'⟩, answer) ∧ r.Alike w'.memory m₂'
  /-- The bytes asked for lie in the region, past a header. -/
  inside : ∀ new, answer.address? = some new →
    r.base + a.bytes ≤ new ∧ new + q.bytes ≤ r.base + r.size
  /-- A new address is that of a block `k`, carved out of a free block `b` of the walk. It lies
      apart from every other block of the walk, before and after, and so from the one that moves to
      it, whose payload is found at the new address up to the smaller of the two sizes. -/
  carved : ∀ new, answer.address? = some new → q.subject? ≠ some new →
    ∃ bs bs' b k, r.blocks m = .ok bs ∧ r.blocks w'.memory = .ok bs' ∧
      r.Carved bs bs' q.bytes new b k ∧
      (∀ c ∈ bs, c.offset ≠ b.offset → k.Apart c) ∧
      (∀ c ∈ bs', c.offset ≠ k.offset → k.Apart c) ∧
      ∀ addr, q.subject? = some addr → ∃ c, r.Stands bs addr c ∧ k.Apart c ∧
        Carries m w'.memory addr new (min (c.size - a.bytes) q.bytes)
  /-- No address is answered only if no block of the walk can serve the request, or if it is about
      an address that names nothing live. -/
  refused : answer = .address none → (∃ bs, r.blocks m = .ok bs ∧ r.Full bs q.bytes) ∨
    ∃ addr, q.subject? = some addr ∧ ScanHeap.usableSize ⟨some r⟩ m addr = .ok none

/-! ## 1. Requests that may write -/

/-- The bytes of an answer lie in the region. -/
theorem inside_of_resized {m' : Memory} {bs bs' : List (Block a)} {addr? : Option Nat} {n new : Nat}
    (h : Resized r m m' bs bs' addr? n new) :
    r.base + a.bytes ≤ new ∧ new + n ≤ r.base + r.size := by
  rcases h with ⟨-, c, hc, hfit⟩ | ⟨b, k, hcarved, -⟩
  · have haddr := hc.addr_eq
    have hend := hc.next_le
    unfold Block.next at hend
    omega
  · have haddr := hcarved.addr_eq
    have hnext := hcarved.next_le
    have hend := hcarved.end_le
    have hpayload := hcarved.payload_inside
    omega

/-- **A request survives** if its outcome stays in the region and an address that it answers is that
    of a change of size, on this memory and on all that are alike. -/
theorem survives_of_step {V : Type} {bs bs' : List (Block a)} {o : Outcome a (ScanHeap a) V}
    (step : Memory → Except Fault (Outcome a (ScanHeap a) V)) (tell : V → Answer a)
    (hserve : ∀ m, serve ⟨.scan ⟨some r⟩, m⟩ q =
      (step m).map fun o => (⟨.scan o.heap, o.memory⟩, tell o.value))
    (htrail : r.Trail m 0 bs) (hstep : step m = .ok o) (hstays : Stays r ⟨some r⟩ m o bs')
    (hvalue : ∀ new, (tell o.value).address? = some new →
      Resized r m o.memory bs bs' q.subject? q.bytes new)
    (hrefused : tell o.value = .address none → r.Full bs q.bytes ∨
      ∃ addr, q.subject? = some addr ∧ ScanHeap.usableSize ⟨some r⟩ m addr = .ok none)
    (htogether : ∀ m₂, r.Alike m m₂ → Together (Alike.SameOutcome r) (step m) (step m₂)) :
    ∃ w' answer, serve ⟨.scan ⟨some r⟩, m⟩ q = .ok (w', answer) ∧ Survives r m q w' answer := by
  refine ⟨⟨.scan o.heap, o.memory⟩, tell o.value, by rw [hserve, hstep]; rfl, ?_⟩
  constructor
  case heap_eq => exact congrArg Heap.scan hstays.heap_eq
  case writes => exact hstays.inside
  case reads =>
    intro m₂ hm
    obtain ⟨o₂, hstep₂, hheap, hvalue₂, -, hm'⟩ := (htogether m₂ hm).exists_ok hstep
    refine ⟨o₂.memory, ?_, hm'⟩
    rw [hserve, hstep₂, ← hvalue₂, ← hstays.heap_eq, ← hheap]
    rfl
  case inside => exact fun new hnew => inside_of_resized (hvalue new hnew)
  case carved =>
    intro new hnew hne
    rcases hvalue new hnew with ⟨hsame, -⟩ | ⟨b, k, hcarved, hmoved⟩
    · exact absurd hsame hne
    · refine ⟨bs, bs', b, k, blocks_eq_of_trail htrail, blocks_eq_of_trail hstays.trail, hcarved,
        fun c hc hc' => hcarved.apart_of_mem htrail hc hc', fun c hc hc' => ?_,
        fun addr haddr => ?_⟩
      · exact hstays.trail.apart hcarved.mem hc hc'.symm
      · obtain ⟨c, hc, hcb, hcarries⟩ := hmoved addr haddr
        exact ⟨c, hc, hcarved.apart_of_mem htrail hc.mem hcb, hcarries⟩
  case refused =>
    exact fun h => (hrefused h).imp_left fun hfull => ⟨bs, blocks_eq_of_trail htrail, hfull⟩

/-! ## 2. Requests that leave memory alone -/

/-- A request survives that answers no address and leaves memory as it is. -/
theorem survives_of_look (answer : Answer a) (hanswer : answer.address? = none)
    (hrefused : answer ≠ .address none)
    (hserve : ∀ m₂, r.Alike m m₂ →
      serve ⟨.scan ⟨some r⟩, m₂⟩ q = .ok (⟨.scan ⟨some r⟩, m₂⟩, answer)) :
    ∃ w' answer, serve ⟨.scan ⟨some r⟩, m⟩ q = .ok (w', answer) ∧ Survives r m q w' answer := by
  have hnone : ∀ new, answer.address? ≠ some new := by
    intro new hnew
    rw [hanswer] at hnew
    cases hnew
  refine ⟨_, answer, hserve m fun _ _ => rfl, ?_⟩
  constructor
  case heap_eq => rfl
  case writes => exact .refl _ _
  case reads => exact fun m₂ hm => ⟨m₂, hserve m₂ hm, hm⟩
  case inside => exact fun new hnew => absurd hnew (hnone new)
  case carved => exact fun new hnew => absurd hnew (hnone new)
  case refused => exact fun h => absurd h hrefused

/-! ## 3. All requests -/

/-- **A scanning heap survives any corruption**: whatever is in memory, every request is served
    without a fault and within the region, a block that is carved out for it lies apart from all
    others, and none is refused that a block of the walk could serve. -/
theorem scan_survives (r : Region a) (m : Memory) (q : Request) :
    ∃ w' answer, serve ⟨.scan ⟨some r⟩, m⟩ q = .ok (w', answer) ∧ Survives r m q w' answer := by
  obtain ⟨bs, -, htrail⟩ := r.blocksFrom_trail m 0
  have hr : (⟨some r⟩ : ScanHeap a).region = some r := rfl
  cases q with
  | allocate n =>
    obtain ⟨o, bs', ho, hstays, hfull, hvalue⟩ := allocate_spec hr htrail n
    refine survives_of_step (fun m => ScanHeap.allocate ⟨some r⟩ m n) .address (fun m => ?_) htrail
      ho hstays (fun new hnew => ?_) (fun h => ?_) fun m₂ hm => hm.allocate hr n
    · simp only [serve, Heap.allocate]
      cases ScanHeap.allocate ⟨some r⟩ m n <;> rfl
    · obtain ⟨b, k, hcarved⟩ := hvalue new hnew
      exact .inr ⟨b, k, hcarved, fun _ h => by cases h⟩
    · exact .inl (hfull (congrArg Answer.address? h))
  | release addr =>
    obtain ⟨o, bs', ho, hstays⟩ := release_stays hr htrail addr
    refine survives_of_step (fun m => ScanHeap.release ⟨some r⟩ m addr) (fun _ => .done)
      (fun m => ?_) htrail ho hstays (fun _ h => by cases h) (fun h => by cases h)
      fun m₂ hm => hm.release hr addr
    simp only [serve, Heap.release]
    cases ScanHeap.release ⟨some r⟩ m addr <;> rfl
  | resize addr? n =>
    obtain ⟨o, bs', ho, hstays, hfull, hvalue⟩ := resize_spec hr htrail addr? n
    refine survives_of_step (fun m => ScanHeap.resize ⟨some r⟩ m addr? n) .address (fun m => ?_)
      htrail ho hstays hvalue (fun h => hfull (congrArg Answer.address? h))
      fun m₂ hm => hm.resize hr addr? n
    simp only [serve, Heap.resize]
    cases ScanHeap.resize ⟨some r⟩ m addr? n <;> rfl
  | usableSize addr =>
    obtain ⟨n?, hn⟩ := usableSize_ok hr htrail addr
    refine survives_of_look (.usable n?) rfl (fun h => by cases h) fun m₂ hm => ?_
    simp only [serve, Heap.usableSize, hm.usableSize_eq hr, hn]
    rfl
  | validate =>
    obtain ⟨v, hv⟩ := validate_ok hr m
    refine survives_of_look (.verdict v) rfl (fun h => by cases h) fun m₂ hm => ?_
    simp only [serve, Heap.validate, hm.validate_eq hr, hv]
    rfl
  | dump room =>
    obtain ⟨w, hw⟩ := dump_ok hr htrail room
    refine survives_of_look (.snapshot w) rfl (fun h => by cases h) fun m₂ hm => ?_
    simp only [serve, hm.dump_eq hr, hw]
    rfl

end World

end RegionHeap
