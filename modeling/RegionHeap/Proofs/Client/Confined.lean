import RegionHeap.Proofs.Client.Determined
import RegionHeap.Proofs.Client.Refusal
import RegionHeap.Proofs.Client.Safety
import RegionHeap.Proofs.Heap.Confined

/-!
# Clients that keep to a range of memory

A client may share memory with others and have a range of it to itself. If it hands over and writes to
nothing but its range, then so does its heap; what lies elsewhere has no say in what the client is told,
and an address from elsewhere names nothing to the heap.

* `Action.Within`, `Draft.Inside` -- the client keeps to the range, and so does its region;
* `World.Matches.perform_inside` -- nothing outside of the range is written;
* `World.Twin`, `Twin.perform` -- two worlds with the same range go on in the same way;
* `World.Rejects`, `Matches.rejects` -- an address outside of the region names nothing live.
-/

namespace RegionHeap

open Memory (AgreeOutside Between)
open Region.Alike (SameOutcome)

/-- The client hands over and writes to nothing but the range from `lo` to `hi`. Its payloads lie in
    what it hands over. -/
def Action.Within (lo hi : Nat) : Action → Prop
  | init addr len => lo ≤ addr ∧ addr + len ≤ hi
  | elsewhere addr bytes => lo ≤ addr ∧ addr + bytes.length ≤ hi
  | _ => True

variable {a : Alignment} {s : Strategy} {w w' w1 : World a} {d : Draft a} {r : Region a} {p : Plan}
  {act : Action} {answer : Answer a} {m m' : Memory} {addr lo hi : Nat}

/-! ## 1. Drafts -/

/-- The region lies in the range. -/
def Draft.Inside (lo hi : Nat) : Draft a → Prop
  | .blank => True
  | .planned r _ => lo ≤ r.base ∧ r.base + r.size ≤ hi

/-- The region stays in the range. -/
theorem Draft.Inside.after (hd : d.Inside lo hi) (hact : act.Within lo hi) :
    (d.after s act).Inside lo hi := by
  cases act with
  | init addr len =>
    cases hr : Region.ofRange? a (s.minBlock a) addr len with
    | error e =>
      simp only [Draft.after, hr]
      trivial
    | ok r =>
      simp only [Draft.after, hr]
      obtain ⟨hlo, hhi⟩ : lo ≤ addr ∧ addr + len ≤ hi := hact
      obtain ⟨hbase, hsize, -⟩ := Region.ofRange?_eq_ok hr
      have hdown := a.alignDown_le len
      exact ⟨by omega, by omega⟩
  | request q =>
    cases d with
    | blank => cases q <;> trivial
    | planned r p => cases q <;> exact hd
  | store addr skip bytes => exact hd
  | elsewhere addr bytes => exact hd

namespace World

/-! ## 2. Writes -/

/-- What the heap owns lies in the range. -/
theorem Matches.between_of_owns {x : Nat} (h : Matches s d w) (hd : d.Inside lo hi)
    (hx : w.Owns x) : Between lo hi x := by
  obtain ⟨r, hr, hlo, hhi⟩ := hx
  obtain ⟨p, rfl⟩ := h.exists_plan hr
  exact ⟨Nat.le_trans hd.1 hlo, Nat.lt_of_lt_of_le hhi hd.2⟩

/-- The usable bytes of an allocation lie in the region. -/
theorem Matches.owns_of_grants {u x : Nat} (h : Matches s d w) (hu : w.Grants addr u)
    (hlo : addr ≤ x) (hhi : x < addr + u) : w.Owns x := by
  obtain ⟨usable?, husable, hcell⟩ := h.usableSize addr
  rw [show w.heap.usableSize w.memory addr = .ok (some u) from hu] at husable
  cases husable
  obtain ⟨r, p, c, rfl, hc, rfl, rfl⟩ := hcell u rfl
  have hs : w.heap.Shows r s w.memory p := h
  refine ⟨r, hs.region_eq, ?_⟩
  have hbounds := hs.laid.bounds (mem_inUse.mp hc).1
  have hmin := hbounds.min_le
  have hend := hbounds.next_le
  have hbytes := s.bytes_le_minBlock (a := a)
  unfold Cell.payload at hlo hhi
  unfold Cell.next at hend
  exact ⟨by omega, by omega⟩

/-- **Nothing outside of the range is written.** -/
theorem Matches.perform_inside (h : Matches s d w) (hd : d.Inside lo hi) (hact : act.Within lo hi)
    (hstep : w.perform act = .ok (w1, answer)) : AgreeOutside (Between lo hi) w.memory w1.memory := by
  cases act with
  | init addr len =>
    obtain ⟨w2, answer2, hstep2, hw2, -⟩ := h.perform (.init addr len)
    rw [hstep] at hstep2
    cases hstep2
    exact (h.init_inside hstep).mono fun x hx => hw2.between_of_owns (hd.after hact) hx
  | request q =>
    obtain ⟨-, -, hm⟩ := h.of_serve hstep
    exact hm.mono fun x hx => h.between_of_owns hd (h.writes_owned hx)
  | store addr skip bytes =>
    obtain ⟨usable?, husable, -⟩ := h.usableSize addr
    rw [World.perform_store husable] at hstep
    split at hstep
    · rename_i hfit
      obtain ⟨u, rfl, hle⟩ := hfit
      cases hstep
      refine (Memory.agreeOutside_writeBytes w.memory _ bytes).mono fun x hx => ?_
      refine h.between_of_owns hd (h.owns_of_grants husable ?_ ?_)
      · exact Nat.le_trans (Nat.le_add_right _ _) hx.1
      · have hend := hx.2
        omega
    · cases hstep
      exact .refl _ _
  | elsewhere addr bytes =>
    obtain ⟨hlo, hhi⟩ : lo ≤ addr ∧ addr + bytes.length ≤ hi := hact
    simp only [World.perform] at hstep
    split at hstep
    · cases hstep
      refine (Memory.agreeOutside_writeBytes w.memory addr bytes).mono fun x hx => ?_
      exact ⟨Nat.le_trans hlo hx.1, Nat.lt_of_lt_of_le hx.2 hhi⟩
    · cases hstep
      exact .refl _ _

/-- What happens outside of the range is of no concern to the heap. -/
theorem Matches.congr_inside (h : Matches s d w) (hd : d.Inside lo hi)
    (hm : ∀ x, Between lo hi x → m.get x = w.memory.get x) : Matches s d ⟨w.heap, m⟩ := by
  cases d with
  | blank => exact h
  | planned r p =>
    refine Heap.Shows.congr_of_client (s := s) h fun x hx => hm x ?_
    obtain ⟨hlo, hhi⟩ := not_not.mp (not_or.mp hx).1
    exact ⟨Nat.le_trans hd.1 hlo, Nat.lt_of_lt_of_le hhi hd.2⟩

/-! ## 3. Two worlds -/

/-- The worlds match the same draft, with a region in the range, and hold the same bytes in it. -/
structure Twin (s : Strategy) (lo hi : Nat) (d : Draft a) (w w' : World a) : Prop where
  /-- The first world matches the draft. -/
  left : Matches s d w
  /-- So does the second one. -/
  right : Matches s d w'
  /-- The region lies in the range. -/
  inside : d.Inside lo hi
  /-- The bytes in the range are the same. -/
  bytes_eq : ∀ x, Between lo hi x → w'.memory.get x = w.memory.get x

/-- The same answer, the same heap, and the same bytes in the region. -/
def SameStep (r : Region a) (step step' : World a × Answer a) : Prop :=
  step'.1.heap = step.1.heap ∧ step'.2 = step.2 ∧ r.Alike step.1.memory step'.1.memory

/-- The same outcome is told in the same way. -/
theorem together_of_outcome {V : Type} {x y : Except Fault (Outcome a (Heap a) V)}
    (tell : V → Answer a) (h : Together (SameOutcome r) x y) :
    Together (SameStep r) (x.map fun o => (⟨o.heap, o.memory⟩, tell o.value))
      (y.map fun o => (⟨o.heap, o.memory⟩, tell o.value)) := by
  cases h with
  | ok ho => exact .ok ⟨ho.1, congrArg tell ho.2.1, ho.2.2.2⟩
  | fault e => exact .fault e

/-- **A request is served by what lies in the region.** -/
theorem serve_together {heap : Heap a} (hs : heap.Shows r s m p) (hs' : heap.Shows r s m' p)
    (hm : r.Alike m m') (q : Request) :
    Together (SameStep r) (serve ⟨heap, m⟩ q) (serve ⟨heap, m'⟩ q) := by
  have hr := hs.region_eq
  cases q with
  | allocate n => exact together_of_outcome .address (Heap.allocate_together hr hm n)
  | release addr => exact together_of_outcome (fun _ => .done) (Heap.release_together hr hm addr)
  | resize addr? n => exact together_of_outcome .address (Heap.resize_together hr hm addr? n)
  | usableSize addr =>
    rw [serve_usableSize (hs.usableSize addr), serve_usableSize (hs'.usableSize addr)]
    exact .ok ⟨rfl, rfl, hm⟩
  | validate =>
    rw [serve_validate hs.validate, serve_validate hs'.validate]
    exact .ok ⟨rfl, rfl, hm⟩
  | dump room =>
    obtain ⟨text, htext⟩ := hs.dump room
    have htext' : heap.dump m' room = .ok text := by
      rw [← htext]
      cases hs with
      | scan hs => exact hm.dump_eq hs.region_eq room
      | list hs =>
        cases hs' with
        | list hs' => exact hs.dump_congr hs' room
    rw [serve_dump htext, serve_dump htext']
    exact .ok ⟨rfl, rfl, hm⟩

namespace Twin

/-- The heaps are the same. -/
theorem heap_eq (h : Twin s lo hi d w w') : w'.heap = w.heap := h.left.heap_congr h.right

/-- What changes in the same way inside of a set and nowhere else leaves the range the same. -/
theorem bytes_of_agree {S : Nat → Prop} {m1 m1' : Memory} (h : Twin s lo hi d w w')
    (hm : AgreeOutside S w.memory m1) (hm' : AgreeOutside S w'.memory m1')
    (hS : ∀ x, S x → m1'.get x = m1.get x) (x : Nat) (hx : Between lo hi x) :
    m1'.get x = m1.get x := by
  by_cases hxS : S x
  · exact hS x hxS
  · rw [hm x hxS, hm' x hxS, h.bytes_eq x hx]

/-- Two worlds in which the client writes the same stay the same in the range. -/
theorem write (h : Twin s lo hi d w w') (addr : Nat) (bytes : List UInt8) (x : Nat)
    (hx : Between lo hi x) :
    (w'.write addr bytes).memory.get x = (w.write addr bytes).memory.get x := by
  unfold World.write
  simp only [Memory.get_writeBytes, h.bytes_eq x hx]

/-- A request leads two worlds to the same answer and the same bytes. -/
theorem serve (h : Twin s lo hi d w w') (q : Request) :
    ∃ w1 w1' answer, w.serve q = .ok (w1, answer) ∧ w'.serve q = .ok (w1', answer) ∧
      ∀ x, Between lo hi x → w1'.memory.get x = w1.memory.get x := by
  obtain ⟨w1, answer, hserve, -, -, hm⟩ := h.left.serve q
  cases d with
  | blank =>
    obtain ⟨answer', -, hblank⟩ := serve_blank (a := a) s q
    exact ⟨w, w', answer', hblank w h.left, hblank w' h.right, h.bytes_eq⟩
  | planned r p =>
    obtain ⟨heap, m⟩ := w
    obtain ⟨heap', m'⟩ := w'
    obtain rfl : heap' = heap := h.heap_eq
    have halike : r.Alike m m' := fun x hx =>
      h.bytes_eq x ⟨Nat.le_trans h.inside.1 hx.1, Nat.lt_of_lt_of_le hx.2 h.inside.2⟩
    have htogether := serve_together (s := s) h.left h.right halike q
    obtain ⟨step', hserve', -, hanswer, hm1⟩ := htogether.exists_ok hserve
    obtain ⟨w1', answer'⟩ := step'
    obtain rfl : answer' = answer := hanswer
    obtain ⟨-, -, hm'⟩ := h.right.of_serve hserve'
    refine ⟨w1, w1', answer', hserve, hserve', ?_⟩
    exact h.bytes_of_agree (hm.mono fun x hx => hx.1) (hm'.mono fun x hx => hx.1) hm1

/-- A new region is the same in both worlds. -/
theorem init (h : Twin s lo hi d w w') (addr len : Nat) :
    ∃ w1 w1' answer, w.perform (.init addr len) = .ok (w1, answer) ∧
      w'.perform (.init addr len) = .ok (w1', answer) ∧
      ∀ x, Between lo hi x → w1'.memory.get x = w1.memory.get x := by
  obtain ⟨heap, m⟩ := w
  obtain ⟨heap', m'⟩ := w'
  obtain rfl : heap' = heap := h.heap_eq
  have hstrategy : heap'.strategy = s := h.left.strategy_eq
  cases hr : Region.ofRange? a (s.minBlock a) addr len with
  | error e =>
    rw [← hstrategy] at hr
    have hinit : perform ⟨heap', m⟩ (.init addr len) = _ := perform_init (heap'.init_error m hr)
    have hinit' : perform ⟨heap', m'⟩ (.init addr len) = _ := perform_init (heap'.init_error m' hr)
    exact ⟨_, _, _, hinit, hinit', h.bytes_eq⟩
  | ok r =>
    rw [← hstrategy] at hr
    obtain ⟨o, ho, -, -, hm⟩ := heap'.init_ok m hr
    obtain ⟨o1, ho1, -, -, hm1⟩ := heap'.init_ok m' hr
    obtain ⟨o', ho', -, hvalue, -, halike⟩ := (heap'.init_together m m' hr).exists_ok ho
    rw [ho1] at ho'
    cases ho'
    have hinit : perform ⟨heap', m⟩ (.init addr len) = _ := perform_init ho
    have hinit' : perform ⟨heap', m'⟩ (.init addr len) = _ := perform_init ho1
    rw [hvalue] at hinit'
    exact ⟨_, _, _, hinit, hinit', h.bytes_of_agree hm hm1 halike⟩

/-- **Two worlds with the same range go on in the same way**, as long as the client keeps to it. -/
theorem perform (h : Twin s lo hi d w w') (hact : act.Within lo hi) :
    ∃ w1 w1' answer, w.perform act = .ok (w1, answer) ∧ w'.perform act = .ok (w1', answer) ∧
      Twin s lo hi (d.after s act) w1 w1' := by
  suffices hsame : ∃ w1 w1' answer, w.perform act = .ok (w1, answer) ∧
      w'.perform act = .ok (w1', answer) ∧
      ∀ x, Between lo hi x → w1'.memory.get x = w1.memory.get x by
    obtain ⟨w1, w1', answer, hstep, hstep', hbytes⟩ := hsame
    obtain ⟨w2, answer2, hstep2, hw2, -⟩ := h.left.perform act
    obtain ⟨w2', answer2', hstep2', hw2', -⟩ := h.right.perform act
    rw [hstep] at hstep2
    rw [hstep'] at hstep2'
    cases hstep2
    cases hstep2'
    exact ⟨w1, w1', answer, hstep, hstep', hw2, hw2', h.inside.after hact, hbytes⟩
  cases act with
  | init addr len => exact h.init addr len
  | request q => exact h.serve q
  | store addr skip bytes =>
    have hsame := h.left.usableSize_congr h.right addr
    obtain ⟨usable?, husable, -⟩ := h.left.usableSize addr
    rw [perform_store husable, perform_store (hsame.trans husable)]
    split
    · exact ⟨_, _, .done, rfl, rfl, h.write (addr + skip) bytes⟩
    · exact ⟨w, w', .refused, rfl, rfl, h.bytes_eq⟩
  | elsewhere addr bytes =>
    have houtside : w'.Outside addr bytes.length ↔ w.Outside addr bytes.length := by
      unfold Outside
      rw [h.heap_eq]
    simp only [World.perform, houtside]
    split
    · exact ⟨_, _, .done, rfl, rfl, h.write addr bytes⟩
    · exact ⟨w, w', .refused, rfl, rfl, h.bytes_eq⟩

end Twin

/-! ## 4. Addresses from elsewhere -/

/-- The address names nothing live: nothing can be used there, a release is ignored, and so is a change
    of size, which answers no address. -/
structure Rejects (w : World a) (addr : Nat) : Prop where
  /-- No bytes can be used. -/
  usable : w.heap.usableSize w.memory addr = .ok none
  /-- A release is done without effect. -/
  release : w.serve (.release addr) = .ok (w, .done)
  /-- A change of size has no effect and answers no address. -/
  resize : ∀ n, w.serve (.resize (some addr) n) = .ok (w, .address none)

/-- An address is rejected if the operations come to nothing: what answers no address leaves everything
    as it was. -/
theorem rejects_of_dead (husable : w.heap.usableSize w.memory addr = .ok none)
    (hrelease : ∃ log, w.heap.release w.memory addr = .ok ⟨w.heap, w.memory, (), log⟩)
    (hresize : ∀ n, n ≠ 0 → ∃ o, w.heap.resize w.memory (some addr) n = .ok o ∧ o.value = none) :
    w.Rejects addr := by
  obtain ⟨log, hrelease⟩ := hrelease
  constructor
  case usable => exact husable
  case release => exact serve_release hrelease
  case resize =>
    intro n
    by_cases hn : n = 0
    · subst hn
      simp only [World.serve, Heap.resize_zero, hrelease]
      rfl
    · obtain ⟨⟨heap', m', value, log'⟩, ho, rfl⟩ := hresize n hn
      obtain ⟨rfl, rfl⟩ := w.heap.resize_allOrNothing w.memory (.inl hn) _ ho rfl
      exact serve_resize ho

/-- A cell in use has its payload in the region, and not at its end. -/
theorem owns_payload {c : Cell} (hs : w.heap.Shows r s w.memory p) (hc : c ∈ inUse p.cells) :
    w.Owns (c.payload r) := by
  have hbounds := hs.laid.bounds (mem_inUse.mp hc).1
  have hmin := hbounds.min_le
  have hend := hbounds.next_le
  have hpayload := s.bytes_le_minPayload a
  have hpos := a.bytes_pos
  unfold Strategy.minBlock at hmin
  unfold Cell.next at hend
  refine ⟨r, hs.region_eq, ?_⟩
  unfold Cell.payload
  exact ⟨by omega, by omega⟩

/-- **An address outside of the region names nothing live.** -/
theorem Matches.rejects (h : Matches s d w) (hx : ¬ w.Owns addr) : w.Rejects addr := by
  cases d with
  | blank =>
    obtain ⟨heap, m⟩ := w
    obtain rfl : heap = .empty s := h
    refine rejects_of_dead ?_ ⟨[], ?_⟩ fun n hn => ⟨_, Heap.resize_empty s m addr hn, rfl⟩
    · cases s <;> rfl
    · cases s <;> rfl
  | planned r p =>
    have hs : w.heap.Shows r s w.memory p := h
    have hdead : p.live? r addr = none := by
      cases hf : p.live? r addr with
      | none => rfl
      | some f =>
        obtain ⟨hmem, rfl⟩ := Plan.live?_mem hf
        exact absurd (owns_payload hs hmem) hx
    refine rejects_of_dead ?_ (hs.release_dead hdead) fun n hn => ?_
    · rw [hs.usableSize, Plan.usable, hdead]
      rfl
    · obtain ⟨o, hresize, hvalue, -⟩ := hs.resize (some addr) n
      refine ⟨o, hresize, ?_⟩
      rw [hvalue, Plan.resize, if_neg hn, hdead]

end World

end RegionHeap
