import RegionHeap.Proofs.Client.Exclusivity

/-!
# Refused requests

A heap can refuse: there is no room for a request, its size is more than a word can say, or the address
that comes with it names nothing live. The client may then go on as if it had not asked.

* `AllOrNothing` -- a step that answers no address leaves heap and memory as they were; the operations
  of both heaps are such steps, on any memory;
* `Request.Refused` -- what a client with a ledger takes for a refusal;
* `World.Matches.of_refused` -- a refused request changes nothing;
* `World.refused_changes_nothing` -- so it is after every run.
-/

namespace RegionHeap

/-- If the step answers no address, it leaves heap and memory as they were. -/
def AllOrNothing {a : Alignment} {H : Type} (h : H) (m : Memory)
    (step : Except Fault (Outcome a H (Option Nat))) : Prop :=
  ∀ o, step = .ok o → o.value = none → o.heap = h ∧ o.memory = m

namespace AllOrNothing

variable {a : Alignment} {H H' α : Type} {h h' : H} {m m' : Memory} {log : List (Event a)} {v : Nat}
  {step : Except Fault (Outcome a H (Option Nat))}

/-! ## 1. Steps of a heap -/

theorem of_none : AllOrNothing h m (.ok ⟨h, m, none, log⟩) := by
  intro o ho _
  cases ho
  exact ⟨rfl, rfl⟩

theorem of_some : AllOrNothing h m (.ok ⟨h', m', some v, log⟩) := by
  intro o ho hv
  cases ho
  cases hv

/-- What was read or computed before does not count, as long as it is not part of the outcome. -/
theorem bind {x : Except Fault α} {f : α → Except Fault (Outcome a H (Option Nat))}
    (hf : ∀ y, AllOrNothing h m (f y)) : AllOrNothing h m (x >>= f) := by
  cases x with
  | error e =>
    intro o ho
    cases ho
  | ok y => exact hf y

theorem lift {wrap : H → H'} (hs : AllOrNothing h m step) :
    AllOrNothing (wrap h) m (step.map (Outcome.lift wrap)) := by
  intro o ho hv
  cases step with
  | error e => cases ho
  | ok o' =>
    cases ho
    obtain ⟨hheap, hmemory⟩ := hs o' rfl hv
    exact ⟨congrArg wrap hheap, hmemory⟩

end AllOrNothing

variable {a : Alignment} {s : Strategy} {r : Region a} {p : Plan} {addr n : Nat} {addr? : Option Nat}

namespace ScanHeap

theorem allocate_allOrNothing (h : ScanHeap a) (m : Memory) (n : Nat) :
    AllOrNothing h m (h.allocate m n) := by
  unfold ScanHeap.allocate
  split
  · split
    · refine .bind fun carved? => ?_
      split
      · exact .bind fun addr => .of_some
      · exact .of_none
    · exact .of_none
  · exact .of_none

theorem relocate_allOrNothing (h : ScanHeap a) (r : Region a) (m : Memory) (addr : Nat) (live : Live)
    (n need : Nat) : AllOrNothing h m (h.relocate r m addr live n need) := by
  unfold ScanHeap.relocate
  refine .bind fun carved? => ?_
  split
  · exact .bind fun new => .bind fun usable => .bind fun m' => .bind fun freed => .of_some
  · exact .of_none

theorem resize_allOrNothing (h : ScanHeap a) (m : Memory) (hn : n ≠ 0 ∨ addr? = none) :
    AllOrNothing h m (h.resize m addr? n) := by
  unfold ScanHeap.resize
  split
  · rw [if_neg (hn.resolve_right (Option.some_ne_none _))]
    split
    · refine .bind fun live? => ?_
      split
      · split
        · split
          · exact .bind fun m' => .of_some
          · exact h.relocate_allOrNothing _ _ _ _ _ _
        · exact .of_none
      · exact .of_none
    · exact .of_none
  · exact h.allocate_allOrNothing m n

end ScanHeap

namespace ListHeap

theorem allocate_allOrNothing (h : ListHeap a) (m : Memory) (n : Nat) :
    AllOrNothing h m (h.allocate m n) := by
  unfold ListHeap.allocate
  split
  · split
    · refine .bind fun carved? => ?_
      split
      · exact .bind fun addr => .of_some
      · exact .of_none
    · exact .of_none
  · exact .of_none

theorem relocate_allOrNothing (h : ListHeap a) (r : Region a) (m : Memory) (addr : Nat) (live : Live)
    (n need : Nat) : AllOrNothing h m (h.relocate r m addr live n need) := by
  unfold ListHeap.relocate
  refine .bind fun carved? => ?_
  split
  · exact .bind fun new => .bind fun usable => .bind fun m' => .bind fun freed => .of_some
  · exact .of_none

theorem resize_allOrNothing (h : ListHeap a) (m : Memory) (hn : n ≠ 0 ∨ addr? = none) :
    AllOrNothing h m (h.resize m addr? n) := by
  unfold ListHeap.resize
  split
  · rw [if_neg (hn.resolve_right (Option.some_ne_none _))]
    split
    · refine .bind fun live? => ?_
      split
      · split
        · split
          · exact .bind fun l' => .of_some
          · -- the attempt to grow has written nothing when it fails
            refine .bind fun grown? => ?_
            split
            · exact .of_some
            · exact h.relocate_allOrNothing _ _ _ _ _ _
        · exact .of_none
      · exact .of_none
    · exact .of_none
  · exact h.allocate_allOrNothing m n

end ListHeap

namespace Heap

/-- **An allocation that is refused leaves everything as it was**, on any memory. -/
theorem allocate_allOrNothing (h : Heap a) (m : Memory) (n : Nat) :
    AllOrNothing h m (h.allocate m n) := by
  cases h with
  | scan h => exact (h.allocate_allOrNothing m n).lift
  | list h => exact (h.allocate_allOrNothing m n).lift

/-- **A change of size that is refused leaves everything as it was**, on any memory. -/
theorem resize_allOrNothing (h : Heap a) (m : Memory) (hn : n ≠ 0 ∨ addr? = none) :
    AllOrNothing h m (h.resize m addr? n) := by
  cases h with
  | scan h => exact (h.resize_allOrNothing m hn).lift
  | list h => exact (h.resize_allOrNothing m hn).lift

/-- A change of size to no bytes is a release. -/
theorem resize_zero (h : Heap a) (m : Memory) (addr : Nat) :
    h.resize m (some addr) 0 = (h.release m addr).map fun o => ⟨o.heap, o.memory, none, o.log⟩ := by
  cases h with
  | scan h =>
    show ((h.release m addr).bind _).map _ = ((h.release m addr).map _).map _
    cases h.release m addr <;> rfl
  | list h =>
    show ((h.release m addr).bind _).map _ = ((h.release m addr).map _).map _
    cases h.release m addr <;> rfl

/-- An address that names nothing live is ignored. -/
theorem Shows.release_dead {h : Heap a} {m : Memory} (hs : h.Shows r s m p)
    (hf : p.live? r addr = none) : ∃ log, h.release m addr = .ok ⟨h, m, (), log⟩ := by
  cases hs with
  | scan hs =>
    refine ⟨[.releaseIgnored .scan addr], ?_⟩
    unfold Heap.release ScanHeap.release
    simp only [hs.region_eq, hs.live?_eq, hf, bind, Except.bind, Option.map_none]
    rfl
  | list hs =>
    refine ⟨[.releaseIgnored .list addr], ?_⟩
    unfold Heap.release ListHeap.release
    simp only [hs.region_eq, hs.live?_eq, hf, bind, Except.bind, Option.map_none]
    rfl

end Heap

/-! ## 2. Refusals -/

/-- The request has come to nothing: no address was answered, or there was nothing live to release
    according to the ledger. A query is never refused. -/
def Request.Refused (L : Ledger) : Request → (answered : Option Nat) → Prop
  | allocate _, answered => answered = none
  | resize none _, answered => answered = none
  | resize (some addr) 0, _ => L addr = none
  | resize (some _) (_ + 1), answered => answered = none
  | release addr, _ => L addr = none
  | _, _ => False

namespace Ledger

variable {L : Ledger} {answered : Option Nat}

/-- There is nothing to note down of a refused request. -/
theorem note_of_refused {q : Request} (hq : q.Refused L answered)
    (hzero : ∀ addr, q = .resize (some addr) 0 → answered = none) :
    L.note (.request q) answered = L := by
  cases q with
  | allocate n =>
    rw [show answered = none from hq]
    rfl
  | release addr => exact strike_of_dead hq
  | resize addr? n =>
    cases addr? with
    | none =>
      rw [show answered = none from hq, note_resize_none]
      exact ite_self _
    | some addr =>
      cases n with
      | zero =>
        rw [hzero addr rfl]
        exact strike_of_dead hq
      | succ n =>
        rw [show answered = none from hq]
        rfl
  | _ => exact hq.elim

/-- What is not live for the ledger is not live in the plan that it keeps to. -/
theorem Agrees.live?_eq_none (h : L.Agrees s (.planned r p)) (hL : L addr = none) :
    p.live? r addr = none := by
  cases hf : p.live? r addr with
  | none => rfl
  | some f =>
    obtain ⟨hmem, rfl⟩ := Plan.live?_mem hf
    exact absurd hL (h.2 f.cell hmem)

end Ledger

namespace World

variable {w w' : World a} {d : Draft a} {L : Ledger} {q : Request} {answer : Answer a}

/-- A release of what is not live changes nothing, whether it is asked for as such or not. -/
theorem Matches.release_dead (h : Matches s d w) (hL : L.Agrees s d) (hdead : L addr = none) :
    w.serve (.release addr) = .ok (w, .done) ∧
      w.serve (.resize (some addr) 0) = .ok (w, .address none) := by
  suffices hrelease : ∃ log, w.heap.release w.memory addr = .ok ⟨w.heap, w.memory, (), log⟩ by
    obtain ⟨log, hrelease⟩ := hrelease
    unfold World.serve
    simp only [Heap.resize_zero, hrelease]
    exact ⟨rfl, rfl⟩
  cases d with
  | blank =>
    refine ⟨[], ?_⟩
    rw [show w.heap = .empty s from h]
    cases s <;> rfl
  | planned r p => exact Heap.Shows.release_dead (s := s) h (hL.live?_eq_none hdead)

/-- An outcome without an address is the world as it was. -/
theorem eq_of_allOrNothing {step : Except Fault (Outcome a (Heap a) (Option Nat))}
    (hs : AllOrNothing w.heap w.memory step)
    (hserve : (step.map fun o => ((⟨o.heap, o.memory⟩ : World a), Answer.address o.value)) =
      .ok (w', answer)) (hnone : answer.address? = none) : w' = w := by
  cases step with
  | error e => cases hserve
  | ok o =>
    cases hserve
    obtain ⟨hheap, hmemory⟩ := hs o rfl hnone
    rw [hheap, hmemory]

/-- **A refused request changes nothing**: neither the heap, nor any byte, nor the ledger. -/
theorem Matches.of_refused (h : Matches s d w) (hL : L.Agrees s d)
    (hserve : w.serve q = .ok (w', answer)) (hq : q.Refused L answer.address?) :
    w' = w ∧ L.note (.request q) answer.address? = L := by
  have hzero : ∀ addr, q = .resize (some addr) 0 → w' = w ∧ answer.address? = none := by
    intro addr e
    subst e
    rw [(h.release_dead hL hq).2] at hserve
    cases hserve
    exact ⟨rfl, rfl⟩
  refine ⟨?_, Ledger.note_of_refused hq fun addr e => (hzero addr e).2⟩
  cases q with
  | allocate n => exact eq_of_allOrNothing (w.heap.allocate_allOrNothing w.memory n) hserve hq
  | release addr =>
    rw [(h.release_dead hL hq).1] at hserve
    cases hserve
    rfl
  | resize addr? n =>
    cases addr? with
    | none => exact eq_of_allOrNothing (w.heap.resize_allOrNothing w.memory (.inr rfl)) hserve hq
    | some addr =>
      cases n with
      | zero => exact (hzero addr rfl).1
      | succ n =>
        exact eq_of_allOrNothing
          (w.heap.resize_allOrNothing w.memory (.inl (Nat.succ_ne_zero n))) hserve hq
  | _ => exact hq.elim

/-- **A refused request changes nothing in any state that a run leads to**, for both strategies and
    whatever address comes with it: the heap and every byte of memory are as before, and so is what is
    live, with the same usable bytes. -/
theorem refused_changes_nothing (s : Strategy) (m : Memory) (acts : List Action) :
    ∃ (w : World a) (trace : List (Action × Answer a)), (fresh s m).run acts = .ok (w, trace) ∧
      ∀ q, ∃ w' answer, w.serve q = .ok (w', answer) ∧
        (q.Refused (Ledger.blank.after trace) answer.address? →
          w' = w ∧ w'.Honors (Ledger.blank.after trace) ∧
            (Ledger.blank.after trace).note (.request q) answer.address? =
              Ledger.blank.after trace) := by
  obtain ⟨w, trace, hrun, hw, hafter⟩ := (matches_fresh (a := a) s m).run acts
  have hL := hafter Ledger.blank Ledger.agrees_blank
  refine ⟨w, trace, hrun, fun q => ?_⟩
  obtain ⟨w', answer, hserve, -⟩ := hw.serve q
  refine ⟨w', answer, hserve, fun hq => ?_⟩
  obtain ⟨rfl, hnote⟩ := hw.of_refused hL hserve hq
  exact ⟨rfl, hw.honors hL, hnote⟩

end World

end RegionHeap
