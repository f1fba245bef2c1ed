import RegionHeap.Proofs.Client.Run

/-!
# Payloads are preserved

The heap writes headers and links, and a relocation copies bytes; none of it touches an allocation
that the request is not about. The one that is resized keeps its first bytes.

* `World.Matches.readBytes_eq` -- the usable bytes of all other allocations stay as they are;
* `World.Matches.resize_readBytes_eq` -- a change of size carries the payload along;
* `World.preserves` -- both, in every state that a run leads to.
-/

namespace RegionHeap

/-- Bytes that are carried along are read at their new place. -/
theorem Memory.Carries.readBytes_eq {m m' : Memory} {src dst n : Nat} (h : Carries m m' src dst n) :
    m'.readBytes dst n = m.readBytes src n := by
  apply List.ext_getElem
  · rw [length_readBytes, length_readBytes]
  · intro i hi _
    rw [length_readBytes] at hi
    simpa [Memory.readBytes] using h i hi

variable {a : Alignment} {s : Strategy} {w w' : World a} {d : Draft a} {q : Request}
  {answer : Answer a} {addr n usable new : Nat}

namespace World

/-- The number of usable bytes is that of a cell in use. -/
theorem Matches.exists_live? (h : Matches s d w)
    (husable : w.heap.usableSize w.memory addr = .ok (some usable)) :
    ∃ r p f, d = .planned r p ∧ w.heap.Shows r s w.memory p ∧ p.live? r addr = some f ∧
      usable = f.cell.size - a.bytes := by
  cases d with
  | blank =>
    rw [show w.heap = .empty s from h] at husable
    cases s <;> cases husable
  | planned r p =>
    have hs : w.heap.Shows r s w.memory p := h
    rw [hs.usableSize] at husable
    obtain ⟨f, hf, rfl⟩ := Option.map_eq_some_iff.mp (Except.ok.inj husable)
    exact ⟨r, p, f, rfl, hs, hf, rfl⟩

/-- **A request leaves the payloads alone** that it is not about. -/
theorem Matches.readBytes_eq (h : Matches s d w) (hserve : w.serve q = .ok (w', answer))
    (hsubject : q.subject? ≠ some addr)
    (husable : w.heap.usableSize w.memory addr = .ok (some usable)) :
    w'.memory.readBytes addr usable = w.memory.readBytes addr usable := by
  obtain ⟨r, p, f, rfl, hs, hf, rfl⟩ := h.exists_live? husable
  obtain ⟨-, -, hm⟩ := h.of_serve hserve
  obtain ⟨hmem, rfl⟩ := Plan.live?_mem hf
  have hother : f.cell ∈ p.others r q.subject? := Plan.mem_others.mpr ⟨hmem, hsubject⟩
  have hmin := (hs.laid.bounds (mem_inUse.mp hmem).1).min_le
  have hbytes := s.bytes_le_minBlock (a := a)
  refine hm.readBytes fun x h1 h2 hx => hx.2 f.cell hother ?_
  unfold Cell.payload at h1 h2
  unfold Cell.Covers Cell.next
  omega

/-- **A change of size carries the payload along**, up to the smaller of the two sizes. -/
theorem Matches.resize_readBytes_eq (h : Matches s d w)
    (hserve : w.serve (.resize (some addr) n) = .ok (w', answer)) (hn : n ≠ 0)
    (husable : w.heap.usableSize w.memory addr = .ok (some usable))
    (hnew : answer.address? = some new) :
    w'.memory.readBytes new (min usable n) = w.memory.readBytes addr (min usable n) := by
  obtain ⟨r, p, f, rfl, hs, hf, rfl⟩ := h.exists_live? husable
  obtain ⟨o, hstep, hvalue, -, -, hcarries⟩ := hs.resize_live hf hn
  rw [serve_resize hstep] at hserve
  cases hserve
  exact (hcarries new (hvalue.symm.trans hnew)).readBytes_eq

/-- **Payloads are preserved in every state that a run leads to**, for both strategies and whatever
    the heap is asked for: a request leaves all usable bytes of the live allocations that it is not
    about as they are, and a change of size that answers an address leads to the bytes of the old
    allocation there, up to the smaller of the two sizes. -/
theorem preserves (s : Strategy) (m : Memory) (acts : List Action) :
    ∃ (w : World a) (trace : List (Action × Answer a)), (fresh s m).run acts = .ok (w, trace) ∧
      ∀ q, ∃ w' answer, w.serve q = .ok (w', answer) ∧
        (∀ addr usable, q.subject? ≠ some addr →
          w.heap.usableSize w.memory addr = .ok (some usable) →
          w'.memory.readBytes addr usable = w.memory.readBytes addr usable) ∧
        ∀ addr n usable new, q = .resize (some addr) n → n ≠ 0 →
          w.heap.usableSize w.memory addr = .ok (some usable) → answer = .address (some new) →
          w'.memory.readBytes new (min usable n) = w.memory.readBytes addr (min usable n) := by
  obtain ⟨w, trace, hrun, hw, -⟩ := (matches_fresh (a := a) s m).run acts
  refine ⟨w, trace, hrun, fun q => ?_⟩
  obtain ⟨w', answer, hserve, -, -, -⟩ := hw.serve q
  refine ⟨w', answer, hserve, fun addr usable hsubject husable => ?_, ?_⟩
  · exact hw.readBytes_eq hserve hsubject husable
  · intro addr n usable new hq hn husable hanswer
    subst hq hanswer
    exact hw.resize_readBytes_eq hserve hn husable rfl

end World

end RegionHeap
