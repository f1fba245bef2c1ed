import RegionHeap.Proofs.Client.Run

/-!
# What a client is told is determined by the draft

Two heaps may hold the same draft over memories that differ: in the payloads, in what is left of old
headers and links, and outside of the regions. Their clients cannot tell them apart, unless they look
at the payloads that the snapshot of a scanning heap shows.

* `Snapshot.cellLinks_congr` -- a snapshot of a listing heap shows nothing but the draft;
* `World.Matches.heap_congr`, `Matches.dump_congr` -- the heaps are the same, and so are the snapshots
  of listing heaps;
* `World.Matches.serve_congr`, `Matches.perform_congr` -- the same answer to a request and to an action;
* `Matches.run_congr` -- the same trace for any number of actions, with a listing heap.
-/

namespace RegionHeap

variable {a : Alignment} {r : Region a} {m m' : Memory} {p : Plan}

/-! ## 1. Snapshots -/

theorem Snapshot.cellLinks_congr {f g : Nat → Links} {index : Nat} {cs : List Cell}
    (h : ∀ c ∈ cs, c.used = false → g c.offset = f c.offset) :
    cellLinks r g index cs = cellLinks r f index cs := by
  induction cs generalizing index with
  | nil => rfl
  | cons c cs ih =>
    have hrest := @ih (index + 1) fun d hd => h d (List.mem_cons_of_mem c hd)
    rw [cellLinks, cellLinks, hrest]
    cases hc : c.used with
    | true => rfl
    | false => rw [h c List.mem_cons_self hc]

/-- **A snapshot of a listing heap shows the plan and nothing else.** -/
theorem ListHeap.Shows.dump_congr {h h' : ListHeap a} (hs : ListHeap.Shows r h m p)
    (hs' : ListHeap.Shows r h' m' p) (room : Option Nat) :
    (Heap.list h').dump m' room = (Heap.list h).dump m room := by
  have hhead : h'.head = h.head := hs'.drawn.head_eq.trans hs.drawn.head_eq.symm
  have hlinks : ∀ c ∈ p.cells, c.used = false → r.linksAt m' c.offset = r.linksAt m c.offset := by
    intro c hc hfree
    obtain ⟨pre, post, horder, hlinks⟩ := hs.linksAt_eq hc hfree
    have hlinked := hs'.drawn.linked
    rw [horder] at hlinked
    rw [hlinks]
    exact hlinked.links_eq
  unfold Heap.dump
  rw [hs.snapshot_eq, hs'.snapshot_eq, hhead, Snapshot.cellLinks_congr hlinks]

/-! ## 2. Heaps -/

/-- Heaps that hold the same plan are the same. -/
theorem Heap.Shows.heap_congr {s : Strategy} {h h' : Heap a} (hs : Shows r s h m p)
    (hs' : Shows r s h' m' p) : h' = h := by
  cases hs with
  | scan hs =>
    cases hs' with
    | scan hs' => exact congrArg (fun r? => Heap.scan ⟨r?⟩) (hs'.region_eq.trans hs.region_eq.symm)
  | list hs =>
    cases hs' with
    | list hs' =>
      have hregion := hs'.region_eq.trans hs.region_eq.symm
      have hhead := hs'.drawn.head_eq.trans hs.drawn.head_eq.symm
      exact congrArg₂ (fun r? head => Heap.list ⟨r?, head⟩) hregion hhead

namespace World

variable {s : Strategy} {w w' : World a} {d : Draft a}

/-- Worlds that match the same draft have the same heap. -/
theorem Matches.heap_congr (h : Matches s d w) (h' : Matches s d w') : w'.heap = w.heap := by
  cases d with
  | blank => exact (show w'.heap = .empty s from h').trans (show w.heap = .empty s from h).symm
  | planned r p => exact Heap.Shows.heap_congr (s := s) h h'

/-- Listing heaps that hold the same draft have the same snapshot. -/
theorem Matches.dump_congr (h : Matches .list d w) (h' : Matches .list d w') (room : Option Nat) :
    ∃ text, w.heap.dump w.memory room = .ok text ∧ w'.heap.dump w'.memory room = .ok text := by
  cases d with
  | blank =>
    obtain ⟨text, htext⟩ := Heap.dump_empty (a := a) .list room
    rw [show w.heap = .empty .list from h, show w'.heap = .empty .list from h']
    exact ⟨text, htext _, htext _⟩
  | planned r p =>
    have hs : w.heap.Shows r .list w.memory p := h
    have hs' : w'.heap.Shows r .list w'.memory p := h'
    obtain ⟨text, htext⟩ := hs.dump room
    refine ⟨text, htext, ?_⟩
    rw [← htext]
    obtain ⟨heap, m⟩ := w
    obtain ⟨heap', m'⟩ := w'
    cases hs with
    | list hs =>
      cases hs' with
      | list hs' => exact hs.dump_congr hs' room

/-! ## 3. Requests and actions -/

/-- **Heaps that hold the same draft serve a request with the same answer**, unless it is a snapshot
    with payloads in it. -/
theorem Matches.serve_congr (h : Matches s d w) (h' : Matches s d w') (q : Request)
    (hq : s = .list ∨ ∀ room, q ≠ .dump room) :
    ∃ w1 w1' answer, w.serve q = .ok (w1, answer) ∧ w'.serve q = .ok (w1', answer) := by
  cases d with
  | blank =>
    obtain ⟨answer, -, hserve⟩ := serve_blank (a := a) s q
    exact ⟨w, w', answer, hserve w h, hserve w' h'⟩
  | planned r p =>
    have hs : w.heap.Shows r s w.memory p := h
    have hs' : w'.heap.Shows r s w'.memory p := h'
    cases q with
    | allocate n =>
      obtain ⟨o, hstep, hvalue, -⟩ := hs.allocate n
      obtain ⟨o', hstep', hvalue', -⟩ := hs'.allocate n
      have hsame : o'.value = o.value := hvalue'.trans hvalue.symm
      exact ⟨_, _, _, serve_allocate hstep, hsame ▸ serve_allocate hstep'⟩
    | release addr =>
      obtain ⟨o, hstep, -⟩ := hs.release addr
      obtain ⟨o', hstep', -⟩ := hs'.release addr
      exact ⟨_, _, _, serve_release hstep, serve_release hstep'⟩
    | resize addr? n =>
      obtain ⟨o, hstep, hvalue, -⟩ := hs.resize addr? n
      obtain ⟨o', hstep', hvalue', -⟩ := hs'.resize addr? n
      have hsame : o'.value = o.value := hvalue'.trans hvalue.symm
      exact ⟨_, _, _, serve_resize hstep, hsame ▸ serve_resize hstep'⟩
    | usableSize addr =>
      exact ⟨w, w', _, serve_usableSize (hs.usableSize addr), serve_usableSize (hs'.usableSize addr)⟩
    | validate => exact ⟨w, w', _, serve_validate hs.validate, serve_validate hs'.validate⟩
    | dump room =>
      obtain rfl : s = .list := hq.resolve_right fun hne => hne room rfl
      obtain ⟨text, htext, htext'⟩ := h.dump_congr h' room
      exact ⟨w, w', _, serve_dump htext, serve_dump htext'⟩

/-- Heaps that hold the same draft give the same number of usable bytes. -/
theorem Matches.usableSize_congr (h : Matches s d w) (h' : Matches s d w')
    (addr : Nat) : w'.heap.usableSize w'.memory addr = w.heap.usableSize w.memory addr := by
  cases d with
  | blank =>
    rw [show w.heap = .empty s from h, show w'.heap = .empty s from h']
    cases s <;> rfl
  | planned r p =>
    exact (Heap.Shows.usableSize (s := s) h' addr).trans (Heap.Shows.usableSize (s := s) h addr).symm

/-- **Heaps that hold the same draft answer every action alike**, and hold the same draft again. -/
theorem Matches.perform_congr (h : Matches s d w) (h' : Matches s d w') (act : Action)
    (hact : s = .list ∨ ∀ room, act ≠ .request (.dump room)) :
    ∃ w1 w1' answer, w.perform act = .ok (w1, answer) ∧ w'.perform act = .ok (w1', answer) ∧
      Matches s (d.after s act) w1 ∧ Matches s (d.after s act) w1' := by
  obtain ⟨w1, answer, hperform, hw1, -⟩ := h.perform act
  obtain ⟨w1', answer', hperform', hw1', -⟩ := h'.perform act
  suffices hanswer : answer' = answer by
    subst hanswer
    exact ⟨w1, w1', answer', hperform, hperform', hw1, hw1'⟩
  cases act with
  | init addr len =>
    cases hr : Region.ofRange? a (s.minBlock a) addr len with
    | ok r =>
      obtain ⟨w2, hinit, -⟩ := h.perform_init hr
      obtain ⟨w2', hinit', -⟩ := h'.perform_init hr
      rw [hperform] at hinit
      rw [hperform'] at hinit'
      cases hinit
      cases hinit'
      rfl
    | error e =>
      have hinit := w.heap.init_error w.memory (h.strategy_eq.symm ▸ hr)
      have hinit' := w'.heap.init_error w'.memory (h'.strategy_eq.symm ▸ hr)
      rw [World.perform_init hinit] at hperform
      rw [World.perform_init hinit'] at hperform'
      cases hperform
      cases hperform'
      rfl
  | request q =>
    obtain ⟨w2, w2', answer2, hserve, hserve'⟩ :=
      h.serve_congr h' q (hact.imp_right fun hne room e => hne room (congrArg _ e))
    have h1 := hserve.symm.trans hperform
    have h2 := hserve'.symm.trans hperform'
    cases h1
    cases h2
    rfl
  | store addr skip bytes =>
    obtain ⟨usable?, husable, -⟩ := h.usableSize addr
    have husable' := (h.usableSize_congr h' addr).trans husable
    rw [World.perform_store husable] at hperform
    rw [World.perform_store husable'] at hperform'
    split at hperform
    · rename_i hfit
      rw [if_pos hfit] at hperform'
      cases hperform
      cases hperform'
      rfl
    · rename_i hfit
      rw [if_neg hfit] at hperform'
      cases hperform
      cases hperform'
      rfl
  | elsewhere addr bytes =>
    have houtside : w'.Outside addr bytes.length ↔ w.Outside addr bytes.length := by
      unfold Outside
      rw [h.heap_congr h']
    simp only [World.perform, houtside] at hperform'
    simp only [World.perform] at hperform
    split at hperform
    · rename_i hout
      rw [if_pos hout] at hperform'
      cases hperform
      cases hperform'
      rfl
    · rename_i hout
      rw [if_neg hout] at hperform'
      cases hperform
      cases hperform'
      rfl

/-! ## 4. Runs -/

/-- **Listing heaps that hold the same draft cannot be told apart**: every run has the same trace. -/
theorem Matches.run_congr (h : Matches .list d w) (h' : Matches .list d w') (acts : List Action) :
    ∃ w1 w1' trace, w.run acts = .ok (w1, trace) ∧ w'.run acts = .ok (w1', trace) := by
  induction acts generalizing w w' d with
  | nil => exact ⟨w, w', [], rfl, rfl⟩
  | cons act acts ih =>
    obtain ⟨w1, w1', answer, hstep, hstep', hw1, hw1'⟩ := h.perform_congr h' act (.inl rfl)
    obtain ⟨w2, w2', trace, hrun, hrun'⟩ := ih hw1 hw1'
    exact ⟨w2, w2', (act, answer) :: trace, run_cons hstep hrun, run_cons hstep' hrun'⟩

end World

end RegionHeap
