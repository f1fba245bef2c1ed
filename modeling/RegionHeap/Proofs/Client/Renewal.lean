import RegionHeap.Proofs.Client.History
import RegionHeap.Proofs.Heap.Renewal
import RegionHeap.Proofs.Plan.Reuse

/-!
# A heap gets a new region

A client may hand a range of memory to a heap at any time. The range decides alone whether it is
accepted, and the heap starts anew or has no region any more: nothing is left of what it held before.

* `World.Idle`, `World.idle_of_empty` -- a heap without a region, and all that it does;
* `World.Matches.run_blank` -- it stays so until a range is accepted;
* `World.Anew`, `World.anew_of_shows` -- a heap that has just taken over a region;
* `World.init_decides` -- what becomes of a heap that is handed a range.
-/

namespace RegionHeap.World

variable {a : Alignment} {s : Strategy} {w : World a} {r : Region a} {m : Memory} {n : Nat}

/-! ## 1. Heaps without a region -/

/-- The heap has no region. It serves nothing, and whatever it is asked for changes nothing. -/
structure Idle (w : World a) : Prop where
  region : w.heap.region = none
  allocate : ∀ n, w.serve (.allocate n) = .ok (w, .address none)
  resize : ∀ addr? n, w.serve (.resize addr? n) = .ok (w, .address none)
  release : ∀ addr, w.serve (.release addr) = .ok (w, .done)
  usableSize : ∀ addr, w.serve (.usableSize addr) = .ok (w, .usable none)
  validate : w.serve .validate = .ok (w, .verdict .uninitialized)

theorem idle_of_empty (h : w.heap = .empty s) : w.Idle := by
  obtain ⟨heap, m⟩ := w
  obtain rfl : heap = .empty s := h
  constructor
  case region => cases s <;> rfl
  case allocate => exact fun n => by cases s <;> rfl
  case release => exact fun addr => by cases s <;> rfl
  case usableSize => exact fun addr => by cases s <;> rfl
  case validate => cases s <;> rfl
  case resize =>
    intro addr? n
    cases addr? with
    | none => cases s <;> rfl
    | some addr =>
      by_cases hn : n = 0
      · subst hn
        cases s <;> rfl
      · exact serve_resize (w := ⟨.empty s, m⟩) (Heap.resize_empty s m addr hn)

/-- One action does not give a heap a region, unless it is a range that is accepted. -/
theorem Matches.perform_blank (h : Matches s .blank w) (act : Action) :
    ∃ w' answer d, w.perform act = .ok (w', answer) ∧ Matches s d w' ∧
      (answer ≠ .claim (.ok ()) → d = .blank) := by
  cases act with
  | init addr len =>
    cases hr : Region.ofRange? a (s.minBlock a) addr len with
    | ok r =>
      obtain ⟨w', hinit, hw'⟩ := h.perform_init hr
      exact ⟨w', _, _, hinit, hw', fun hne => absurd rfl hne⟩
    | error e =>
      obtain ⟨w', answer, hperform, hw', -⟩ := h.perform (.init addr len)
      refine ⟨w', answer, _, hperform, hw', fun _ => ?_⟩
      simp only [Draft.after, hr]
  | request q =>
    obtain ⟨w', answer, hserve, hw', -⟩ := h.serve q
    exact ⟨w', answer, _, hserve, hw', fun _ => by cases q <;> rfl⟩
  | store addr skip bytes =>
    obtain ⟨w', answer, hperform, hw'⟩ := h.perform_store addr skip bytes
    exact ⟨w', answer, _, hperform, hw', fun _ => rfl⟩
  | elsewhere addr bytes =>
    obtain ⟨w', answer, hperform, hw'⟩ := h.perform_elsewhere addr bytes
    exact ⟨w', answer, _, hperform, hw', fun _ => rfl⟩

/-- **A heap without a region stays so** until a range is accepted. -/
theorem Matches.run_blank (h : Matches s .blank w) (acts : List Action) :
    ∃ w' trace, w.run acts = .ok (w', trace) ∧
      ((∀ entry ∈ trace, entry.2 ≠ .claim (.ok ())) → Matches s .blank w') := by
  induction acts generalizing w with
  | nil => exact ⟨w, [], rfl, fun _ => h⟩
  | cons act acts ih =>
    obtain ⟨w1, answer, d, hperform, hw1, hblank⟩ := h.perform_blank act
    by_cases hclaim : answer = .claim (.ok ())
    · obtain ⟨w2, trace, hrun, -⟩ := hw1.run acts
      refine ⟨w2, _, run_cons hperform hrun, fun hall => ?_⟩
      exact absurd hclaim (hall _ List.mem_cons_self)
    · obtain rfl := hblank hclaim
      obtain ⟨w2, trace, hrun, hw2⟩ := ih hw1
      refine ⟨w2, _, run_cons hperform hrun, fun hall => hw2 fun entry hentry => ?_⟩
      exact hall entry (List.mem_cons_of_mem _ hentry)

/-! ## 2. Heaps over a new region -/

/-- The heap has just taken over the region, in a memory that was `m` before. -/
structure Anew (w : World a) (r : Region a) (m : Memory) : Prop where
  region : w.heap.region = some r
  /-- The bytes of the region are written anew, and no other byte is. -/
  renewed : r.Renewed w.heap.strategy m w.memory
  /-- There is one block, which is free and has all the bytes. -/
  blocks : r.blocks w.memory = .ok [⟨0, .ofSize r.size false⟩]
  /-- If free blocks are listed, this one is. -/
  listed : w.heap.strategy = .list →
    r.Intact w.memory w.heap.head [⟨0, .ofSize r.size false⟩] [0]
  /-- No address is live, whether it was before or not. -/
  dead : ∀ addr, w.serve (.usableSize addr) = .ok (w, .usable none)
  /-- Every request is served that has its block in the region. -/
  serves : ∀ n, ∃ w' new?, w.serve (.allocate n) = .ok (w', .address new?) ∧
    (new? ≠ none ↔
      ∃ need, a.blockSize? (w.heap.strategy.minPayload a) n = some need ∧ need ≤ r.size)

/-- The one free block of a new region serves what it has the bytes for. -/
theorem serves_fresh (ht : Tiled a (s.minBlock a) 0 (Plan.fresh r s).cells r.size) :
    ((Plan.fresh r s).allocate r s n).1 ≠ none ↔
      ∃ need, a.blockSize? (s.minPayload a) n = some need ∧ need ≤ r.size := by
  constructor
  · intro hsome
    obtain ⟨new, hnew⟩ := Option.ne_none_iff_exists'.mp hsome
    obtain ⟨need, hneed⟩ := Plan.exists_need hnew
    refine ⟨need, hneed, Nat.not_lt.mp fun hlt => hsome ?_⟩
    refine (Plan.allocate_eq_none_iff ht (Strategy.settled_fresh r s) hneed).mpr fun c hc _ => ?_
    rw [List.mem_singleton.mp hc]
    exact hlt
  · intro hex hnone
    obtain ⟨need, hneed, hle⟩ := hex
    have hsmall := (Plan.allocate_eq_none_iff ht (Strategy.settled_fresh r s) hneed).mp hnone
    exact absurd (hsmall ⟨0, r.size, false⟩ List.mem_cons_self rfl) (Nat.not_lt.mpr hle)

/-- **A heap that holds the plan of a new region** has just taken it over. -/
theorem anew_of_shows (hs : w.heap.Shows r s w.memory (.fresh r s))
    (hrenewed : r.Renewed s m w.memory) : w.Anew r m := by
  have hstrategy := hs.strategy_eq
  constructor
  case region => exact hs.region_eq
  case renewed => exact hstrategy ▸ hrenewed
  case blocks => exact hs.laid.blocks_eq
  case listed =>
    intro hlist
    obtain rfl : s = .list := hstrategy.symm.trans hlist
    exact Matches.intact_fresh (w := w) hs
  case dead =>
    intro addr
    have hdead : (Plan.fresh r s).usable r addr = none := by
      refine Option.eq_none_iff_forall_ne_some.mpr fun u hu => ?_
      obtain ⟨c, hc, -⟩ := (Plan.usable_eq_some_iff hs.tiled).mp hu
      cases hc
    exact serve_usableSize ((hs.usableSize addr).trans (congrArg Except.ok hdead))
  case serves =>
    intro n
    obtain ⟨w', hserve, -⟩ := allocate_of_shows hs n
    rw [hstrategy]
    exact ⟨w', _, hserve, serves_fresh hs.tiled⟩

/-! ## 3. Ranges -/

/-- **A range is all that counts when it is handed to a heap**, of either strategy and in any state,
    with anything in memory. The answer is decided by its address and its length. If it is refused, no
    byte has changed, and the heap has no region until a later range is accepted. If it is accepted,
    then the heap has just taken over the range, with its length rounded down. -/
theorem init_decides (w : World a) (addr len : Nat) :
    ∃ w' result, w.perform (.init addr len) = .ok (w', .claim result) ∧
      w'.heap.strategy = w.heap.strategy ∧
      Region.Claimed a (w.heap.strategy.minBlock a) addr len result ∧
      (result ≠ .ok () → w'.memory = w.memory ∧ w'.Idle ∧
        ∀ acts, ∃ w'' trace, w'.run acts = .ok (w'', trace) ∧
          ((∀ entry ∈ trace, entry.2 ≠ .claim (.ok ())) → w''.Idle)) ∧
      (result = .ok () → ∃ r, r.base = addr ∧ r.size = a.alignDown len ∧ w'.Anew r w.memory) := by
  have hclaimed := Region.claimed a (w.heap.strategy.minBlock a) addr len
  cases hr : Region.ofRange? a (w.heap.strategy.minBlock a) addr len with
  | error e =>
    rw [hr] at hclaimed
    have hw' : Matches w.heap.strategy .blank ⟨.empty w.heap.strategy, w.memory⟩ :=
      matches_fresh (a := a) w.heap.strategy w.memory
    refine ⟨_, .error e, perform_init (w.heap.init_error w.memory hr), hw'.strategy_eq, hclaimed,
      fun _ => ⟨rfl, idle_of_empty hw', fun acts => ?_⟩, fun h => nomatch h⟩
    obtain ⟨w'', trace, hrun, hw''⟩ := hw'.run_blank acts
    exact ⟨w'', trace, hrun, fun hall => idle_of_empty (hw'' hall)⟩
  | ok r =>
    rw [hr] at hclaimed
    obtain ⟨o, hinit, hvalue, hshows, hrenewed⟩ := w.heap.init_renewed w.memory hr
    obtain ⟨hbase, hsize, -⟩ := Region.ofRange?_eq_ok hr
    refine ⟨⟨o.heap, o.memory⟩, .ok (), hvalue ▸ perform_init hinit, hshows.strategy_eq, hclaimed,
      fun hne => absurd rfl hne, fun _ => ⟨r, hbase, hsize, ?_⟩⟩
    exact anew_of_shows (w := ⟨o.heap, o.memory⟩) hshows hrenewed

end RegionHeap.World
