import RegionHeap.Proofs.Client.Places
import RegionHeap.Proofs.Client.World
import RegionHeap.Proofs.Heap.Shows

/-!
# Runs on paper

What a client does to a heap can be followed on paper: there is a draft of the heap, and every action
leads from a draft to the next one. The world matches the draft at all times, and so does the ledger
of the client.

* `Draft`, `Draft.next`, `Draft.after` -- a heap on paper, after a request and after an action;
* `allocate_of_shows`, `release_of_shows`, `resize_of_shows` -- a heap that holds a plan follows it;
* `Matches.serve` -- a request is served as the draft says, and touches none but the cells that it
  may touch;
* `Matches.perform`, `Ledger.Agrees.note` -- world and ledger keep to the draft, for one action;
* `Matches.run_of_step`, `Matches.run` -- the same for any number of actions in a row.
-/

namespace RegionHeap

/-- A heap on paper, with its region. -/
inductive Draft (a : Alignment) where
  /-- There is no region. -/
  | blank
  /-- The region is laid out as planned. -/
  | planned (r : Region a) (p : Plan)

namespace Draft

variable {a : Alignment}

/-- The draft after a request. -/
def next (s : Strategy) : Draft a → Request → Draft a
  | planned r p, .allocate n => planned r (p.allocate r s n).2
  | planned r p, .release addr => planned r (p.release r s addr)
  | planned r p, .resize addr? n => planned r (p.resize r s addr? n).2
  | d, _ => d

/-- The address that answers a request. -/
def address? (s : Strategy) : Draft a → Request → Option Nat
  | planned r p, .allocate n => (p.allocate r s n).1
  | planned r p, .resize addr? n => (p.resize r s addr? n).1
  | _, _ => none

/-- The draft after an action. -/
def after (s : Strategy) (d : Draft a) : Action → Draft a
  | .init addr len =>
    match Region.ofRange? a (s.minBlock a) addr len with
    | .ok r => planned r (.fresh r s)
    | .error _ => blank
  | .request q => d.next s q
  | _ => d

/-- The addresses that a request may write to. -/
def Writes : Draft a → Request → Nat → Prop
  | planned r p, q, x => r.Spare (p.others r q.subject?) x
  | blank, _, _ => False

end Draft

variable {a : Alignment} {s : Strategy} {w w' : World a} {d : Draft a} {r : Region a} {p p' : Plan}
  {h : Heap a} {m : Memory} {addr n u : Nat} {addr? : Option Nat} {L : Ledger}

/-- The world is as the draft says. -/
def World.Matches (s : Strategy) : Draft a → World a → Prop
  | .blank, w => w.heap = .empty s
  | .planned r p, w => w.heap.Shows r s w.memory p

/-- What the ledger takes to be live are the cells in use, each of them with the size that fits the
    bytes last asked for. -/
def Ledger.Agrees (s : Strategy) (L : Ledger) : Draft a → Prop
  | .blank => ∀ addr, L addr = none
  | .planned r p =>
    (∀ addr n, L addr = some n → ∃ c ∈ inUse p.cells, c.payload r = addr ∧ s.Fits a n c.size) ∧
      ∀ c ∈ inUse p.cells, L (c.payload r) ≠ none

/-! ## 1. Worlds keep to the draft -/

/-- A heap without a region changes no sizes. -/
theorem Heap.resize_empty (s : Strategy) (m : Memory) (addr : Nat) (hn : n ≠ 0) :
    (empty s : Heap a).resize m (some addr) n = .ok ⟨empty s, m, none, []⟩ := by
  cases s with
  | scan => simp only [empty, resize, ScanHeap.resize, if_neg hn]; rfl
  | list => simp only [empty, resize, ListHeap.resize, if_neg hn]; rfl

/-- The snapshot of a heap without a region says so, whatever lies in memory. -/
theorem Heap.dump_empty (s : Strategy) (room : Option Nat) :
    ∃ text, ∀ m, (empty s : Heap a).dump m room = .ok text := by
  have hlegible : (Snapshot.Line.noRegion : Snapshot.Line a).Legible := fun piece hp => by
    rw [List.mem_singleton.mp hp]
    exact ⟨_, rfl⟩
  obtain ⟨text, htext⟩ := Snapshot.write_ok hlegible room ""
  refine ⟨text, fun m => ?_⟩
  rw [← htext]
  cases s <;> rfl

namespace World

theorem matches_fresh (s : Strategy) (m : Memory) : Matches s (.blank : Draft a) (fresh s m) := rfl

theorem Matches.strategy_eq (h : Matches s d w) : w.heap.strategy = s := by
  cases d with
  | blank =>
    rw [show w.heap = .empty s from h]
    cases s <;> rfl
  | planned r p => exact Heap.Shows.strategy_eq h

/-- A heap that is laid out has a plan. -/
theorem Matches.exists_plan (h : Matches s d w) (hr : w.heap.region = some r) :
    ∃ p, d = .planned r p := by
  cases d with
  | blank =>
    rw [show w.heap = .empty s from h] at hr
    cases s <;> cases hr
  | planned r' p =>
    have hs : w.heap.Shows r' s w.memory p := h
    obtain rfl : r' = r := Option.some.inj (hs.region_eq.symm.trans hr)
    exact ⟨p, rfl⟩

/-- A heap that is laid out holds a plan. -/
theorem Matches.exists_shows (h : Matches s d w) (hr : w.heap.region = some r) :
    ∃ p, w.heap.Shows r s w.memory p := by
  obtain ⟨p, rfl⟩ := h.exists_plan hr
  exact ⟨p, h⟩

/-- A heap that is not laid out is empty. -/
theorem Matches.heap_eq_empty (h : Matches s d w) (hr : w.heap.region = none) :
    w.heap = .empty s := by
  cases d with
  | blank => exact h
  | planned r p =>
    rw [Heap.Shows.region_eq (s := s) h] at hr
    cases hr

/-- A heap without a region serves nothing, whatever lies in memory. -/
theorem serve_blank (s : Strategy) (q : Request) :
    ∃ answer : Answer a, answer.address? = none ∧
      ∀ w : World a, w.heap = .empty s → w.serve q = .ok (w, answer) := by
  suffices h : ∃ answer : Answer a, answer.address? = none ∧
      ∀ m, serve ⟨.empty s, m⟩ q = .ok (⟨.empty s, m⟩, answer) by
    obtain ⟨answer, hanswer, hserve⟩ := h
    refine ⟨answer, hanswer, fun w hw => ?_⟩
    obtain ⟨heap, m⟩ := w
    have hw : heap = .empty s := hw
    subst hw
    exact hserve m
  cases q with
  | resize addr? n =>
    refine ⟨.address none, rfl, fun m => ?_⟩
    cases addr? with
    | none => cases s <;> rfl
    | some addr =>
      by_cases hn : n = 0
      · subst hn
        cases s <;> rfl
      · exact serve_resize (w := ⟨.empty s, m⟩) (Heap.resize_empty s m addr hn)
  | dump room =>
    obtain ⟨text, htext⟩ := Heap.dump_empty (a := a) s room
    exact ⟨.snapshot text, rfl, fun m => serve_dump (w := ⟨.empty s, m⟩) (htext m)⟩
  | allocate n => exact ⟨.address none, rfl, fun m => by cases s <;> rfl⟩
  | release addr => exact ⟨.done, rfl, fun m => by cases s <;> rfl⟩
  | usableSize addr => exact ⟨.usable none, rfl, fun m => by cases s <;> rfl⟩
  | validate => exact ⟨.verdict .uninitialized, rfl, fun m => by cases s <;> rfl⟩

/-- An allocation is served as the plan says, and touches no cell in use. -/
theorem allocate_of_shows (hs : w.heap.Shows r s w.memory p) (n : Nat) :
    ∃ w', w.serve (.allocate n) = .ok (w', .address (p.allocate r s n).1) ∧
      w'.heap.Shows r s w'.memory (p.allocate r s n).2 ∧
      Memory.AgreeOutside (r.Spare (inUse p.cells)) w.memory w'.memory := by
  obtain ⟨o, hstep, hvalue, hs', hm⟩ := hs.allocate n
  exact ⟨⟨o.heap, o.memory⟩, hvalue ▸ serve_allocate hstep, hs', hm⟩

/-- A release is served as the plan says, and touches none but the cell at the address. -/
theorem release_of_shows (hs : w.heap.Shows r s w.memory p) (addr : Nat) :
    ∃ w', w.serve (.release addr) = .ok (w', .done) ∧
      w'.heap.Shows r s w'.memory (p.release r s addr) ∧
      Memory.AgreeOutside (r.Spare (p.others r (some addr))) w.memory w'.memory := by
  obtain ⟨o, hstep, -, hs', hm⟩ := hs.release addr
  exact ⟨⟨o.heap, o.memory⟩, serve_release hstep, hs', hm⟩

/-- A change of size is served as the plan says, and touches none but the cell at the address. -/
theorem resize_of_shows (hs : w.heap.Shows r s w.memory p) (addr? : Option Nat) (n : Nat) :
    ∃ w', w.serve (.resize addr? n) = .ok (w', .address (p.resize r s addr? n).1) ∧
      w'.heap.Shows r s w'.memory (p.resize r s addr? n).2 ∧
      Memory.AgreeOutside (r.Spare (p.others r addr?)) w.memory w'.memory := by
  obtain ⟨o, hstep, hvalue, hs', hm⟩ := hs.resize addr? n
  exact ⟨⟨o.heap, o.memory⟩, hvalue ▸ serve_resize hstep, hs', hm⟩

/-- **A request is served as the draft says**, and touches none but the cells that it may touch. -/
theorem Matches.serve (h : Matches s d w) (q : Request) :
    ∃ w' answer, w.serve q = .ok (w', answer) ∧ Matches s (d.next s q) w' ∧
      answer.address? = d.address? s q ∧ Memory.AgreeOutside (d.Writes q) w.memory w'.memory := by
  cases d with
  | blank =>
    obtain ⟨answer, hanswer, hserve⟩ := serve_blank (a := a) s q
    exact ⟨w, answer, hserve w h, by cases q <;> exact h, by cases q <;> exact hanswer, .refl _ _⟩
  | planned r p =>
    have hs : w.heap.Shows r s w.memory p := h
    cases q with
    | allocate n =>
      obtain ⟨w', hserve, hshows, hm⟩ := allocate_of_shows hs n
      rw [← Plan.others_none (r := r)] at hm
      exact ⟨w', _, hserve, hshows, rfl, hm⟩
    | release addr =>
      obtain ⟨w', hserve, hshows, hm⟩ := release_of_shows hs addr
      exact ⟨w', _, hserve, hshows, rfl, hm⟩
    | resize addr? n =>
      obtain ⟨w', hserve, hshows, hm⟩ := resize_of_shows hs addr? n
      exact ⟨w', _, hserve, hshows, rfl, hm⟩
    | usableSize addr => exact ⟨w, _, serve_usableSize (hs.usableSize addr), h, rfl, .refl _ _⟩
    | validate => exact ⟨w, _, serve_validate hs.validate, h, rfl, .refl _ _⟩
    | dump room =>
      obtain ⟨text, htext⟩ := hs.dump room
      exact ⟨w, _, serve_dump htext, h, rfl, .refl _ _⟩

/-- What a request has led to is what the draft says. -/
theorem Matches.of_serve {q : Request} {answer : Answer a} (h : Matches s d w)
    (hserve : w.serve q = .ok (w', answer)) : Matches s (d.next s q) w' ∧
      answer.address? = d.address? s q ∧ Memory.AgreeOutside (d.Writes q) w.memory w'.memory := by
  obtain ⟨w1, answer1, hserve1, hspec⟩ := h.serve q
  rw [hserve] at hserve1
  cases hserve1
  exact hspec

/-- A request that is answered with an address places a cell there. -/
theorem Matches.places {q : Request} {new : Nat} (h : Matches s (.planned r p) w)
    (hnew : (Draft.planned r p).address? s q = some new) :
    ∃ n p', (Draft.planned r p).next s q = .planned r p' ∧ Plan.Places r s p q.subject? n new p' := by
  have hs : w.heap.Shows r s w.memory p := h
  cases q with
  | allocate n => exact ⟨n, _, rfl, Plan.allocate_places hs.tiled hs.settled hnew⟩
  | resize addr? n => exact ⟨n, _, rfl, Plan.resize_places hs.tiled hs.settled hnew⟩
  | _ => cases hnew

/-- What the client writes outside of the region or inside of a payload does not change the draft. -/
theorem Matches.write {bytes : List UInt8} (h : Matches s d w)
    (hbytes : ∀ r p, d = .planned r p → ∀ x, addr ≤ x → x < addr + bytes.length →
      r.ClientBytes p.cells x) : Matches s d (w.write addr bytes) := by
  cases d with
  | blank => exact h
  | planned r p =>
    have hs : w.heap.Shows r s w.memory p := h
    refine hs.congr_of_client ((Memory.agreeOutside_writeBytes w.memory addr bytes).mono ?_)
    exact fun x hx => hbytes r p rfl x hx.1 hx.2

/-- The number of usable bytes, as the draft has it. -/
theorem Matches.usableSize (h : Matches s d w) (addr : Nat) :
    ∃ usable?, w.heap.usableSize w.memory addr = .ok usable? ∧
      ∀ u, usable? = some u → ∃ r p c, d = .planned r p ∧ c ∈ inUse p.cells ∧ c.payload r = addr ∧
        u = c.size - a.bytes := by
  cases d with
  | blank =>
    refine ⟨none, ?_, fun _ hu => nomatch hu⟩
    rw [show w.heap = .empty s from h]
    cases s <;> rfl
  | planned r p =>
    have hs : w.heap.Shows r s w.memory p := h
    refine ⟨_, hs.usableSize addr, fun u hu => ?_⟩
    obtain ⟨f, hf, rfl⟩ := Option.map_eq_some_iff.mp hu
    obtain ⟨hmem, haddr⟩ := Plan.live?_mem hf
    exact ⟨r, p, f.cell, rfl, hmem, haddr.symm, rfl⟩

/-- A range that is accepted becomes the region, whatever the heap held before. -/
theorem Matches.perform_init {len : Nat} (h : Matches s d w)
    (hr : Region.ofRange? a (s.minBlock a) addr len = .ok r) :
    ∃ w', w.perform (.init addr len) = .ok (w', .claim (.ok ())) ∧
      Matches s (.planned r (.fresh r s)) w' := by
  have hstrategy := h.strategy_eq
  obtain ⟨o, hinit, hvalue, hshows, -⟩ := w.heap.init_ok w.memory (hstrategy ▸ hr)
  rw [hstrategy] at hshows
  exact ⟨⟨o.heap, o.memory⟩, hvalue ▸ World.perform_init hinit, hshows⟩

/-- A write to an allocation is done or refused, and the draft stays as it is. -/
theorem Matches.perform_store (h : Matches s d w) (addr skip : Nat) (bytes : List UInt8) :
    ∃ w' answer, w.perform (.store addr skip bytes) = .ok (w', answer) ∧ Matches s d w' := by
  obtain ⟨usable?, husable, hcell⟩ := h.usableSize addr
  rw [World.perform_store husable]
  split
  · rename_i hfit
    refine ⟨_, _, rfl, h.write ?_⟩
    obtain ⟨u, hu, hle⟩ := hfit
    obtain ⟨r, p, c, rfl, hc, rfl, rfl⟩ := hcell u hu
    intro r' p' e x h1 h2
    cases e
    have hs : w.heap.Shows r s w.memory p := h
    have hmin := (hs.laid.bounds (mem_inUse.mp hc).1).min_le
    have hbytes := s.bytes_le_minBlock (a := a)
    refine .inr ⟨c, hc, Nat.le_trans (Nat.le_add_right _ _) h1, ?_⟩
    unfold Cell.payload at h2
    unfold Cell.next
    omega
  · exact ⟨_, _, rfl, h⟩

/-- A write to other memory is done or refused, and the draft stays as it is. -/
theorem Matches.perform_elsewhere (h : Matches s d w) (addr : Nat) (bytes : List UInt8) :
    ∃ w' answer, w.perform (.elsewhere addr bytes) = .ok (w', answer) ∧ Matches s d w' := by
  by_cases hout : w.Outside addr bytes.length
  · refine ⟨w.write addr bytes, .done, ?_, h.write ?_⟩
    · simp only [World.perform, if_pos hout]
      rfl
    · intro r p hd x h1 h2
      subst hd
      have hr := hout r (Heap.Shows.region_eq (s := s) h)
      refine .inl fun hx => ?_
      unfold Memory.Between at hx
      omega
  · refine ⟨w, .refused, ?_, h⟩
    simp only [World.perform, if_neg hout]
    rfl

/-- **Every action leads to the next draft**, and only requests are answered with an address. -/
theorem Matches.perform (h : Matches s d w) (act : Action) :
    ∃ w' answer, w.perform act = .ok (w', answer) ∧ Matches s (d.after s act) w' ∧
      ∀ q, act = .request q → answer.address? = d.address? s q := by
  cases act with
  | init addr len =>
    cases hr : Region.ofRange? a (s.minBlock a) addr len with
    | ok r =>
      obtain ⟨w', hinit, hmatches⟩ := h.perform_init hr
      refine ⟨w', _, hinit, ?_, fun _ hq => nomatch hq⟩
      simp only [Draft.after, hr]
      exact hmatches
    | error e =>
      have hstrategy := h.strategy_eq
      have hinit := w.heap.init_error w.memory (hstrategy ▸ hr)
      rw [hstrategy] at hinit
      refine ⟨_, _, World.perform_init hinit, ?_, fun _ hq => nomatch hq⟩
      simp only [Draft.after, hr]
      rfl
  | request q =>
    obtain ⟨w', answer, hserve, hmatches, hanswer, -⟩ := h.serve q
    refine ⟨w', answer, hserve, hmatches, fun q' hq => ?_⟩
    cases hq
    exact hanswer
  | store addr skip bytes =>
    obtain ⟨w', answer, hperform, hmatches⟩ := h.perform_store addr skip bytes
    exact ⟨w', answer, hperform, hmatches, fun _ hq => nomatch hq⟩
  | elsewhere addr bytes =>
    obtain ⟨w', answer, hperform, hmatches⟩ := h.perform_elsewhere addr bytes
    exact ⟨w', answer, hperform, hmatches, fun _ hq => nomatch hq⟩

end World

/-! ## 2. Ledgers keep to the draft -/

namespace Ledger

theorem agrees_blank : blank.Agrees s (.blank : Draft a) := fun _ => rfl

theorem strike_eq_some_iff {live : Nat} :
    L.strike addr? live = some n ↔ addr? ≠ some live ∧ L live = some n := by
  cases addr? with
  | none => simp [strike]
  | some addr =>
    by_cases e : live = addr
    · subst e
      simp [strike]
    · simp [strike, Function.update_of_ne e, Ne.symm e]

theorem enter_self : L.enter addr n addr = some n :=
  Function.update_self ..

theorem enter_of_ne {new : Nat} (hne : new ≠ addr) : L.enter new n addr = L addr :=
  Function.update_of_ne hne.symm ..

theorem note_resize_none :
    L.note (.request (.resize addr? n)) none = if n = 0 then L.strike addr? else L := by
  cases addr? <;> cases n <;> rfl

/-- An address is entered for the cell that was placed there. -/
theorem Agrees.places {new : Nat} (h : L.Agrees s (.planned r p))
    (hp : p.Places r s addr? n new p') :
    ((L.strike addr?).enter new n).Agrees s (.planned r p') := by
  obtain ⟨c, rfl, hfit, hne, hmem⟩ := hp
  constructor
  · intro live k hlive
    by_cases e : live = c.payload r
    · subst e
      rw [enter_self] at hlive
      cases hlive
      exact ⟨c, (hmem c).mpr (.inr rfl), rfl, hfit⟩
    · rw [enter_of_ne (Ne.symm e), strike_eq_some_iff] at hlive
      obtain ⟨d, hd, rfl, hk⟩ := h.1 live k hlive.2
      exact ⟨d, (hmem d).mpr (.inl (Plan.mem_others.mpr ⟨hd, hlive.1⟩)), rfl, hk⟩
  · intro d hd
    rcases (hmem d).mp hd with hd | rfl
    · obtain ⟨k, hk⟩ := Option.ne_none_iff_exists'.mp (h.2 d (Plan.mem_others.mp hd).1)
      rw [enter_of_ne (hne d hd).symm,
        strike_eq_some_iff.mpr ⟨(Plan.mem_others.mp hd).2, hk⟩]
      exact Option.some_ne_none k
    · rw [enter_self]
      exact Option.some_ne_none n

/-- An address is struck when its cell is no longer in use. -/
theorem Agrees.strike (h : L.Agrees s (.planned r p))
    (hmem : ∀ c, c ∈ inUse p'.cells ↔ c ∈ p.others r (some addr)) :
    (L.strike (some addr)).Agrees s (.planned r p') := by
  constructor
  · intro live k hlive
    obtain ⟨hne, hlive⟩ := strike_eq_some_iff.mp hlive
    obtain ⟨c, hc, rfl, hk⟩ := h.1 live k hlive
    exact ⟨c, (hmem c).mpr (Plan.mem_others.mpr ⟨hc, hne⟩), rfl, hk⟩
  · intro c hc
    obtain ⟨hc, hne⟩ := Plan.mem_others.mp ((hmem c).mp hc)
    obtain ⟨k, hk⟩ := Option.ne_none_iff_exists'.mp (h.2 c hc)
    rw [strike_eq_some_iff.mpr ⟨hne, hk⟩]
    exact Option.some_ne_none k

/-- There is nothing to strike where nothing is live. -/
theorem strike_of_dead {addr : Nat} (h : L addr = none) : L.strike (some addr) = L := by
  rw [strike, ← h, Function.update_eq_self]

/-- There is nothing to strike from a ledger without an entry. -/
theorem strike_of_blank (h : ∀ addr, L addr = none) (addr? : Option Nat) : L.strike addr? = L := by
  cases addr? with
  | none => rfl
  | some addr => exact strike_of_dead (h addr)

/-- The ledger keeps to the plan when a request for another size is noted down. -/
theorem Agrees.note_resize (h : L.Agrees s (.planned r p))
    (ht : Tiled a (s.minBlock a) 0 p.cells r.size) (hs : p.Settled s) (addr? : Option Nat) (n : Nat) :
    (L.note (.request (.resize addr? n)) (p.resize r s addr? n).1).Agrees s
      (.planned r (p.resize r s addr? n).2) := by
  cases hanswer : (p.resize r s addr? n).1 with
  | some new => exact h.places (Plan.resize_places ht hs hanswer)
  | none =>
    rw [note_resize_none]
    by_cases hn : n = 0
    · subst hn
      rw [if_pos rfl]
      cases addr? with
      | none =>
        rw [Plan.resize_none (.inr rfl) hanswer]
        exact h
      | some addr => exact h.strike fun c => Plan.mem_inUse_release ht
    · rw [if_neg hn, Plan.resize_none (.inl hn) hanswer]
      exact h

/-- **The ledger keeps to the draft** when a request is noted down with its answer. -/
theorem Agrees.note_request (h : L.Agrees s d) (hw : World.Matches s d w) (q : Request) :
    (L.note (.request q) (d.address? s q)).Agrees s (d.next s q) := by
  cases d with
  | blank =>
    cases q with
    | release addr =>
      show (L.strike (some addr)).Agrees s .blank
      rw [strike_of_blank h]
      exact h
    | resize addr? n =>
      show (L.note (.request (.resize addr? n)) none).Agrees s .blank
      rw [note_resize_none, strike_of_blank h, ite_self]
      exact h
    | _ => exact h
  | planned r p =>
    have hs : w.heap.Shows r s w.memory p := hw
    cases q with
    | allocate n =>
      show (L.note (.request (.allocate n)) (p.allocate r s n).1).Agrees s
        (.planned r (p.allocate r s n).2)
      cases hanswer : (p.allocate r s n).1 with
      | none =>
        rw [Plan.allocate_none hanswer]
        exact h
      | some new => exact h.places (Plan.allocate_places hs.tiled hs.settled hanswer)
    | release addr => exact h.strike fun c => Plan.mem_inUse_release hs.tiled
    | resize addr? n => exact h.note_resize hs.tiled hs.settled addr? n
    | _ => exact h

/-- The ledger keeps to the draft, whatever the client does. -/
theorem Agrees.note {answered : Option Nat} (h : L.Agrees s d) (hw : World.Matches s d w)
    (act : Action) (hanswer : ∀ q, act = .request q → answered = d.address? s q) :
    (L.note act answered).Agrees s (d.after s act) := by
  cases act with
  | init addr len =>
    show blank.Agrees s (match Region.ofRange? a (s.minBlock a) addr len with
      | .ok r => .planned r (.fresh r s)
      | .error _ => .blank)
    split
    · exact ⟨fun _ _ hlive => (nomatch hlive), fun _ hc => (nomatch hc)⟩
    · exact agrees_blank
  | request q =>
    rw [hanswer q rfl]
    exact h.note_request hw q
  | _ => exact h

end Ledger

/-! ## 3. Runs -/

namespace World

/-- **The world keeps to the draft along every run**, no run comes to a fault, and what each of its
    actions leaves true of the ledger and the draft is true in the end. -/
theorem Matches.run_of_step {I : Ledger → Draft a → Prop} (hw : Matches s d w) (acts : List Action)
    (hact : ∀ act ∈ acts, ∀ {L : Ledger} {d : Draft a} {w : World a} {answered : Option Nat},
      Matches s d w → I L d → (∀ q, act = .request q → answered = d.address? s q) →
        I (L.note act answered) (d.after s act)) :
    ∃ w' trace, w.run acts = .ok (w', trace) ∧ Matches s (acts.foldl (Draft.after s) d) w' ∧
      ∀ L : Ledger, I L d → I (L.after trace) (acts.foldl (Draft.after s) d) := by
  induction acts generalizing w d with
  | nil => exact ⟨w, [], rfl, hw, fun _ hL => hL⟩
  | cons act acts ih =>
    obtain ⟨w1, answer, hstep, hw1, hanswer⟩ := hw.perform act
    obtain ⟨w2, trace, hrun, hw2, hafter⟩ :=
      ih hw1 fun act' h => hact act' (List.mem_cons_of_mem act h)
    refine ⟨w2, (act, answer) :: trace, run_cons hstep hrun, hw2, fun L hL => ?_⟩
    exact hafter _ (hact act List.mem_cons_self hw hL hanswer)

/-- **World and ledger keep to the draft along every run.** -/
theorem Matches.run (hw : Matches s d w) (acts : List Action) :
    ∃ w' trace, w.run acts = .ok (w', trace) ∧ Matches s (acts.foldl (Draft.after s) d) w' ∧
      ∀ L : Ledger, L.Agrees s d → (L.after trace).Agrees s (acts.foldl (Draft.after s) d) :=
  hw.run_of_step acts fun act _ _ _ _ _ hw hL hanswer => hL.note hw act hanswer

end World

end RegionHeap
