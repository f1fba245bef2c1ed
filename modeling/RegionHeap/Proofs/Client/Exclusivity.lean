import RegionHeap.Proofs.Client.Run

/-!
# Allocations are exclusive

A client that notes down its requests knows what is live: its ledger and the heap never disagree, no
matter which words the client has written to its payloads and which addresses it has handed in.

* `World.Honors` -- the heap takes the same addresses to be live as the ledger, and gives each of
  them a range of its own;
* `World.Matches.honors` -- a heap that keeps to a draft honors a ledger that does;
* `World.exclusive` -- so it does after every run, and no live address is answered again.
-/

namespace RegionHeap

variable {a : Alignment} {s : Strategy} {w : World a} {d : Draft a} {r : Region a} {p : Plan}
  {addr addr' n u u' : Nat} {c c' : Cell} {L : Ledger}

namespace World

/-- The client may use `u` bytes from the address on. -/
def Grants (w : World a) (addr u : Nat) : Prop :=
  w.heap.usableSize w.memory addr = .ok (some u)

/-- The heap takes the same addresses to be live as the ledger, and gives each of them a range that
    is its own. -/
structure Honors (w : World a) (L : Ledger) : Prop where
  /-- Without a region nothing is live. -/
  blank : w.heap.region = none → ∀ addr, L addr = none
  /-- Live are the payloads of the allocated blocks, and no other address. -/
  blocks : ∀ r, w.heap.region = some r → ∃ bs, r.blocks w.memory = .ok bs ∧
    ∀ addr, L addr ≠ none ↔ ∃ b ∈ bs, b.header.Allocated ∧ r.base + b.offset + a.bytes = addr
  /-- The heap knows for every address whether it is live. -/
  usable : ∀ addr, ∃ usable?, w.heap.usableSize w.memory addr = .ok usable? ∧
    (usable? ≠ none ↔ L addr ≠ none)
  /-- The bytes last asked for can be used. -/
  enough : ∀ addr n u, L addr = some n → w.Grants addr u → n ≤ u
  /-- The range of an allocation begins on the grid, lies in the region and holds no header. -/
  inside : ∀ r addr u, w.heap.region = some r → w.Grants addr u →
    addr % a.bytes = 0 ∧ r.base ≤ addr ∧ addr + u ≤ r.base + r.size ∧
      ∀ bs, r.blocks w.memory = .ok bs → ∀ b ∈ bs,
        addr + u ≤ r.base + b.offset ∨ r.base + b.offset + a.bytes ≤ addr
  /-- The ranges of two allocations lie apart. -/
  apart : ∀ addr addr' u u', addr ≠ addr' → w.Grants addr u → w.Grants addr' u' →
    addr + u ≤ addr' ∨ addr' + u' ≤ addr

end World

/-! ## 1. What a plan says about the ranges of its cells -/

/-- The payload of a cell in use can be used, up to the end of the cell. -/
theorem Plan.usable_eq_some_iff (ht : Tiled a (s.minBlock a) 0 p.cells r.size) :
    p.usable r addr = some u ↔
      ∃ c ∈ inUse p.cells, c.payload r = addr ∧ c.size - a.bytes = u := by
  constructor
  · intro h
    obtain ⟨f, hf, rfl⟩ := Option.map_eq_some_iff.mp h
    obtain ⟨hmem, rfl⟩ := live?_mem hf
    exact ⟨f.cell, hmem, rfl, rfl⟩
  · intro hmem
    obtain ⟨c, hc, rfl, rfl⟩ := hmem
    obtain ⟨f, hf, rfl⟩ := exists_live? ht hc
    exact Option.map_eq_some_iff.mpr ⟨f, hf, rfl⟩

/-- The allocated blocks of the walk are the cells in use. -/
theorem Plan.exists_inUse_iff_block :
    (∃ c ∈ inUse p.cells, c.payload r = addr) ↔
      ∃ b ∈ p.cells.map (Cell.block a), b.header.Allocated ∧ r.base + b.offset + a.bytes = addr := by
  constructor
  · intro h
    obtain ⟨c, hc, rfl⟩ := h
    obtain ⟨hc, hu⟩ := mem_inUse.mp hc
    exact ⟨c.block a, List.mem_map_of_mem hc, Cell.header_allocated.mpr hu, rfl⟩
  · intro h
    obtain ⟨b, hb, halloc, rfl⟩ := h
    obtain ⟨c, hc, rfl⟩ := List.mem_map.mp hb
    exact ⟨c, mem_inUse.mpr ⟨hc, Cell.header_allocated.mp halloc⟩, rfl⟩

/-- The payload of a cell begins on the grid and lies in the region. -/
theorem Region.Laid.payload_inside {m : Memory} {cs : List Cell} (h : r.Laid s m cs) (hc : c ∈ cs) :
    c.payload r % a.bytes = 0 ∧ r.base ≤ c.payload r ∧
      c.payload r + (c.size - a.bytes) ≤ r.base + r.size := by
  have hb := h.bounds hc
  have hend := hb.next_le
  have hmin := hb.min_le
  have hbytes := s.bytes_le_minBlock (a := a)
  unfold Cell.next at hend
  unfold Cell.payload
  refine ⟨?_, by omega, by omega⟩
  rw [Nat.add_mod_right, Nat.add_mod, r.base_mod, h.offset_mod hc, Nat.zero_add, Nat.zero_mod]

/-- The payload of a cell lies apart from every other cell. -/
theorem Region.Laid.payload_apart_of_ne {m : Memory} {cs : List Cell} (h : r.Laid s m cs)
    (hc : c ∈ cs) (hc' : c' ∈ cs) (hne : c ≠ c') :
    c.payload r + (c.size - a.bytes) ≤ r.base + c'.offset ∨ r.base + c'.next ≤ c.payload r := by
  have hmin := (h.bounds hc).min_le
  have hbytes := s.bytes_le_minBlock (a := a)
  unfold Cell.payload
  rcases h.tiled.apart hc hc' with e | hapart | hapart
  · exact absurd e hne
  · left
    unfold Cell.next at hapart
    omega
  · right
    omega

/-- The payload of a cell holds no header. -/
theorem Region.Laid.payload_apart {m : Memory} {cs : List Cell} (h : r.Laid s m cs) (hc : c ∈ cs)
    (hc' : c' ∈ cs) : c.payload r + (c.size - a.bytes) ≤ r.base + c'.offset ∨
      r.base + c'.offset + a.bytes ≤ c.payload r := by
  by_cases hne : c = c'
  · subst hne
    exact .inr (Nat.le_refl _)
  · refine (h.payload_apart_of_ne hc hc' hne).imp_right fun hapart => ?_
    have hmin := (h.bounds hc').min_le
    have hbytes := s.bytes_le_minBlock (a := a)
    unfold Cell.next at hapart
    omega

/-- The payloads of two cells lie apart. -/
theorem Region.Laid.payloads_apart {m : Memory} {cs : List Cell} (h : r.Laid s m cs) (hc : c ∈ cs)
    (hc' : c' ∈ cs) (hne : c.payload r ≠ c'.payload r) :
    c.payload r + (c.size - a.bytes) ≤ c'.payload r ∨
      c'.payload r + (c'.size - a.bytes) ≤ c.payload r := by
  have hcells : c ≠ c' := fun e => hne (congrArg (Cell.payload r) e)
  have hmin := (h.bounds hc').min_le
  have hbytes := s.bytes_le_minBlock (a := a)
  rcases h.payload_apart_of_ne hc hc' hcells with hapart | hapart
  · left
    exact Nat.le_trans hapart (Nat.le_add_right _ _)
  · right
    refine Nat.le_trans (Nat.le_of_eq ?_) hapart
    unfold Cell.payload Cell.next
    omega

/-- A ledger that keeps to a plan takes the cells in use to be live. -/
theorem Ledger.Agrees.live_iff (h : L.Agrees s (.planned r p)) :
    L addr ≠ none ↔ ∃ c ∈ inUse p.cells, c.payload r = addr := by
  constructor
  · intro hne
    obtain ⟨n, hn⟩ := Option.ne_none_iff_exists'.mp hne
    obtain ⟨c, hc, hpayload, -⟩ := h.1 addr n hn
    exact ⟨c, hc, hpayload⟩
  · intro hex
    obtain ⟨c, hc, rfl⟩ := hex
    exact h.2 c hc

namespace World

/-! ## 2. Heaps honor ledgers -/

/-- Granted are the payloads of the cells in use, each up to the end of its cell. -/
theorem grants_iff (hs : w.heap.Shows r s w.memory p) :
    w.Grants addr u ↔ ∃ c ∈ inUse p.cells, c.payload r = addr ∧ c.size - a.bytes = u := by
  unfold Grants
  rw [hs.usableSize, ← Plan.usable_eq_some_iff hs.tiled]
  constructor
  · exact Except.ok.inj
  · exact congrArg Except.ok

/-- What is granted is the payload of a cell in use, at a known place between the others. -/
theorem exists_focus_of_grants (hs : w.heap.Shows r s w.memory p) (hu : w.Grants addr u) :
    ∃ front c back, p.live? r addr = some ⟨front, c, back⟩ ∧ p.cells = front ++ c :: back ∧
      c.used = true ∧ c.payload r = addr ∧ c.size - a.bytes = u := by
  obtain ⟨c, hc, rfl, rfl⟩ := (grants_iff hs).mp hu
  obtain ⟨⟨front, c, back⟩, hf, rfl⟩ := Plan.exists_live? hs.tiled hc
  obtain ⟨hcells, hused, -⟩ := Plan.live?_eq_some hf
  exact ⟨front, c, back, hf, hcells, hused, rfl, rfl⟩

/-- A heap without a region honors a ledger without an entry. -/
theorem honors_blank (h : w.heap = .empty s) (hL : ∀ addr, L addr = none) : w.Honors L := by
  have hregion : w.heap.region = none := by
    rw [h]
    cases s <;> rfl
  have husable : ∀ addr, w.heap.usableSize w.memory addr = .ok none := by
    intro addr
    rw [h]
    cases s <;> rfl
  have hnot : ∀ addr u, ¬ w.Grants addr u := by
    intro addr u hu
    unfold Grants at hu
    rw [husable] at hu
    cases hu
  exact
    { blank := fun _ => hL
      blocks := by
        intro r hr
        rw [hregion] at hr
        cases hr
      usable := fun addr => ⟨none, husable addr, by rw [hL addr]⟩
      enough := fun addr _ u _ hu => absurd hu (hnot addr u)
      inside := fun _ addr u _ hu => absurd hu (hnot addr u)
      apart := fun addr _ u _ _ hu => absurd hu (hnot addr u) }

/-- A heap that holds a plan honors a ledger that keeps to it. -/
theorem honors_planned (hs : w.heap.Shows r s w.memory p) (hL : L.Agrees s (.planned r p)) :
    w.Honors L := by
  have hregion : ∀ r', w.heap.region = some r' → r = r' := fun r' hr =>
    Option.some.inj (hs.region_eq.symm.trans hr)
  constructor
  case blank =>
    intro hr
    rw [hs.region_eq] at hr
    cases hr
  case blocks =>
    intro r' hr
    obtain rfl := hregion r' hr
    exact ⟨_, hs.laid.blocks_eq, fun addr => hL.live_iff.trans Plan.exists_inUse_iff_block⟩
  case usable =>
    intro addr
    refine ⟨_, hs.usableSize addr, ?_⟩
    rw [hL.live_iff, Option.ne_none_iff_exists']
    constructor
    · intro h
      obtain ⟨u, hu⟩ := h
      obtain ⟨c, hc, hpayload, -⟩ := (Plan.usable_eq_some_iff hs.tiled).mp hu
      exact ⟨c, hc, hpayload⟩
    · intro h
      obtain ⟨c, hc, hpayload⟩ := h
      exact ⟨_, (Plan.usable_eq_some_iff hs.tiled).mpr ⟨c, hc, hpayload, rfl⟩⟩
  case enough =>
    intro addr n u hn hu
    obtain ⟨c, hc, rfl, hfit⟩ := hL.1 addr n hn
    obtain ⟨d, hd, hsame, rfl⟩ := (grants_iff hs).mp hu
    have hcd : d = c := by
      refine hs.tiled.eq_of_offset s.minBlock_pos (mem_inUse.mp hd).1 (mem_inUse.mp hc).1 ?_
      unfold Cell.payload at hsame
      omega
    subst hcd
    exact Nat.le_sub_of_add_le hfit.payload_le
  case inside =>
    intro r' addr u hr hu
    obtain rfl := hregion r' hr
    obtain ⟨c, hc, rfl, rfl⟩ := (grants_iff hs).mp hu
    have hc := (mem_inUse.mp hc).1
    obtain ⟨hmod, hbase, hend⟩ := hs.laid.payload_inside hc
    refine ⟨hmod, hbase, hend, fun bs hbs b hb => ?_⟩
    rw [hs.laid.blocks_eq] at hbs
    obtain rfl := Except.ok.inj hbs
    obtain ⟨c', hc', rfl⟩ := List.mem_map.mp hb
    exact hs.laid.payload_apart hc hc'
  case apart =>
    intro addr addr' u u' hne hu hu'
    obtain ⟨c, hc, rfl, rfl⟩ := (grants_iff hs).mp hu
    obtain ⟨c', hc', rfl, rfl⟩ := (grants_iff hs).mp hu'
    exact hs.laid.payloads_apart (mem_inUse.mp hc).1 (mem_inUse.mp hc').1 hne

/-- **A heap that keeps to a draft honors a ledger that does.** -/
theorem Matches.honors (h : Matches s d w) (hL : L.Agrees s d) : w.Honors L := by
  cases d with
  | blank => exact honors_blank h hL
  | planned r p => exact honors_planned h hL

/-- The address that answers a request is not live, unless it is the one that was to be resized. -/
theorem Matches.address?_not_live {q : Request} {new : Nat} (h : Matches s d w) (hL : L.Agrees s d)
    (hnew : d.address? s q = some new) : L new = none ∨ q.subject? = some new := by
  cases d with
  | blank => exact .inl (hL new)
  | planned r p =>
    obtain ⟨n, p', -, c, -, -, hne, -⟩ := h.places hnew
    by_cases hsubject : q.subject? = some new
    · exact .inr hsubject
    · refine .inl (Option.eq_none_iff_forall_ne_some.mpr fun k hk => ?_)
      obtain ⟨d, hd, rfl, -⟩ := hL.1 new k hk
      exact hne d (Plan.mem_others.mpr ⟨hd, hsubject⟩) rfl

/-- **Heap and client agree on what is live after every run**, for both strategies and whatever the
    client does: live are the payloads of the allocated blocks, each with a range of its own that
    holds the bytes last asked for. No live address is answered again, except to the request that
    resizes it. -/
theorem exclusive (s : Strategy) (m : Memory) (acts : List Action) :
    ∃ (w : World a) (trace : List (Action × Answer a)), (fresh s m).run acts = .ok (w, trace) ∧
      w.Honors (Ledger.blank.after trace) ∧
      ∀ q w' answer new, w.serve q = .ok (w', answer) → answer.address? = some new →
        Ledger.blank.after trace new = none ∨ q.subject? = some new := by
  obtain ⟨w, trace, hrun, hw, hafter⟩ := (matches_fresh (a := a) s m).run acts
  have hL := hafter Ledger.blank Ledger.agrees_blank
  refine ⟨w, trace, hrun, hw.honors hL, fun q w' answer new hserve hnew => ?_⟩
  obtain ⟨-, haddress, -⟩ := hw.of_serve hserve
  exact hw.address?_not_live hL (haddress.symm.trans hnew)

end World

end RegionHeap
