import RegionHeap.Proofs.Client.Determined
import RegionHeap.Proofs.Client.Exclusivity
import RegionHeap.Proofs.Heap.Intact
import RegionHeap.Proofs.Layout.Canonical
import RegionHeap.Proofs.Plan.GiveBack

/-!
# Layouts do not remember how they came about

A listing heap merges free blocks at once, so its layout is determined by the blocks that are
allocated. Allocations can be given back in any order, and a heap that has all of them back is as good
as new.

* `Request.gives?`, `World.GivesBack` -- requests that give bytes of an allocation back;
* `World.Matches.blocks_eq` -- the same allocated blocks, the same layout;
* `World.Matches.run_perm` -- the same layout in whatever order allocations are given back;
* `World.Matches.run_releases` -- after all allocations were released, the plan is that of a new heap;
* `World.layout_forgets` -- all three, in every state that a run leads to.
-/

namespace RegionHeap

variable {a : Alignment} {s : Strategy} {r r' : Region a} {p p' : Plan} {q q' : Request} {c : Cell}
  {addr n off size : Nat} {cs : List Cell} {bs bs' : List (Block a)}

/-- The walk has an allocated block of the size at the offset. -/
def Block.Allocates (bs : List (Block a)) (off size : Nat) : Prop :=
  ∃ b ∈ bs, b.header.Allocated ∧ b.offset = off ∧ b.size = size

/-- The allocation that a request gives back, and the number of bytes to keep of it. -/
def Request.gives? : Request → Option (Nat × Nat)
  | release addr => some (addr, 0)
  | resize (some addr) n => some (addr, n)
  | _ => none

namespace Request

theorem subject?_of_gives (h : q.gives? = some (addr, n)) : q.subject? = some addr := by
  cases q with
  | release => cases h; rfl
  | resize addr? n =>
    cases addr? with
    | none => cases h
    | some => cases h; rfl
  | _ => cases h

/-! ## 1. Allocations that are given back -/

/-- What the request leaves of a cell in use. -/
def remainder (r : Region a) (s : Strategy) (q : Request) (c : Cell) : Option Cell :=
  match q.gives? with
  | some (addr, n) => Plan.remainder r s addr n c
  | none => some c

/-- The request gives back no more than the cells in use have. -/
def FitsPlan (r : Region a) (p : Plan) (q : Request) : Prop :=
  ∃ addr n, q.gives? = some (addr, n) ∧
    ∀ c ∈ inUse p.cells, c.payload r = addr → n + a.bytes ≤ c.size

theorem remainder_eq (h : q.gives? = some (addr, n)) (c : Cell) :
    q.remainder r s c = Plan.remainder r s addr n c := by
  rw [remainder, h]

theorem remainder_of_none (h : q.gives? = none) : q.remainder r s = some := by
  funext c
  rw [remainder, h]

/-- Requests about different allocations do not interfere. -/
theorem remainder_comm (hne : q.subject? ≠ q'.subject?) (c : Cell) :
    (q.remainder r s c).bind (q'.remainder r s) = (q'.remainder r s c).bind (q.remainder r s) := by
  cases hq : q.gives? with
  | none => rw [remainder_of_none hq, Option.bind_some, Option.bind_fun_some]
  | some x =>
    cases hq' : q'.gives? with
    | none => rw [remainder_of_none hq', Option.bind_some, Option.bind_fun_some]
    | some y =>
      rw [funext (remainder_eq (r := r) (s := s) hq), funext (remainder_eq (r := r) (s := s) hq')]
      refine Plan.remainder_comm fun e => hne ?_
      rw [subject?_of_gives hq, subject?_of_gives hq', e]

end Request

theorem Draft.next_of_gives (h : q.gives? = some (addr, n)) :
    (Draft.planned r p).next s q = .planned r (p.resize r s (some addr) n).2 := by
  cases q with
  | release => cases h; rfl
  | resize addr? n =>
    cases addr? with
    | none => cases h
    | some => cases h; rfl
  | _ => cases h

/-- A request leaves what the others give back as it is. -/
theorem Request.FitsPlan.next (h : q.FitsPlan r p) (hne : q'.subject? ≠ q.subject?)
    (hinUse : inUse p'.cells = (inUse p.cells).filterMap (q'.remainder r s)) : q.FitsPlan r p' := by
  obtain ⟨addr, n, hq, hfit⟩ := h
  refine ⟨addr, n, hq, fun c hc hpayload => ?_⟩
  rw [hinUse] at hc
  obtain ⟨d, hd, hc⟩ := List.mem_filterMap.mp hc
  cases hq' : q'.gives? with
  | none =>
    rw [Request.remainder_of_none hq'] at hc
    cases hc
    exact hfit c hd hpayload
  | some x =>
    rw [Request.remainder_eq hq'] at hc
    have hother : d.payload r ≠ x.1 := fun e => hne (by
      rw [Request.subject?_of_gives hq', Request.subject?_of_gives hq, ← e,
        ← Plan.payload_of_mem_remainder hc, hpayload])
    rw [Plan.remainder_of_ne hother] at hc
    cases hc
    exact hfit c hd hpayload

/-- A block that is allocated is a cell in use. -/
theorem Region.Laid.allocates_iff {m : Memory} (h : r.Laid s m cs) :
    Block.Allocates (cs.map (Cell.block a)) off size ↔ ⟨off, size, true⟩ ∈ inUse cs := by
  constructor
  · intro hex
    obtain ⟨b, hb, halloc, rfl, rfl⟩ := hex
    obtain ⟨c, hc, rfl⟩ := List.mem_map.mp hb
    have hused : c.used = true := Cell.header_allocated.mp halloc
    have hsize : (c.block a).size = c.size := Cell.header_size (h.bounds hc).size_mod
    have hsame : (⟨(c.block a).offset, (c.block a).size, true⟩ : Cell) = c := by
      rw [hsize, ← hused]
      rfl
    rw [hsame]
    exact mem_inUse.mpr ⟨hc, hused⟩
  · intro hmem
    have hc := (mem_inUse.mp hmem).1
    exact ⟨_, List.mem_map_of_mem hc, Cell.header_allocated.mpr rfl, rfl,
      Cell.header_size (h.bounds hc).size_mod⟩

/-- A range that a region was made of is accepted again. -/
theorem Region.ofRange?_self {min : Nat} (h : min ≤ r.size) :
    ofRange? a min r.base r.size = .ok r := by
  have hsize : a.alignDown r.size = r.size := Alignment.alignDown_eq_self r.size_mod
  unfold ofRange?
  rw [dif_pos r.base_mod]
  simp only [hsize]
  rw [if_neg (Nat.not_lt.mpr h), dif_pos r.base_add_size_lt]

/-- The region of a draft is large enough for a block. -/
def Draft.Roomy (s : Strategy) : Draft a → Prop
  | .blank => True
  | .planned r _ => s.minBlock a ≤ r.size

theorem Draft.Roomy.after {d : Draft a} (h : d.Roomy s) (act : Action) : (d.after s act).Roomy s := by
  cases act with
  | init addr len =>
    cases hr : Region.ofRange? a (s.minBlock a) addr len with
    | ok r =>
      simp only [Draft.after, hr]
      exact (Region.ofRange?_eq_ok hr).2.2
    | error e =>
      simp only [Draft.after, hr]
      trivial
  | request q =>
    cases d with
    | blank => cases q <;> exact h
    | planned r p => cases q <;> exact h
  | _ => exact h

theorem Draft.Roomy.foldl {d : Draft a} (h : d.Roomy s) (acts : List Action) :
    (acts.foldl (Draft.after s) d).Roomy s := by
  induction acts generalizing d with
  | nil => exact h
  | cons act acts ih => exact ih (h.after act)

namespace World

variable {w w' : World a} {m : Memory}

/-- The heap is laid out over the region in these blocks. -/
def Lays (w : World a) (r : Region a) (bs : List (Block a)) : Prop :=
  w.heap.region = some r ∧ r.blocks w.memory = .ok bs

/-- The request gives a live allocation back, or cuts it down to bytes that it has. -/
def GivesBack (w : World a) (q : Request) : Prop :=
  ∃ addr n u, q.gives? = some (addr, n) ∧ w.Grants addr u ∧ n ≤ u

theorem Matches.lays (h : Matches s (.planned r p) w) : w.Lays r (p.cells.map (Cell.block a)) :=
  ⟨Heap.Shows.region_eq (s := s) h, (Heap.Shows.laid (s := s) h).blocks_eq⟩

theorem Matches.fitsPlan (h : Matches s (.planned r p) w) (hq : w.GivesBack q) :
    q.FitsPlan r p := by
  have hs : w.heap.Shows r s w.memory p := h
  obtain ⟨addr, n, u, hgives, hgrants, hle⟩ := hq
  refine ⟨addr, n, hgives, fun c hc hpayload => ?_⟩
  obtain ⟨d, hd, hsame, rfl⟩ := (grants_iff hs).mp hgrants
  have hcd : c = d := by
    refine hs.tiled.eq_of_offset s.minBlock_pos (mem_inUse.mp hc).1 (mem_inUse.mp hd).1 ?_
    unfold Cell.payload at hsame hpayload
    omega
  subst hcd
  have hmin := (hs.laid.bounds (mem_inUse.mp hc).1).min_le
  have hbytes := s.bytes_le_minBlock (a := a)
  omega

/-! ## 2. The layout is determined by what is allocated -/

/-- **Listing heaps with the same cells in use have the same layout.** -/
theorem Matches.cells_eq (h : Matches .list (.planned r p) w) (h' : Matches .list (.planned r' p') w')
    (hsize : r'.size = r.size) (hinUse : inUse p'.cells = inUse p.cells) : p'.cells = p.cells := by
  have hs : w.heap.Shows r .list w.memory p := h
  have hs' : w'.heap.Shows r' .list w'.memory p' := h'
  have ht := hs'.tiled
  rw [hsize] at ht
  exact ht.eq_of_inUse_eq hs.tiled Strategy.list.minBlock_pos hs'.settled.1 hs.settled.1 hinUse

/-- **Listing heaps with the same allocated blocks have the same layout**, over regions of the same
    size. -/
theorem Matches.blocks_eq (h : Matches .list (.planned r p) w)
    (h' : Matches .list (.planned r' p') w') (hsize : r'.size = r.size)
    (hsame : ∀ off size, Block.Allocates (p'.cells.map (Cell.block a)) off size ↔
      Block.Allocates (p.cells.map (Cell.block a)) off size) :
    p'.cells.map (Cell.block a) = p.cells.map (Cell.block a) := by
  have hs : w.heap.Shows r .list w.memory p := h
  have hs' : w'.heap.Shows r' .list w'.memory p' := h'
  have ht := hs'.tiled
  rw [hsize] at ht
  have hmem : ∀ c, c ∈ inUse p'.cells ↔ c ∈ inUse p.cells := by
    intro c
    have hsame := hsame c.offset c.size
    rw [hs'.laid.allocates_iff, hs.laid.allocates_iff] at hsame
    cases hu : c.used with
    | true =>
      have hc : (⟨c.offset, c.size, true⟩ : Cell) = c := by rw [← hu]
      rwa [hc] at hsame
    | false => simp [mem_inUse, hu]
  rw [h.cells_eq h' hsize (ht.inUse_eq_of_mem_iff hs.tiled Strategy.list.minBlock_pos hmem)]

/-! ## 3. Allocations are given back in any order -/

/-- What is left after a sequence of requests that give back. -/
theorem Matches.run_givesBack {qs : List Request} (h : Matches s (.planned r p) w)
    (hqs : ∀ q ∈ qs, q.FitsPlan r p) (hnd : (qs.map Request.subject?).Nodup) :
    ∃ w' trace p', w.run (qs.map .request) = .ok (w', trace) ∧ Matches s (.planned r p') w' ∧
      inUse p'.cells =
        qs.foldl (fun us q => us.filterMap (q.remainder r s)) (inUse p.cells) := by
  induction qs generalizing w p with
  | nil => exact ⟨w, [], p, rfl, h, rfl⟩
  | cons q qs ih =>
    rw [List.map_cons, List.nodup_cons] at hnd
    obtain ⟨addr, n, hq, hfit⟩ := hqs q List.mem_cons_self
    obtain ⟨w1, answer, hserve, hw1, -⟩ := h.serve q
    rw [Draft.next_of_gives hq] at hw1
    have hinUse : inUse (p.resize r s (some addr) n).2.cells =
        (inUse p.cells).filterMap (q.remainder r s) := by
      rw [Plan.inUse_giveBack (Heap.Shows.tiled (s := s) h) hfit]
      exact List.filterMap_congr fun c _ => (Request.remainder_eq hq c).symm
    obtain ⟨w2, trace, p2, hrun, hw2, hrest⟩ := ih hw1
      (fun q' hq' => (hqs q' (List.mem_cons_of_mem q hq')).next
        (fun e => hnd.1 (e ▸ List.mem_map_of_mem hq')) hinUse) hnd.2
    refine ⟨w2, (.request q, answer) :: trace, p2, run_cons hserve hrun, hw2, ?_⟩
    rw [hrest, hinUse]
    rfl

/-- **Allocations can be given back in any order**: the layout is the same in the end. -/
theorem Matches.run_perm {qs qs' : List Request} (h : Matches .list (.planned r p) w)
    (hqs : ∀ q ∈ qs, q.FitsPlan r p) (hnd : (qs.map Request.subject?).Nodup) (hperm : qs'.Perm qs) :
    ∃ w1 trace1 w2 trace2 bs, w.run (qs.map .request) = .ok (w1, trace1) ∧ w1.Lays r bs ∧
      w.run (qs'.map .request) = .ok (w2, trace2) ∧ w2.Lays r bs := by
  obtain ⟨w1, trace1, p1, hrun1, hw1, hinUse1⟩ := h.run_givesBack hqs hnd
  obtain ⟨w2, trace2, p2, hrun2, hw2, hinUse2⟩ := h.run_givesBack
    (fun q hq => hqs q (hperm.mem_iff.mp hq)) ((hperm.map Request.subject?).nodup_iff.mpr hnd)
  have hcomm : ∀ q ∈ qs, ∀ q' ∈ qs, ∀ us : List Cell,
      (us.filterMap (q.remainder r .list)).filterMap (q'.remainder r .list) =
        (us.filterMap (q'.remainder r .list)).filterMap (q.remainder r .list) := by
    intro q hq q' hq' us
    by_cases e : q = q'
    · rw [e]
    · rw [List.filterMap_filterMap, List.filterMap_filterMap]
      exact List.filterMap_congr fun c _ =>
        Request.remainder_comm (fun hs => e (List.inj_on_of_nodup_map hnd hq hq' hs)) c
  have hinUse : inUse p2.cells = inUse p1.cells := by
    rw [hinUse1, hinUse2]
    exact (hperm.symm.foldl_eq' hcomm _).symm
  refine ⟨w1, trace1, w2, trace2, _, hrun1, hw1.lays, hrun2, ?_⟩
  rw [← hw1.cells_eq hw2 rfl hinUse]
  exact hw2.lays

/-! ## 4. As good as new -/

/-- The cells in use after a sequence of releases. -/
theorem Matches.run_release (h : Matches s (.planned r p) w) (addrs : List Nat) :
    ∃ w' trace p', w.run (addrs.map fun addr => .request (.release addr)) = .ok (w', trace) ∧
      Matches s (.planned r p') w' ∧
      ∀ c, c ∈ inUse p'.cells ↔ c ∈ inUse p.cells ∧ c.payload r ∉ addrs := by
  induction addrs generalizing w p with
  | nil => exact ⟨w, [], p, rfl, h, fun c => by simp⟩
  | cons addr addrs ih =>
    obtain ⟨w1, answer, hserve, hw1, -⟩ := h.serve (.release addr)
    obtain ⟨w2, trace, p2, hrun, hw2, hmem⟩ := ih hw1
    refine ⟨w2, (.request (.release addr), answer) :: trace, p2, run_cons hserve hrun, hw2, ?_⟩
    intro c
    rw [hmem, Plan.mem_inUse_release (Heap.Shows.tiled (s := s) h), Plan.mem_others, List.mem_cons,
      not_or, and_assoc, Option.some_inj.ne, ne_comm]

/-- **After all allocations were released** the plan is that of a heap over a new region. -/
theorem Matches.run_releases {addrs : List Nat} (h : Matches .list (.planned r p) w)
    (hroom : Strategy.list.minBlock a ≤ r.size)
    (hall : ∀ addr u, w.Grants addr u → addr ∈ addrs) :
    ∃ w' trace, w.run (addrs.map fun addr => .request (.release addr)) = .ok (w', trace) ∧
      Matches .list (.planned r (.fresh r .list)) w' := by
  have hs : w.heap.Shows r .list w.memory p := h
  obtain ⟨w', trace, p', hrun, hw', hmem⟩ := h.run_release addrs
  have hs' : w'.heap.Shows r .list w'.memory p' := hw'
  have hnone : inUse p'.cells = [] := by
    refine List.eq_nil_iff_forall_not_mem.mpr fun c hc => ?_
    obtain ⟨hc, hnot⟩ := (hmem c).mp hc
    exact hnot (hall _ _ ((grants_iff hs).mpr ⟨c, hc, rfl, rfl⟩))
  have hcells := hs'.tiled.eq_singleton hs'.settled.1 Strategy.list.minBlock_pos r.size_mod hroom hnone
  have horder : p'.order = [0] := by
    have hperm := hs'.settled.2
    rw [hcells] at hperm
    exact List.perm_singleton.mp hperm
  have hfresh : p' = .fresh r .list := by
    obtain ⟨cells, order⟩ := p'
    have hcells : cells = _ := hcells
    have horder : order = _ := horder
    rw [hcells, horder]
    rfl
  exact ⟨w', trace, hrun, hfresh ▸ hw'⟩

/-- A heap that holds the plan of a new region is intact, with one free block. -/
theorem Matches.intact_fresh (h : Matches .list (.planned r (.fresh r .list)) w) :
    r.Intact w.memory w.heap.head [⟨0, .ofSize r.size false⟩] [0] := by
  have hs : w.heap.Shows r .list w.memory (.fresh r .list) := h
  obtain ⟨heap, memory⟩ := w
  cases hs with
  | list hs => exact hs.intact

/-- **The layout of a listing heap does not remember how it came about**, in any state that a run leads
    to. It is the layout of every other run to the same allocated blocks, in a region of the same
    size. Allocations that are released or cut down lead to the same layout in any order. Once all
    are released there is one free block, and no client can tell the heap from a new one over the same
    region. -/
theorem layout_forgets (m : Memory) (acts : List Action) :
    ∃ (w : World a) (trace : List (Action × Answer a)), (fresh .list m).run acts = .ok (w, trace) ∧
      ∀ r, w.heap.region = some r → ∃ bs, w.Lays r bs ∧
        (∀ m' acts' w' trace' r' bs', (fresh .list m').run acts' = .ok (w', trace') →
          w'.Lays r' bs' → r'.size = r.size →
          (∀ off size, Block.Allocates bs' off size ↔ Block.Allocates bs off size) → bs' = bs) ∧
        (∀ qs qs' : List Request, (∀ q ∈ qs, w.GivesBack q) → (qs.map Request.subject?).Nodup → qs'.Perm qs →
          ∃ w1 trace1 w2 trace2 bs1, w.run (qs.map .request) = .ok (w1, trace1) ∧ w1.Lays r bs1 ∧
            w.run (qs'.map .request) = .ok (w2, trace2) ∧ w2.Lays r bs1) ∧
        ∀ addrs : List Nat, (∀ addr, addr ∈ addrs ↔ ∃ u, w.Grants addr u) →
          ∃ w1 trace1, w.run (addrs.map fun addr => .request (.release addr)) = .ok (w1, trace1) ∧
            r.Intact w1.memory w1.heap.head [⟨0, .ofSize r.size false⟩] [0] ∧
            ∀ m', ∃ w2, (fresh .list m').perform (.init r.base r.size) = .ok (w2, .claim (.ok ())) ∧
              ∀ acts', ∃ w1' w2' trace', w1.run acts' = .ok (w1', trace') ∧
                w2.run acts' = .ok (w2', trace') := by
  obtain ⟨w, trace, hrun, hw, -⟩ := (matches_fresh (a := a) .list m).run acts
  refine ⟨w, trace, hrun, fun r hr => ?_⟩
  obtain ⟨p, hd⟩ := hw.exists_plan hr
  have hroom : (acts.foldl (Draft.after .list) (.blank : Draft a)).Roomy .list :=
    Draft.Roomy.foldl (d := .blank) trivial acts
  rw [hd] at hw hroom
  refine ⟨_, hw.lays, ?_, ?_, ?_⟩
  · intro m' acts' w' trace' r' bs' hrun' hlays hsize hsame
    obtain ⟨w2, trace2, hrun2, hw2, -⟩ := (matches_fresh (a := a) .list m').run acts'
    rw [hrun'] at hrun2
    cases hrun2
    obtain ⟨p', hd'⟩ := hw2.exists_plan hlays.1
    rw [hd'] at hw2
    have hbs : bs' = p'.cells.map (Cell.block a) :=
      Except.ok.inj (hlays.2.symm.trans hw2.lays.2)
    subst hbs
    exact hw.blocks_eq hw2 hsize hsame
  · intro qs qs' hqs hnd hperm
    exact hw.run_perm (fun q hq => hw.fitsPlan (hqs q hq)) hnd hperm
  · intro addrs hall
    obtain ⟨w1, trace1, hrun1, hw1⟩ := hw.run_releases hroom fun addr u hu => (hall addr).mpr ⟨u, hu⟩
    refine ⟨w1, trace1, hrun1, hw1.intact_fresh, fun m' => ?_⟩
    obtain ⟨w2, hinit, hw2⟩ := (matches_fresh (a := a) .list m').perform_init
      (Region.ofRange?_self (r := r) hroom)
    exact ⟨w2, hinit, fun acts' => hw1.run_congr hw2 acts'⟩

end World

end RegionHeap
