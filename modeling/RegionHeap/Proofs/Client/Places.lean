import RegionHeap.Proofs.Heap.Follows

/-!
# What clients notice of an operation

A client notices which cells are in use, and nothing else of a plan. An operation that answers an
address leaves all cells in use as they are but the one that it is about, and puts one into use at
the address; one that answers none leaves the plan as it is, unless it is a release.

* `mem_inUse_release` -- the cells in use after a release;
* `Plan.Places` -- the cells in use after an operation that answers an address;
* `allocate_places`, `resize_places` -- allocation and change of size place a cell;
* `allocate_none`, `relocate_none`, `resize_none` -- a refused request changes nothing.
-/

namespace RegionHeap.Plan

variable {a : Alignment} {r : Region a} {s : Strategy} {p p' : Plan} {f : Focus} {c d : Cell}
  {front back : List Cell} {order : List Nat} {addr? : Option Nat}
  {keep need n new off addr lo hi size : Nat}

/-! ## 1. Tilings -/

/-- A free cell that is merged with the one behind covers the same range. -/
theorem tiled_put {min : Nat} (ht : Tiled a min lo (front ++ c :: back) hi) :
    Tiled a min lo (put s front c back order).cells hi := by
  cases s with
  | scan => exact ht
  | list =>
    show Tiled a min lo (front ++ merge c back) hi
    cases back with
    | nil => exact ht
    | cons d back =>
      rw [merge]
      split
      · exact ht
      · obtain ⟨hfront, hmod, hmin, hd, hdmod, -, hback⟩ := tiled_middle.mp ht
        have hnext : ({ c with size := c.size + d.size } : Cell).next = d.next := by
          unfold Cell.next at hd ⊢
          rw [hd, Nat.add_assoc]
        refine tiled_middle.mpr ⟨hfront, ?_, Nat.le_trans hmin (Nat.le_add_right _ _), ?_⟩
        · rw [Nat.add_mod, hmod, hdmod, Nat.zero_add, Nat.zero_mod]
        · rwa [hnext]

/-- A cell that is cut down leaves a tiling. -/
theorem tiled_splitTail (ht : Tiled a (s.minBlock a) lo (f.front ++ f.cell :: f.back) hi)
    (hmod : keep % a.bytes = 0) (hmin : s.minBlock a ≤ keep) :
    Tiled a (s.minBlock a) lo (splitTail a s keep f order).cells hi := by
  unfold splitTail
  split
  · exact ht.flag true
  · rename_i hrest
    refine tiled_put ?_
    rw [List.append_assoc]
    exact ht.split hmod hmin (Nat.not_lt.mp hrest) s.minBlock_pos

/-- A plan from which a block was carved tiles the region. -/
theorem tiled_carve? (ht : Tiled a (s.minBlock a) 0 p.cells r.size) (hs : p.Settled s)
    (hserves : s.Serves a n need) (h : p.carve? a s need = some (off, p')) :
    Tiled a (s.minBlock a) 0 p'.cells r.size := by
  obtain ⟨f, -, hcells, -, -, -, rfl⟩ := carve?_eq_some (fun _ => hs.mem_vacant) ht h
  refine tiled_splitTail ?_ hserves.mod hserves.minBlock_le
  rwa [← hcells]

/-- A plan tiles the region after an allocation, successful or not. -/
theorem tiled_allocate (ht : Tiled a (s.minBlock a) 0 p.cells r.size) (hs : p.Settled s) :
    Tiled a (s.minBlock a) 0 (p.allocate r s n).2.cells r.size := by
  unfold allocate
  cases hneed : a.blockSize? (s.minPayload a) n with
  | none => exact ht
  | some need =>
    rw [Option.bind_some]
    cases hcarve : p.carve? a s need with
    | none => exact ht
    | some x => exact tiled_carve? ht hs (Strategy.blockSize?_spec hneed) hcarve

/-- A free cell and a cell in use have different payloads. -/
theorem payload_ne_of_free (ht : Tiled a (s.minBlock a) 0 p.cells r.size) (hc : c ∈ inUse p.cells)
    (hd : d ∈ p.cells) (hfree : d.used = false) : d.payload r ≠ c.payload r := by
  obtain ⟨hc, hused⟩ := mem_inUse.mp hc
  intro e
  have hoff : d.offset = c.offset := by
    unfold Cell.payload at e
    omega
  rw [ht.eq_of_offset s.minBlock_pos hd hc hoff, hused] at hfree
  cases hfree

/-! ## 2. Release -/

/-- The cells in use besides the one at a live address are those in front of it and behind it. -/
theorem mem_others_iff_sides (ht : Tiled a (s.minBlock a) 0 p.cells r.size)
    (hf : p.live? r addr = some f) :
    c ∈ p.others r (some addr) ↔ c ∈ inUse f.front ++ inUse f.back := by
  refine ⟨mem_sides_of_mem_others hf, fun hc => ?_⟩
  obtain ⟨hcells, hused, rfl⟩ := live?_eq_some hf
  have hmin := s.minBlock_pos (a := a)
  rw [hcells] at ht
  have hfmin := (ht.bounds (List.mem_append_right _ List.mem_cons_self)).min_le
  rw [mem_others, hcells, inUse_append, inUse_cons_of_used hused, Option.some_inj.ne.trans ne_comm]
  rcases List.mem_append.mp hc with hc | hc
  · refine ⟨List.mem_append_left _ hc, fun e => ?_⟩
    have hnext := ht.next_le_of_mem_front (mem_inUse.mp hc).1
    have hcmin := (ht.bounds (List.mem_append_left _ (mem_inUse.mp hc).1)).min_le
    unfold Cell.payload at e
    unfold Cell.next at hnext
    omega
  · refine ⟨List.mem_append_right _ (List.mem_cons_of_mem _ hc), fun e => ?_⟩
    have hnext := ht.next_le_of_mem_back (mem_inUse.mp hc).1
    unfold Cell.payload at e
    unfold Cell.next at hnext
    omega

/-- **After a release** the cells in use are the others. -/
theorem mem_inUse_release (ht : Tiled a (s.minBlock a) 0 p.cells r.size) :
    c ∈ inUse (p.release r s addr).cells ↔ c ∈ p.others r (some addr) := by
  unfold release
  cases hf : p.live? r addr with
  | none => rw [others_of_dead ht hf]
  | some f => rw [mem_others_iff_sides ht hf, inUse_free]

/-! ## 3. Operations that answer an address -/

/-- Of the cells in use, those that an operation is not about are left, and one that fits a request
    for `n` bytes lies at `new`, where none of the others does. -/
def Places (r : Region a) (s : Strategy) (p : Plan) (addr? : Option Nat) (n new : Nat)
    (p' : Plan) : Prop :=
  ∃ c : Cell, c.payload r = new ∧ s.Fits a n c.size ∧
    (∀ d ∈ p.others r addr?, d.payload r ≠ new) ∧
    ∀ d, d ∈ inUse p'.cells ↔ d ∈ p.others r addr? ∨ d = c

theorem carve_places (ht : Tiled a (s.minBlock a) 0 p.cells r.size) (hs : p.Settled s)
    (hneed : a.blockSize? (s.minPayload a) n = some need)
    (h : p.carve? a s need = some (off, p')) :
    Places r s p none n (r.base + off + a.bytes) p' := by
  obtain ⟨size, hsize, hnew, hold, honly, hspare⟩ := carve?_spec ht (fun _ => hs.mem_vacant) h
  have hfit : s.Fits a n size := ⟨need, hneed, hsize⟩
  have hpos := a.bytes_pos
  refine ⟨⟨off, size, true⟩, rfl, hfit, fun d hd e => ?_, fun d => ?_⟩
  · rw [others_none] at hd
    refine offset_ne_of_spare ht (Nat.lt_of_lt_of_le (by omega) hfit.payload_le) hspare hd ?_
    unfold Cell.payload at e
    omega
  · rw [others_none]
    refine ⟨honly d, ?_⟩
    intro hd
    rcases hd with hd | rfl
    · exact hold d hd
    · exact hnew

/-- **An allocation that succeeds places a cell.** -/
theorem allocate_places (ht : Tiled a (s.minBlock a) 0 p.cells r.size) (hs : p.Settled s)
    (h : (p.allocate r s n).1 = some new) : Places r s p none n new (p.allocate r s n).2 := by
  unfold allocate at h ⊢
  cases hneed : a.blockSize? (s.minPayload a) n with
  | none =>
    rw [hneed] at h
    cases h
  | some need =>
    rw [hneed, Option.bind_some] at h
    rw [Option.bind_some]
    cases hcarve : p.carve? a s need with
    | none =>
      rw [hcarve] at h
      cases h
    | some x =>
      rw [hcarve] at h
      cases h
      exact carve_places ht hs hneed hcarve

/-- A request that is refused changes nothing. -/
theorem allocate_none (h : (p.allocate r s n).1 = none) : (p.allocate r s n).2 = p := by
  unfold allocate at h ⊢
  cases hcarve : (a.blockSize? (s.minPayload a) n).bind fun need => p.carve? a s need with
  | none => rfl
  | some x =>
    rw [hcarve] at h
    cases h

/-- A cell that keeps its place is placed there. -/
theorem places_of_inUse (ht : Tiled a (s.minBlock a) 0 p.cells r.size)
    (hf : p.live? r addr = some f) (hfit : s.Fits a n size)
    (h : inUse p'.cells = inUse f.front ++ ⟨f.cell.offset, size, true⟩ :: inUse f.back) :
    Places r s p (some addr) n addr p' := by
  refine ⟨⟨f.cell.offset, size, true⟩, (live?_eq_some hf).2.2.symm, hfit, fun d hd e => ?_,
    fun d => ?_⟩
  · exact (mem_others.mp hd).2 (congrArg some e.symm)
  · rw [h, mem_others_iff_sides ht hf]
    simp only [List.mem_append, List.mem_cons]
    tauto

/-- A cell that moves is placed elsewhere. -/
theorem relocate_places (ht : Tiled a (s.minBlock a) 0 p.cells r.size) (hs : p.Settled s)
    (hneed : a.blockSize? (s.minPayload a) n = some need) (hf : p.live? r addr = some f)
    (h : (p.relocate r s addr need).1 = some new) :
    Places r s p (some addr) n new (p.relocate r s addr need).2 := by
  unfold relocate at h ⊢
  cases hcarve : p.carve? a s need with
  | none =>
    rw [hcarve] at h
    cases h
  | some x =>
    obtain ⟨off, p'⟩ := x
    rw [hcarve] at h
    cases h
    have ht' := tiled_carve? ht hs (Strategy.blockSize?_spec hneed) hcarve
    obtain ⟨c, hc, hfit, hne, hmem⟩ := carve_places ht hs hneed hcarve
    rw [others_none] at hne hmem
    obtain ⟨hcells, hused, rfl⟩ := live?_eq_some hf
    have hfne : f.cell.payload r ≠ r.base + off + a.bytes := hne f.cell <| by
      rw [mem_inUse, hcells]
      exact ⟨List.mem_append_right _ List.mem_cons_self, hused⟩
    refine ⟨c, hc, hfit, fun d hd => hne d (others_subset d hd), fun d => ?_⟩
    show d ∈ inUse (p'.release r s (f.cell.payload r)).cells ↔ _
    rw [mem_inUse_release ht', mem_others, mem_others, hmem, or_and_right]
    refine or_congr Iff.rfl ⟨fun hd => hd.1, ?_⟩
    intro e
    subst e
    exact ⟨rfl, fun e => hfne ((Option.some.inj e).trans hc)⟩

/-- **A change of size that succeeds places a cell**, at the old address or at another one. -/
theorem resize_places (ht : Tiled a (s.minBlock a) 0 p.cells r.size) (hs : p.Settled s)
    (h : (p.resize r s addr? n).1 = some new) :
    Places r s p addr? n new (p.resize r s addr? n).2 := by
  cases addr? with
  | none => exact allocate_places ht hs h
  | some addr =>
    unfold resize at h ⊢
    by_cases hn : n = 0
    · simp only [if_pos hn] at h
      cases h
    · simp only [if_neg hn] at h ⊢
      cases hf : p.live? r addr with
      | none =>
        rw [hf] at h
        cases h
      | some f =>
        cases hneed : a.blockSize? (s.minPayload a) n with
        | none =>
          rw [hf, hneed] at h
          cases h
        | some need =>
          rw [hf, hneed] at h
          simp only [refit] at h ⊢
          split at h
          · rename_i hle
            cases h
            rw [if_pos hle]
            exact places_of_inUse ht hf ⟨need, hneed, snug_keptSize hle⟩ inUse_splitTail
          · rename_i hle
            rw [if_neg hle]
            cases hgrow : grow? a s need f p.order with
            | some p' =>
              rw [hgrow] at h
              cases h
              obtain ⟨size, hsize, hcells⟩ := inUse_grow? hgrow
              exact places_of_inUse ht hf ⟨need, hneed, hsize⟩ hcells
            | none =>
              rw [hgrow] at h
              exact relocate_places ht hs hneed hf h

/-- A cell that finds no other place changes nothing. -/
theorem relocate_none (h : (p.relocate r s addr need).1 = none) :
    (p.relocate r s addr need).2 = p := by
  unfold relocate at h ⊢
  cases hcarve : p.carve? a s need with
  | none => rfl
  | some x =>
    rw [hcarve] at h
    cases h

/-- A change of size that is refused changes nothing. -/
theorem resize_none (hn : n ≠ 0 ∨ addr? = none) (h : (p.resize r s addr? n).1 = none) :
    (p.resize r s addr? n).2 = p := by
  cases addr? with
  | none => exact allocate_none h
  | some addr =>
    have hn := hn.resolve_right (Option.some_ne_none addr)
    unfold resize at h ⊢
    simp only [if_neg hn] at h ⊢
    split at h
    · rename_i f need hf hneed
      unfold refit at h ⊢
      split at h
      · cases h
      · rename_i hle
        rw [if_neg hle]
        split at h
        · cases h
        · exact relocate_none h
    · rfl

end RegionHeap.Plan
