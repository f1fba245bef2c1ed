import RegionHeap.Proofs.Layout.Laid

/-!
# The walk over any memory

Nothing is known here of the words that the walk reads as headers. Still it ends, and what it finds
is a trail: each block lies where the header before it leads, and the last one is where no header
can start or one of size zero.

* `blocksFrom_trail` -- the walk never faults, and finds the trail;
* `audit_eq_ok_iff` -- the audit of the blocks accepts a memory exactly if a layout lies in it.
-/

namespace RegionHeap

/-- The block as a cell. -/
def Block.cell {a : Alignment} (b : Block a) : Cell :=
  ⟨b.offset, b.size, decide b.header.Allocated⟩

/-- A header without reserved bits is made from its size and its flag. -/
theorem Header.eq_ofSize {a : Alignment} {h : Header a} (hres : ¬ h.Reserved) :
    h = .ofSize h.size (decide h.Allocated) := by
  have hraw : h.raw = (ofSize h.size (decide h.Allocated) : Header a).raw := by
    unfold Reserved at hres
    rcases Nat.mod_two_eq_zero_or_one h.raw with h0 | h0 <;> cases a <;>
      simp [ofSize, size, Allocated, Alignment.alignDown, Alignment.bytes, h0] at hres ⊢ <;> omega
  cases h
  exact congrArg Header.mk hraw

namespace Region

variable {a : Alignment} {r : Region a} {m : Memory} {s : Strategy} {off min free k : Nat}
  {merged : Bool} {bs : List (Block a)} {b : Block a} {lastFree : Option Nat}

/-! ## 1. Trails -/

/-- The blocks that the headers lead to, from an offset on. -/
def Trail (r : Region a) (m : Memory) : (off : Nat) → List (Block a) → Prop
  | off, [] => ¬ r.IsHeaderOffset off
  | off, b :: bs =>
    r.IsHeaderOffset off ∧ b = ⟨off, ⟨m.readWord (r.base + off)⟩⟩ ∧
      if b.size = 0 then bs = [] else r.Trail m b.next bs

/-- **The walk never faults**, and finds the trail. -/
theorem blocksFrom_trail (r : Region a) (m : Memory) (off : Nat) :
    ∃ bs, r.blocksFrom m off = .ok bs ∧ r.Trail m off bs := by
  rw [blocksFrom]
  by_cases hoff : r.IsHeaderOffset off
  · rw [dif_pos hoff, header_eq_ok hoff.hasWord]
    simp only [bind, Except.bind]
    by_cases hsize : (⟨m.readWord (r.base + off)⟩ : Header a).size = 0
    · rw [dif_pos hsize]
      exact ⟨_, rfl, hoff, rfl, (if_pos hsize).mpr rfl⟩
    · rw [dif_neg hsize]
      obtain ⟨bs, hbs, htrail⟩ :=
        blocksFrom_trail r m (off + (⟨m.readWord (r.base + off)⟩ : Header a).size)
      rw [hbs]
      exact ⟨_, rfl, hoff, rfl, (if_neg hsize).mpr htrail⟩
  · rw [dif_neg hoff]
    exact ⟨[], rfl, hoff⟩
termination_by r.size - off
decreasing_by
  have := hoff.2
  have := a.bytes_pos
  omega

/-! ## 2. The audit of the blocks -/

/-- A block without a defect is well-formed, and one with a defect is not. -/
theorem defectAt?_cases (min : Nat) (hoff : r.IsHeaderOffset b.offset) :
    (r.defectAt? min b = .ok none ∧ ¬ b.header.Reserved ∧ min ≤ b.size ∧ b.next ≤ r.size) ∨
      ∃ d, r.defectAt? min b = .ok (some d) := by
  unfold defectAt?
  simp only [room_eq_ok hoff, bind, Except.bind, pure, Except.pure]
  by_cases hres : b.header.Reserved
  · exact .inr ⟨_, if_pos hres⟩
  · rw [if_neg hres]
    by_cases hmin : b.size < min
    · exact .inr ⟨_, if_pos hmin⟩
    · rw [if_neg hmin]
      by_cases hroom : r.size - b.offset < b.size
      · exact .inr ⟨_, if_pos hroom⟩
      · refine .inl ⟨if_neg hroom, hres, Nat.not_lt.mp hmin, ?_⟩
        have h1 := hoff.2
        unfold Block.next
        omega

/-- What an audit shows that went through the blocks of a trail without a complaint. -/
structure Audited (r : Region a) (m : Memory) (min : Nat) (merged : Bool) (off : Nat)
    (lastFree : Option Nat) (bs : List (Block a)) : Prop where
  tiled : Tiled a min off (bs.map Block.cell) r.size
  holds : r.Holds m (bs.map Block.cell)
  separated : merged = true → Separated (bs.map Block.cell)
  head : merged = true → lastFree ≠ none → ∀ b ∈ bs.head?, b.header.Allocated

theorem Audited.cons (hb : b = ⟨off, ⟨m.readWord (r.base + off)⟩⟩) (hres : ¬ b.header.Reserved)
    (hmin : min ≤ b.size) {next : Option Nat} (h : r.Audited m min merged b.next next bs)
    (hnext : ¬ b.header.Allocated → next ≠ none)
    (hlast : merged = true → lastFree ≠ none → b.header.Allocated) :
    r.Audited m min merged off lastFree (b :: bs) := by
  have hoff : b.offset = off := by rw [hb]
  refine ⟨⟨hoff, b.header.size_mod, hmin, h.tiled⟩, fun c hc => ?_, fun hm => ?_,
    fun hm hl c hc => ?_⟩
  · rcases List.mem_cons.mp hc with rfl | hc
    · have hraw : b.header = (Block.cell b).header a := Header.eq_ofSize hres
      show m.readWord (r.base + b.offset) = _
      rw [← hraw, hb]
    · exact h.holds c hc
  · refine separated_cons.mpr ⟨fun c hc => ?_, h.separated hm⟩
    by_cases hall : b.header.Allocated
    · exact .inl (decide_eq_true hall)
    · obtain ⟨d, hd, rfl⟩ : ∃ d, d ∈ bs.head? ∧ d.cell = c := by
        rw [List.head?_map] at hc
        exact Option.map_eq_some_iff.mp hc
      exact .inr (decide_eq_true (h.head hm (hnext hall) d hd))
  · cases hc
    exact hlast hm hl

/-- **An audit that finds no defect went through a layout.** -/
theorem auditFrom_spec (htrail : r.Trail m off bs) (hmin : 0 < min)
    (h : r.auditFrom min merged bs off free lastFree = .ok (.ok k)) :
    r.Audited m min merged off lastFree bs ∧
      k = free + bs.countP fun b => !decide b.header.Allocated := by
  induction bs generalizing off free lastFree with
  | nil =>
    unfold auditFrom at h
    by_cases hend : off = r.size
    · rw [if_pos hend] at h
      cases h
      refine ⟨⟨hend, fun c hc => ?_, fun _ => .nil, fun _ _ c hc => ?_⟩, rfl⟩
      · cases hc
      · cases hc
    · rw [if_neg hend] at h
      cases h
  | cons b bs ih =>
    obtain ⟨hoff, hb, hrest⟩ := htrail
    have hboff : b.offset = off := by rw [hb]
    unfold auditFrom at h
    rcases defectAt?_cases (b := b) min (hboff ▸ hoff) with ⟨hd, hres, hsize, hend⟩ | ⟨d, hd⟩
    · have hadd : Word.add off b.size = .ok b.next := by
        have h1 := r.base_add_size_lt
        unfold Block.next at hend ⊢
        rw [hboff] at hend ⊢
        exact Word.add_eq_ok (by omega)
      rw [if_neg (by omega)] at hrest
      simp only [hd, hadd, bind, Except.bind] at h
      by_cases hall : b.header.Allocated
      · rw [if_pos hall] at h
        obtain ⟨haudited, hk⟩ := ih hrest h
        refine ⟨haudited.cons hb hres hsize (fun hn => absurd hall hn) fun _ _ => hall, ?_⟩
        rw [hk, List.countP_cons_of_neg (by simp [hall])]
      · rw [if_neg hall] at h
        obtain ⟨hnot, h⟩ : ¬ (merged = true ∧ lastFree ≠ none) ∧
            r.auditFrom min merged bs b.next (free + 1) (some b.offset) = .ok (.ok k) := by
          cases merged with
          | false => exact ⟨fun hm => Bool.false_ne_true hm.1, h⟩
          | true =>
            cases lastFree with
            | none => exact ⟨fun hm => hm.2 rfl, h⟩
            | some left => cases h
        obtain ⟨haudited, hk⟩ := ih hrest h
        refine ⟨haudited.cons hb hres hsize (fun _ => Option.some_ne_none _)
          fun hm hl => absurd ⟨hm, hl⟩ hnot, ?_⟩
        rw [hk, List.countP_cons_of_pos (by simp [hall]), Nat.add_right_comm, Nat.add_assoc]
    · simp only [hd, bind, Except.bind] at h
      cases h

/-- **The audit accepts a memory exactly if a layout lies in it**, and counts the free cells; for a
    merged layout no two neighbours may be free. -/
theorem audit_eq_ok_iff :
    r.audit m (s.minBlock a) merged = .ok (.ok k) ↔
      ∃ cs, r.Laid s m cs ∧ (merged = true → Separated cs) ∧ k = cs.countP fun c => !c.used := by
  constructor
  · intro h
    obtain ⟨bs, hbs, htrail⟩ := r.blocksFrom_trail m 0
    have hblocks : r.blocks m = .ok bs := hbs
    simp only [audit, hblocks, bind, Except.bind] at h
    obtain ⟨haudited, hk⟩ := auditFrom_spec htrail s.minBlock_pos h
    refine ⟨bs.map Block.cell, ⟨haudited.tiled, haudited.holds⟩, haudited.separated, ?_⟩
    rw [hk, Nat.zero_add, List.countP_map]
    rfl
  · intro hex
    obtain ⟨cs, hlaid, hsep, rfl⟩ := hex
    exact hlaid.audit_eq merged hsep

end Region

end RegionHeap
