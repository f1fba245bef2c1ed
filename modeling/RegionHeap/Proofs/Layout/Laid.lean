import RegionHeap.Proofs.Change
import RegionHeap.Proofs.Layout.Cell
import RegionHeap.Region.Audit
import RegionHeap.Region.Live

/-!
# Layouts in memory

A layout lies in memory if it tiles the region and the word at the start of each cell is the cell's
header. Everything that goes through the blocks of a region can then be read off the layout.

* `Laid` -- the layout lies in memory; `Laid.congr` says which bytes that depends on;
* `Laid.blocks_eq` -- the walk finds the cells, in order;
* `Laid.live?_eq` -- an address names a live allocation if it is the payload of a cell in use;
* `Laid.audit_eq` -- the audit of the blocks finds no defect and counts the free cells.
-/

namespace RegionHeap

namespace Cell

variable {a : Alignment} {c : Cell}

theorem header_size (h : c.size % a.bytes = 0) : (c.header a).size = c.size :=
  Header.size_ofSize _ h

theorem block_next (h : c.size % a.bytes = 0) : (c.block a).next = c.next :=
  congrArg (c.offset + ·) (header_size h)

@[simp] theorem header_allocated : (c.header a).Allocated ↔ c.used = true :=
  Header.allocated_ofSize ..

theorem header_not_reserved : ¬ (c.header a).Reserved :=
  Header.not_reserved_ofSize c.size c.used

/-- The free blocks of a walk are the free cells of its layout. -/
theorem countP_block (cs : List Cell) :
    (cs.map (block a)).countP (fun b => !decide b.header.Allocated) = cs.countP fun c => !c.used := by
  rw [List.countP_map]
  refine List.countP_congr fun c _ => ?_
  simp [block]

/-- The size of a cell that ends in a region is a word. -/
theorem size_lt {r : Region a} (hend : c.next ≤ r.size) : c.size < Word.limit := by
  have hlimit := r.base_add_size_lt
  unfold next at hend
  omega

/-- The address that a client knows the cell by. -/
def payload (r : Region a) (c : Cell) : Nat :=
  r.base + c.offset + a.bytes

end Cell

namespace Strategy

variable {a : Alignment}

theorem bytes_le_minBlock (s : Strategy) : a.bytes ≤ s.minBlock a :=
  Nat.le_add_right ..

theorem minBlock_pos (s : Strategy) : 0 < s.minBlock a :=
  Nat.lt_of_lt_of_le a.bytes_pos s.bytes_le_minBlock

end Strategy

/-- A header fits where a cell of a tiling begins. -/
theorem Tiled.isHeaderOffset {a : Alignment} {r : Region a} {s : Strategy} {c : Cell}
    {cs : List Cell} (h : Tiled a (s.minBlock a) 0 cs r.size) (hc : c ∈ cs) :
    r.IsHeaderOffset c.offset := by
  have hb := h.bounds hc
  refine ⟨hb.offset_mod (Nat.zero_mod _), ?_⟩
  have h1 := hb.next_le
  have h2 := hb.min_le
  have h3 := s.bytes_le_minBlock (a := a)
  unfold Cell.next at h1
  omega

namespace Region

variable {a : Alignment} {r : Region a} {m m' : Memory} {s : Strategy} {c : Cell} {cs : List Cell}

/-- The words where the cells begin are their headers. -/
def Holds (r : Region a) (m : Memory) (cs : List Cell) : Prop :=
  ∀ c ∈ cs, m.readWord (r.base + c.offset) = (c.header a).raw

/-- The layout tiles the region, and memory holds its headers. -/
structure Laid (r : Region a) (s : Strategy) (m : Memory) (cs : List Cell) : Prop where
  tiled : Tiled a (s.minBlock a) 0 cs r.size
  holds : r.Holds m cs

namespace Laid

theorem bounds (h : r.Laid s m cs) (hc : c ∈ cs) : Tiled.Bounds a (s.minBlock a) 0 r.size c :=
  h.tiled.bounds hc

theorem offset_mod (h : r.Laid s m cs) (hc : c ∈ cs) : c.offset % a.bytes = 0 :=
  (h.bounds hc).offset_mod (Nat.zero_mod _)

theorem isHeaderOffset (h : r.Laid s m cs) (hc : c ∈ cs) : r.IsHeaderOffset c.offset :=
  h.tiled.isHeaderOffset hc

/-- The header of a cell is read where the cell begins. -/
theorem header_eq (h : r.Laid s m cs) (hc : c ∈ cs) :
    r.header m c.offset = .ok (c.header a) := by
  rw [header_eq_ok (h.isHeaderOffset hc).hasWord, h.holds c hc]

/-- The offset behind a cell can be computed. -/
theorem next_eq (h : r.Laid s m cs) (hc : c ∈ cs) : Word.add c.offset c.size = .ok c.next := by
  have h1 := (h.bounds hc).next_le
  have h2 := r.base_add_size_lt
  refine Word.add_eq_ok ?_
  unfold Cell.next at h1
  omega

/-- A layout stays in memory as long as its header words do. -/
theorem congr (h : r.Laid s m cs)
    (hm : ∀ c ∈ cs, m'.readWord (r.base + c.offset) = m.readWord (r.base + c.offset)) :
    r.Laid s m' cs :=
  ⟨h.tiled, fun c hc => (hm c hc).trans (h.holds c hc)⟩

end Laid

/-! ## 1. The walk -/

/-- The walk from the start of a tiling finds the cells in order. -/
theorem blocksFrom_eq {min lo : Nat} (ht : Tiled a min lo cs r.size) (hmin : a.bytes ≤ min)
    (hlo : lo % a.bytes = 0) (hm : r.Holds m cs) :
    r.blocksFrom m lo = .ok (cs.map (Cell.block a)) := by
  induction cs generalizing lo with
  | nil =>
    have h0 : ¬ r.IsHeaderOffset lo := by
      intro hoff
      obtain ⟨-, h⟩ := hoff
      have h1 : lo = r.size := ht
      have h2 := a.bytes_pos
      omega
    rw [blocksFrom, dif_neg h0]
    rfl
  | cons c cs ih =>
    obtain ⟨rfl, h1, h2, h3⟩ := ht
    have hoff : r.IsHeaderOffset c.offset := by
      refine ⟨hlo, ?_⟩
      have h4 := h3.le
      unfold Cell.next at h4
      omega
    have hhead : r.header m c.offset = .ok (c.header a) := by
      rw [header_eq_ok hoff.hasWord, hm c List.mem_cons_self]
    have hsize : ¬ (c.header a).size = 0 := by
      rw [Cell.header_size h1]
      have h4 := a.bytes_pos
      omega
    have hnext : c.next % a.bytes = 0 := by
      rw [Cell.next, Nat.add_mod, hlo, h1, Nat.zero_add, Nat.zero_mod]
    have hrest := ih h3 hnext fun d hd => hm d (List.mem_cons_of_mem _ hd)
    rw [blocksFrom, dif_pos hoff, hhead]
    show (if _ : (c.header a).size = 0 then _ else _) = _
    rw [dif_neg hsize, Cell.header_size h1]
    rw [Cell.next] at hrest
    rw [hrest]
    rfl

/-- **The walk finds the cells of the layout**, in order. -/
theorem Laid.blocks_eq (h : r.Laid s m cs) : r.blocks m = .ok (cs.map (Cell.block a)) :=
  blocksFrom_eq h.tiled s.bytes_le_minBlock (Nat.zero_mod _) h.holds

/-! ## 2. Live allocations -/

end Region

/-- The offset of the cell in front. -/
def Focus.left? (f : Focus) : Option Nat :=
  f.front.getLast?.map Cell.offset

/-- The cell as the heap speaks of it when it is in use. -/
def Focus.live (f : Focus) : Live :=
  ⟨f.cell.offset, f.cell.size, f.left?⟩

/-- What stands last in a list, or else in front of it, when the list grows at its head. -/
theorem getLast?_cons_map_or {α β : Type} (f : α → β) (x : α) (xs : List α) (before : Option β) :
    ((x :: xs).getLast?.map f).or before = (xs.getLast?.map f).or (some (f x)) := by
  rw [List.getLast?_cons]
  cases xs.getLast? <;> rfl

/-- The search for the neighbour in front finds the one in the layout. -/
theorem Block.leftOf?_map {a : Alignment} {min lo hi off : Nat} {cs : List Cell}
    {before : Option Nat} (ht : Tiled a min lo cs hi) :
    Block.leftOf? off before (cs.map (Cell.block a)) =
      (focus? off cs).map fun f => f.left?.or before := by
  induction cs generalizing lo before with
  | nil => rfl
  | cons c cs ih =>
    rw [List.map_cons, Block.leftOf?, focus?]
    show (if c.offset = off then _ else _) = _
    by_cases h1 : c.offset = off
    · rw [if_pos h1, if_pos h1]
      rfl
    · rw [if_neg h1, if_neg h1]
      show (if off < c.offset then _ else _) = _
      by_cases h2 : off < c.offset
      · -- the search gives up, and indeed every cell behind lies further back
        have h3 : focus? off cs = none := by
          rw [focus?_eq_none_iff]
          intro d hd
          have h4 := (ht.2.2.2.bounds hd).lo_le
          unfold Cell.next at h4
          omega
        rw [if_pos h2, h3]
        rfl
      · rw [if_neg h2, ih ht.2.2.2, Option.map_map]
        congr 1
        funext f
        exact (getLast?_cons_map_or Cell.offset c f.front before).symm

namespace Region

variable {a : Alignment} {r : Region a} {m : Memory} {s : Strategy} {off addr : Nat} {c : Cell}
  {cs : List Cell}

theorem offsetOf?_eq_some_iff :
    r.offsetOf? addr = some off ↔ r.IsHeaderOffset off ∧ addr = r.base + off + a.bytes := by
  constructor
  · intro h
    unfold offsetOf? at h
    split at h
    · rename_i hc
      cases h
      exact ⟨hc.2, by omega⟩
    · cases h
  · intro hboth
    obtain ⟨h, rfl⟩ := hboth
    exact offsetOf?_payload h

/-- **An address names a live allocation exactly if it is the payload of a cell in use**, whatever
    word lies in front of it. -/
theorem Laid.live?_eq (h : r.Laid s m cs) (addr : Nat) :
    r.live? m (s.minBlock a) addr =
      .ok (((r.offsetOf? addr).bind fun off => (focus? off cs).filter fun f => f.cell.used).map
        Focus.live) := by
  unfold live?
  cases hoff : r.offsetOf? addr with
  | none => rfl
  | some off =>
    obtain ⟨ho, rfl⟩ := offsetOf?_eq_some_iff.mp hoff
    have hleft : Block.leftOf? off none (cs.map (Cell.block a)) =
        (focus? off cs).map fun f => f.left?.or none := Block.leftOf?_map h.tiled
    simp only [Option.or_none] at hleft
    cases hf : focus? off cs with
    | none =>
      -- the header may look like any other, but the walk does not come to it
      rw [hf, Option.map_none] at hleft
      simp only [header_eq_ok ho.hasWord, room_eq_ok ho, h.blocks_eq, hleft, hf, bind, Except.bind,
        pure, Except.pure, Option.bind_some]
      split
      · rfl
      · split <;> rfl
    | some f =>
      obtain ⟨rfl, rfl⟩ := eq_of_focus? hf
      have hc : f.cell ∈ f.front ++ f.cell :: f.back :=
        List.mem_append_right _ List.mem_cons_self
      have hb := h.bounds hc
      rw [hf, Option.map_some] at hleft
      have hroom : ¬ r.size - f.cell.offset < f.cell.size := by
        have h1 := hb.next_le
        unfold Cell.next at h1
        omega
      have hmin : ¬ f.cell.size < s.minBlock a := Nat.not_lt.mpr hb.min_le
      simp only [h.header_eq hc, room_eq_ok ho, h.blocks_eq, hleft, hf, bind, Except.bind,
        pure, Except.pure, Option.bind_some, Cell.header_size hb.size_mod, Cell.header_allocated,
        Cell.header_not_reserved, hroom, hmin, Option.filter_some, or_false, if_false]
      cases f.cell.used <;> rfl

/-! ## 3. The audit of the blocks -/

/-- No block of a layout is unfit to walk past. -/
theorem Laid.defectAt?_eq (h : r.Laid s m cs) (hc : c ∈ cs) :
    r.defectAt? (s.minBlock a) (c.block a) = .ok none := by
  have hb := h.bounds hc
  have hroom : ¬ r.size - c.offset < c.size := by
    have h1 := hb.next_le
    unfold Cell.next at h1
    omega
  have hmin : ¬ c.size < s.minBlock a := Nat.not_lt.mpr hb.min_le
  simp only [defectAt?, Cell.block, Block.size, room_eq_ok (h.isHeaderOffset hc),
    Cell.header_size hb.size_mod, Cell.header_not_reserved, hroom, hmin, bind, Except.bind, pure,
    Except.pure, if_false]

/-- The audit goes through the rest of a layout without a complaint. -/
theorem Laid.auditFrom_eq {merged : Bool} {rest : List Cell} {walked free : Nat}
    {lastFree : Option Nat} (h : r.Laid s m cs) (hsub : ∀ c ∈ rest, c ∈ cs)
    (ht : Tiled a (s.minBlock a) walked rest r.size)
    (hsep : merged = true → Separated rest)
    (hlast : merged = true → lastFree ≠ none → ∀ c ∈ rest.head?, c.used = true) :
    r.auditFrom (s.minBlock a) merged (rest.map (Cell.block a)) walked free lastFree =
      .ok (.ok (free + rest.countP fun c => !c.used)) := by
  induction rest generalizing walked free lastFree with
  | nil =>
    have hw : walked = r.size := ht
    simp [auditFrom, hw, pure, Except.pure]
  | cons c rest ih =>
    have hc := hsub c List.mem_cons_self
    obtain ⟨rfl, h1, h2, h3⟩ := ht
    have hadd := h.next_eq hc
    have hsize : (c.block a).size = c.size := Cell.header_size h1
    have hsep' : merged = true → Separated rest :=
      fun hm => (hsep hm).tail
    have hsub' : ∀ d ∈ rest, d ∈ cs := fun d hd => hsub d (List.mem_cons_of_mem _ hd)
    rw [List.map_cons]
    unfold auditFrom
    simp only [h.defectAt?_eq hc, hsize, bind, Except.bind]
    show (if (c.header a).Allocated then _ else _) = _
    cases hu : c.used with
    | true =>
      rw [if_pos (Cell.header_allocated.mpr hu)]
      show Except.bind (Word.add c.offset c.size) _ = _
      rw [hadd]
      have hnone : merged = true → (none : Option Nat) ≠ none → ∀ d ∈ rest.head?, d.used = true :=
        fun _ hn => absurd rfl hn
      refine (ih hsub' h3 hsep' hnone).trans ?_
      rw [List.countP_cons_of_neg (by simp [hu])]
    | false =>
      have hfree : ¬ (c.header a).Allocated := by simp [hu]
      rw [if_neg hfree]
      have hstep : r.auditFrom (s.minBlock a) merged (rest.map (Cell.block a)) c.next (free + 1)
          (some c.offset) = .ok (.ok (free + (c :: rest).countP fun c => !c.used)) := by
        refine (ih hsub' h3 hsep' fun hm _ d hd => ?_).trans ?_
        · have hsep1 := hsep hm
          cases rest with
          | nil => cases hd
          | cons e rest =>
            cases hd
            rw [Separated, List.isChain_cons_cons, hu] at hsep1
            exact hsep1.1.resolve_left Bool.false_ne_true
        · rw [List.countP_cons_of_pos (by simp [hu]), Nat.add_right_comm, Nat.add_assoc]
      have hnext : Except.bind (Word.add c.offset c.size)
          (fun w => r.auditFrom (s.minBlock a) merged (rest.map (Cell.block a)) w (free + 1)
            (some c.offset)) = .ok (.ok (free + (c :: rest).countP fun c => !c.used)) := by
        rw [hadd]
        exact hstep
      cases merged with
      | false => exact hnext
      | true =>
        cases lastFree with
        | none => exact hnext
        | some left =>
          have h6 := hlast rfl (Option.some_ne_none left) c rfl
          rw [hu] at h6
          cases h6

/-- **The audit of the blocks finds no defect** and counts the free cells, for a merged layout as
    long as no two neighbours are free. -/
theorem Laid.audit_eq (h : r.Laid s m cs) (merged : Bool)
    (hsep : merged = true → Separated cs) :
    r.audit m (s.minBlock a) merged = .ok (.ok (cs.countP fun c => !c.used)) := by
  have hnone : merged = true → (none : Option Nat) ≠ none → ∀ d ∈ cs.head?, d.used = true :=
    fun _ hn => absurd rfl hn
  have hfrom : r.auditFrom (s.minBlock a) merged (cs.map (Cell.block a)) 0 0 none =
      .ok (.ok (0 + cs.countP fun c => !c.used)) :=
    h.auditFrom_eq (fun _ hc => hc) h.tiled hsep hnone
  rw [Nat.zero_add] at hfrom
  simp only [audit, h.blocks_eq, bind, Except.bind]
  exact hfrom

end Region

end RegionHeap
