import Mathlib.Data.List.Chain
import RegionHeap.Region.Walk
import RegionHeap.Strategy

/-!
# Layouts on paper

A layout is the list of the blocks of a region in address order, with nothing said about the memory
that they lie in. Its entries are *cells*: an offset, a size and whether the block is in use.

* `Tiled` -- the cells lie one after the other and cover a range exactly; `tiled_append` and
  `tiled_middle` cut a tiling at a cell, `Tiled.bounds` and `Tiled.apart` say where its cells lie;
* `Separated` -- no two neighbours are both free;
* `Focus`, `focus?` -- the cell at an offset with those in front of it and behind it; in a tiling
  the offset determines all three (`focus?_append_cons`);
* `inUse`, `vacant` -- the cells that belong to clients, and the offsets of those that belong to the
  heap; every edit of a layout is described by what it does to the two.
-/

namespace RegionHeap

/-- A block on paper. -/
structure Cell where
  /-- The offset of its header. -/
  offset : Nat
  /-- Its size, header included. -/
  size : Nat
  /-- It is allocated. -/
  used : Bool
  deriving DecidableEq, Repr

namespace Cell

/-- The offset behind the cell. -/
def next (c : Cell) : Nat :=
  c.offset + c.size

/-- The header that says what the cell is. -/
def header (a : Alignment) (c : Cell) : Header a :=
  .ofSize c.size c.used

/-- The block that the walk finds where the cell is. -/
def block (a : Alignment) (c : Cell) : Block a :=
  ⟨c.offset, c.header a⟩

/-- The byte at an address belongs to the cell, in a region that starts at `base`. -/
def Covers (base : Nat) (c : Cell) (x : Nat) : Prop :=
  base + c.offset ≤ x ∧ x < base + c.next

end Cell

/-- The cells lie one after the other from `lo` to `hi`, with sizes on the grid and not below
    `min`. -/
def Tiled (a : Alignment) (min : Nat) : (lo : Nat) → List Cell → (hi : Nat) → Prop
  | lo, [], hi => lo = hi
  | lo, c :: cs, hi =>
    c.offset = lo ∧ c.size % a.bytes = 0 ∧ min ≤ c.size ∧ Tiled a min c.next cs hi

/-- No two neighbours are both free. -/
def Separated (cs : List Cell) : Prop :=
  cs.IsChain fun c d => c.used = true ∨ d.used = true

section

variable {a : Alignment} {min lo hi : Nat} {c d : Cell} {cs pre post : List Cell}

/-! ## 1. Where the cells of a tiling lie -/

theorem tiled_append :
    Tiled a min lo (pre ++ post) hi ↔ ∃ mid, Tiled a min lo pre mid ∧ Tiled a min mid post hi := by
  induction pre generalizing lo with
  | nil => simp [Tiled]
  | cons d pre ih =>
    simp only [List.cons_append, Tiled, ih]
    constructor
    · intro h
      obtain ⟨h1, h2, h3, mid, h4, h5⟩ := h
      exact ⟨mid, ⟨h1, h2, h3, h4⟩, h5⟩
    · intro h
      obtain ⟨mid, ⟨h1, h2, h3, h4⟩, h5⟩ := h
      exact ⟨h1, h2, h3, mid, h4, h5⟩

/-- **A tiling is cut at a cell** into a tiling in front of it and one behind it. -/
theorem tiled_middle :
    Tiled a min lo (pre ++ c :: post) hi ↔
      Tiled a min lo pre c.offset ∧ c.size % a.bytes = 0 ∧ min ≤ c.size ∧
        Tiled a min c.next post hi := by
  rw [tiled_append]
  constructor
  · intro hex
    obtain ⟨mid, h, rfl, h2, h3, h4⟩ := hex
    exact ⟨h, h2, h3, h4⟩
  · intro hex
    obtain ⟨h, h2, h3, h4⟩ := hex
    exact ⟨c.offset, h, rfl, h2, h3, h4⟩

namespace Tiled

theorem le (h : Tiled a min lo cs hi) : lo ≤ hi := by
  induction cs generalizing lo with
  | nil => exact Nat.le_of_eq h
  | cons c cs ih =>
    obtain ⟨rfl, -, -, h⟩ := h
    exact Nat.le_trans (Nat.le_add_right _ _) (ih h)

/-- What a tiling says about each of its cells. -/
structure Bounds (a : Alignment) (min lo hi : Nat) (c : Cell) : Prop where
  lo_le : lo ≤ c.offset
  next_le : c.next ≤ hi
  min_le : min ≤ c.size
  size_mod : c.size % a.bytes = 0
  offset_mod : lo % a.bytes = 0 → c.offset % a.bytes = 0

theorem bounds (h : Tiled a min lo cs hi) (hc : c ∈ cs) : Bounds a min lo hi c := by
  induction cs generalizing lo with
  | nil => cases hc
  | cons d cs ih =>
    obtain ⟨rfl, h1, h2, h3⟩ := h
    rcases List.mem_cons.mp hc with rfl | hc
    · exact ⟨Nat.le_refl _, h3.le, h2, h1, id⟩
    · obtain ⟨b1, b2, b3, b4, b5⟩ := ih h3 hc
      refine ⟨Nat.le_trans (Nat.le_add_right _ _) b1, b2, b3, b4, fun h0 => b5 ?_⟩
      rw [Cell.next, Nat.add_mod, h0, h1, Nat.zero_add, Nat.zero_mod]

/-- A cell ends before every cell behind it begins. -/
theorem next_le_of_mem_back (h : Tiled a min lo (pre ++ c :: post) hi) (hd : d ∈ post) :
    c.next ≤ d.offset :=
  ((tiled_middle.mp h).2.2.2.bounds hd).lo_le

/-- Every cell in front of a cell ends before that one begins. -/
theorem next_le_of_mem_front (h : Tiled a min lo (pre ++ c :: post) hi) (hd : d ∈ pre) :
    d.next ≤ c.offset :=
  ((tiled_middle.mp h).1.bounds hd).next_le

/-- **Two cells of a tiling are the same or lie apart.** -/
theorem apart (h : Tiled a min lo cs hi) (hc : c ∈ cs) (hd : d ∈ cs) :
    c = d ∨ c.next ≤ d.offset ∨ d.next ≤ c.offset := by
  obtain ⟨pre, post, rfl⟩ := List.append_of_mem hc
  rcases List.mem_append.mp hd with hd | hd
  · exact .inr (.inr (h.next_le_of_mem_front hd))
  · rcases List.mem_cons.mp hd with rfl | hd
    · exact .inl rfl
    · exact .inr (.inl (h.next_le_of_mem_back hd))

/-- A cell of a tiling is named by its offset. -/
theorem eq_of_offset (h : Tiled a min lo cs hi) (hmin : 0 < min) (hc : c ∈ cs) (hd : d ∈ cs)
    (e : c.offset = d.offset) : c = d := by
  have h1 := (h.bounds hc).min_le
  have h2 := (h.bounds hd).min_le
  rcases h.apart hc hd with h3 | h3
  · exact h3
  · unfold Cell.next at h3
    omega

/-- No address belongs to two cells of a tiling. -/
theorem eq_of_covers {base x : Nat} (h : Tiled a min lo cs hi) (hc : c ∈ cs) (hd : d ∈ cs)
    (hcx : c.Covers base x) (hdx : d.Covers base x) : c = d := by
  unfold Cell.Covers at hcx hdx
  rcases h.apart hc hd with e | h1 | h1
  · exact e
  · omega
  · omega

/-- Offsets grow along a tiling. -/
theorem pairwise_offset (h : Tiled a min lo cs hi) (hmin : 0 < min) :
    cs.Pairwise fun c d => c.offset < d.offset := by
  induction cs generalizing lo with
  | nil => exact .nil
  | cons c cs ih =>
    obtain ⟨rfl, -, h1, h2⟩ := h
    refine List.pairwise_cons.mpr ⟨fun d hd => ?_, ih h2⟩
    have h3 := (h2.bounds hd).lo_le
    unfold Cell.next at h3
    omega

/-- A tiling has no more cells than fit into its range. -/
theorem length_mul_le (h : Tiled a min lo cs hi) : cs.length * min ≤ hi - lo := by
  induction cs generalizing lo with
  | nil => simp
  | cons c cs ih =>
    obtain ⟨rfl, -, h1, h2⟩ := h
    have h3 := ih h2
    have h4 := h2.le
    rw [List.length_cons, Nat.succ_mul]
    unfold Cell.next at h3 h4
    omega

/-- Whether its cells are in use is of no concern to a tiling. -/
theorem flag (h : Tiled a min lo (pre ++ c :: post) hi) (used : Bool) :
    Tiled a min lo (pre ++ { c with used := used } :: post) hi := by
  obtain ⟨h1, h2, h3, h4⟩ := tiled_middle.mp h
  exact tiled_middle.mpr ⟨h1, h2, h3, h4⟩

/-- The two parts of a cell tile as well as the cell. -/
theorem split {keep : Nat} (h : Tiled a min lo (pre ++ c :: post) hi) (hmod : keep % a.bytes = 0)
    (hmin : min ≤ keep) (hrest : min ≤ c.size - keep) (hpos : 0 < min) :
    Tiled a min lo (pre ++ ⟨c.offset, keep, true⟩ :: ⟨c.offset + keep, c.size - keep, false⟩ :: post)
      hi := by
  obtain ⟨hpre, hcmod, -, hpost⟩ := tiled_middle.mp h
  have hrestmod : (c.size - keep) % a.bytes = 0 :=
    Nat.mod_eq_zero_of_dvd
      (Nat.dvd_sub (Nat.dvd_of_mod_eq_zero hcmod) (Nat.dvd_of_mod_eq_zero hmod))
  have hend : (⟨c.offset + keep, c.size - keep, false⟩ : Cell).next = c.next := by
    show c.offset + keep + (c.size - keep) = c.offset + c.size
    omega
  exact tiled_middle.mpr ⟨hpre, hmod, hmin, rfl, hrestmod, hrest, hend ▸ hpost⟩

end Tiled

end

/-! ## 2. The cell at an offset -/

/-- A cell of a layout, with the cells in front of it and those behind it. -/
structure Focus where
  /-- The cells in front, in address order. -/
  front : List Cell
  /-- The cell looked at. -/
  cell : Cell
  /-- The cells behind, in address order. -/
  back : List Cell
  deriving DecidableEq, Repr

/-- Looks for the cell at an offset. -/
def focus? (off : Nat) : List Cell → Option Focus
  | [] => none
  | c :: cs =>
    if c.offset = off then
      some ⟨[], c, cs⟩
    else
      (focus? off cs).map fun f => { f with front := c :: f.front }

section

variable {a : Alignment} {min lo hi off : Nat} {c : Cell} {cs pre post : List Cell}

theorem focus?_eq_none_iff : focus? off cs = none ↔ ∀ c ∈ cs, c.offset ≠ off := by
  induction cs with
  | nil => simp [focus?]
  | cons c cs ih =>
    by_cases h : c.offset = off
    · simp [focus?, h]
    · simp [focus?, h, ih]

/-- What is found lies at the offset and is part of the layout. -/
theorem eq_of_focus? {f : Focus} (h : focus? off cs = some f) :
    cs = f.front ++ f.cell :: f.back ∧ f.cell.offset = off := by
  induction cs generalizing f with
  | nil => cases h
  | cons c cs ih =>
    by_cases hc : c.offset = off
    · rw [focus?, if_pos hc] at h
      cases h
      exact ⟨rfl, hc⟩
    · rw [focus?, if_neg hc] at h
      obtain ⟨g, hg, rfl⟩ := Option.map_eq_some_iff.mp h
      obtain ⟨h1, h2⟩ := ih hg
      exact ⟨by rw [h1, List.cons_append], h2⟩

/-- **In a tiling the search comes to each cell** at the cell's offset. -/
theorem focus?_append_cons (h : Tiled a min lo (pre ++ c :: post) hi) (hmin : 0 < min) :
    focus? c.offset (pre ++ c :: post) = some ⟨pre, c, post⟩ := by
  induction pre generalizing lo with
  | nil => rw [List.nil_append, focus?, if_pos rfl]
  | cons d pre ih =>
    have hd : d.offset ≠ c.offset := by
      have h1 := h.next_le_of_mem_front (List.mem_cons_self (a := d) (l := pre))
      have h2 := h.2.2.1
      unfold Cell.next at h1
      omega
    rw [List.cons_append, focus?, if_neg hd, ih h.2.2.2]
    rfl

theorem exists_focus? (h : Tiled a min lo cs hi) (hmin : 0 < min) (hc : c ∈ cs) :
    ∃ f, focus? c.offset cs = some f ∧ f.cell = c := by
  obtain ⟨pre, post, rfl⟩ := List.append_of_mem hc
  exact ⟨_, focus?_append_cons h hmin, rfl⟩

end

/-- The cells in use, in address order. -/
def inUse (cs : List Cell) : List Cell :=
  cs.filter Cell.used

/-- The offsets of the free cells, in address order. -/
def vacant (cs : List Cell) : List Nat :=
  (cs.filter fun c => !c.used).map Cell.offset

section

variable {c d : Cell} {cs front back : List Cell} {x : Nat}

/-! ## 3. Cells in use and free cells -/

@[simp] theorem inUse_nil : inUse [] = [] := rfl

@[simp] theorem inUse_append : inUse (front ++ back) = inUse front ++ inUse back :=
  List.filter_append ..

theorem inUse_cons_of_used (h : c.used = true) : inUse (c :: cs) = c :: inUse cs :=
  List.filter_cons_of_pos h

theorem inUse_cons_of_free (h : c.used = false) : inUse (c :: cs) = inUse cs :=
  List.filter_cons_of_neg (by simp [h])

theorem mem_inUse : c ∈ inUse cs ↔ c ∈ cs ∧ c.used = true :=
  List.mem_filter

@[simp] theorem vacant_nil : vacant [] = [] := rfl

@[simp] theorem vacant_append : vacant (front ++ back) = vacant front ++ vacant back := by
  simp [vacant]

theorem vacant_cons_of_used (h : c.used = true) : vacant (c :: cs) = vacant cs := by
  simp [vacant, h]

theorem vacant_cons_of_free (h : c.used = false) : vacant (c :: cs) = c.offset :: vacant cs := by
  simp [vacant, h]

theorem mem_vacant : x ∈ vacant cs ↔ ∃ c ∈ cs, c.used = false ∧ c.offset = x := by
  simp [vacant, and_assoc]

theorem mem_vacant_append : x ∈ vacant (front ++ back) ↔ x ∈ vacant front ∨ x ∈ vacant back := by
  rw [vacant_append, List.mem_append]

theorem mem_vacant_cons :
    x ∈ vacant (c :: cs) ↔ c.used = false ∧ c.offset = x ∨ x ∈ vacant cs := by
  simp [mem_vacant, or_and_right, exists_or]

theorem length_vacant : (vacant cs).length = cs.countP fun c => !c.used := by
  rw [vacant, List.length_map, List.countP_eq_length_filter]

/-! ## 4. Separated layouts -/

theorem separated_append :
    Separated (front ++ back) ↔ Separated front ∧ Separated back ∧
      ∀ c ∈ front.getLast?, ∀ d ∈ back.head?, c.used = true ∨ d.used = true :=
  List.isChain_append

theorem separated_cons :
    Separated (c :: cs) ↔ (∀ d ∈ cs.head?, c.used = true ∨ d.used = true) ∧ Separated cs :=
  List.isChain_cons

/-- The cells around one in use need not heed it. -/
theorem separated_middle_of_used (h : c.used = true) :
    Separated (front ++ c :: back) ↔ Separated front ∧ Separated back := by
  rw [separated_append, separated_cons]
  constructor
  · intro hboth
    obtain ⟨h1, ⟨-, h2⟩, -⟩ := hboth
    exact ⟨h1, h2⟩
  · intro hboth
    obtain ⟨h1, h2⟩ := hboth
    refine ⟨h1, ⟨fun _ _ => .inl h, h2⟩, fun _ _ d hd => .inr ?_⟩
    cases hd
    exact h

/-- The cells around a free one begin and end with cells in use. -/
theorem separated_middle_of_free (h : c.used = false) :
    Separated (front ++ c :: back) ↔
      (Separated front ∧ ∀ d ∈ front.getLast?, d.used = true) ∧
        (Separated back ∧ ∀ d ∈ back.head?, d.used = true) := by
  rw [separated_append, separated_cons]
  constructor
  · intro hboth
    obtain ⟨h1, ⟨h2, h3⟩, h4⟩ := hboth
    refine ⟨⟨h1, fun d hd => ?_⟩, h3, fun d hd => ?_⟩
    · exact (h4 d hd c rfl).resolve_right (by simp [h])
    · exact (h2 d hd).resolve_left (by simp [h])
  · intro hboth
    obtain ⟨⟨h1, h2⟩, h3, h4⟩ := hboth
    exact ⟨h1, ⟨fun d hd => .inr (h4 d hd), h3⟩, fun d hd _ _ => .inl (h2 d hd)⟩

/-- The cells behind a free one begin with a cell in use. -/
theorem separated_cons_of_free (h : c.used = false) :
    Separated (c :: cs) ↔ Separated cs ∧ ∀ d ∈ cs.head?, d.used = true := by
  rw [separated_cons, and_comm]
  refine and_congr_right fun _ => forall₂_congr fun d _ => ?_
  simp [h]

end

end RegionHeap
