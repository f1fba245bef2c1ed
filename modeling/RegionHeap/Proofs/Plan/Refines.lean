import RegionHeap.Proofs.Plan.Effects

/-!
# Refined layouts

A scanning heap never merges: what its operations do to a layout is to cut cells in two. Where a cell
began once, a cell begins from then on, so every cell lies in one of the cells that there were before.

* `Refines` -- where a cell begins in the first layout, one begins in the second;
* `Refines.exists_within`, `Refines.size_lt` -- the cells of a refined tiling lie in those of the other;
* `Plan.refines_splitTail`, `Plan.refines_allocate`, `Plan.refines_release`, `Plan.refines_resize` --
  the operations of a scanning heap refine its layout;
* `Plan.allocate_none_iff` -- when an allocation comes to nothing.
-/

namespace RegionHeap

/-- Where a cell begins in the first layout, one begins in the second. -/
def Refines (cs cs' : List Cell) : Prop :=
  ∀ c ∈ cs, ∃ c' ∈ cs', c'.offset = c.offset

variable {a : Alignment} {min lo hi x : Nat} {c c' : Cell} {cs cs' cs'' front back : List Cell}

/-! ## 1. Layouts -/

namespace Refines

theorem refl (cs : List Cell) : Refines cs cs := fun c hc => ⟨c, hc, rfl⟩

theorem trans (h : Refines cs cs') (h' : Refines cs' cs'') : Refines cs cs'' := by
  intro c hc
  obtain ⟨c', hc', hoff⟩ := h c hc
  obtain ⟨c'', hc'', hoff'⟩ := h' c' hc'
  exact ⟨c'', hc'', hoff'.trans hoff⟩

/-- A cell gives way to another one that begins where it does. -/
theorem replace (h : c'.offset = c.offset) : Refines (front ++ c :: back) (front ++ c' :: back) := by
  intro d hd
  rcases List.mem_append.mp hd with hd | hd
  · exact ⟨d, List.mem_append_left _ hd, rfl⟩
  · rcases List.mem_cons.mp hd with rfl | hd
    · exact ⟨c', List.mem_append_right _ List.mem_cons_self, h⟩
    · exact ⟨d, List.mem_append_right _ (List.mem_cons_of_mem c' hd), rfl⟩

/-- A cell comes between others. -/
theorem insert (front : List Cell) (c : Cell) (back : List Cell) :
    Refines (front ++ back) (front ++ c :: back) := by
  intro d hd
  rcases List.mem_append.mp hd with hd | hd
  · exact ⟨d, List.mem_append_left _ hd, rfl⟩
  · exact ⟨d, List.mem_append_right _ (List.mem_cons_of_mem c hd), rfl⟩

end Refines

/-- Every place of a tiling lies in one of its cells. -/
theorem Tiled.exists_covering (h : Tiled a min lo cs hi) (hlo : lo ≤ x) (hhi : x < hi) :
    ∃ c ∈ cs, c.offset ≤ x ∧ x < c.next := by
  induction cs generalizing lo with
  | nil =>
    have he : lo = hi := h
    omega
  | cons c cs ih =>
    obtain ⟨rfl, -, -, h⟩ := h
    rcases Nat.lt_or_ge x c.next with hx | hx
    · exact ⟨c, List.mem_cons_self, hlo, hx⟩
    · obtain ⟨d, hd, hspan⟩ := ih h hx
      exact ⟨d, List.mem_cons_of_mem c hd, hspan⟩

/-- Behind a cell of a tiling begins another one, or it is the last. -/
theorem Tiled.next_eq (h : Tiled a min lo cs hi) (hc : c ∈ cs) :
    c.next = hi ∨ ∃ d ∈ cs, d.offset = c.next := by
  obtain ⟨front, back, rfl⟩ := List.append_of_mem hc
  obtain ⟨-, -, -, hback⟩ := tiled_middle.mp h
  cases back with
  | nil => exact .inl hback
  | cons d back =>
    refine .inr ⟨d, List.mem_append_right _ ?_, hback.1⟩
    exact List.mem_cons_of_mem c List.mem_cons_self

namespace Refines

/-- **A cell of a refined tiling lies in a cell of the other one.** -/
theorem exists_within (h : Refines cs cs') (ht : Tiled a min lo cs hi) (ht' : Tiled a min lo cs' hi)
    (hmin : 0 < min) (hc' : c' ∈ cs') : ∃ c ∈ cs, c.offset ≤ c'.offset ∧ c'.next ≤ c.next := by
  have hb' := ht'.bounds hc'
  have hsize' := hb'.min_le
  have hnext' := hb'.next_le
  have hpos' : c'.offset < c'.next := by
    unfold Cell.next
    omega
  obtain ⟨c, hc, hoff, hlt⟩ := ht.exists_covering hb'.lo_le (Nat.lt_of_lt_of_le hpos' hnext')
  refine ⟨c, hc, hoff, ?_⟩
  rcases ht.next_eq hc with hend | ⟨d, hd, hdoff⟩
  · rw [hend]
    exact hnext'
  · -- a cell of the refined tiling begins where `c` ends, and it lies apart from `c'`
    obtain ⟨d', hd', hdoff'⟩ := h d hd
    have hdsize := (ht'.bounds hd').min_le
    rcases ht'.apart hc' hd' with rfl | hapart | hapart
    · omega
    · omega
    · unfold Cell.next at hapart
      omega

/-- Cells that are all too small stay so. -/
theorem size_lt {need : Nat} (h : Refines cs cs') (ht : Tiled a min lo cs hi)
    (ht' : Tiled a min lo cs' hi) (hmin : 0 < min) (hsmall : ∀ c ∈ cs, c.size < need) :
    ∀ c' ∈ cs', c'.size < need := by
  intro c' hc'
  obtain ⟨c, hc, hoff, hnext⟩ := h.exists_within ht ht' hmin hc'
  have hlt := hsmall c hc
  unfold Cell.next at hnext
  omega

end Refines

namespace Plan

variable {s : Strategy} {r : Region a} {f : Focus} {p p' : Plan} {order : List Nat}
  {keep need off addr n : Nat} {addr? : Option Nat}

/-! ## 2. Edits and operations of a scanning heap -/

theorem refines_splitTail :
    Refines (f.front ++ f.cell :: f.back) (splitTail a .scan keep f order).cells := by
  unfold splitTail
  split
  · exact .replace rfl
  · have hkept : Refines (f.front ++ f.cell :: f.back)
        (f.front ++ [⟨f.cell.offset, keep, true⟩] ++ f.back) := by
      rw [List.append_assoc]
      exact .replace rfl
    exact hkept.trans (.insert _ _ _)

theorem refines_free : Refines (f.front ++ f.cell :: f.back) (free .scan f order).cells :=
  .replace rfl

/-- What serves a request is a cell of the layout. -/
theorem cells_of_fit? (h : p.fit? s need = some f) : p.cells = f.front ++ f.cell :: f.back := by
  cases s with
  | scan =>
    obtain ⟨c, -, hf⟩ := Option.bind_eq_some_iff.mp h
    exact (eq_of_focus? hf).1
  | list =>
    obtain ⟨x, -, hf⟩ := Option.bind_eq_some_iff.mp h
    exact (eq_of_focus? hf).1

theorem refines_carve? (h : p.carve? a .scan need = some (off, p')) :
    Refines p.cells p'.cells := by
  obtain ⟨f, hf, hp⟩ := Option.map_eq_some_iff.mp h
  cases hp
  rw [cells_of_fit? hf]
  exact refines_splitTail

/-- **An allocation refines the layout.** -/
theorem refines_allocate : Refines p.cells (p.allocate r .scan n).2.cells := by
  unfold allocate
  split
  · exact .refl _
  · rename_i off p' h
    obtain ⟨need, -, hcarve⟩ := Option.bind_eq_some_iff.mp h
    exact refines_carve? hcarve

/-- **A release refines the layout.** -/
theorem refines_release : Refines p.cells (p.release r .scan addr).cells := by
  unfold release
  split
  · exact .refl _
  · rename_i f hf
    rw [(live?_eq_some hf).1]
    exact refines_free

theorem refines_refit (hcells : p.cells = f.front ++ f.cell :: f.back) :
    Refines p.cells (p.refit r .scan addr need f).2.cells := by
  unfold refit
  split
  · rw [hcells]
    exact refines_splitTail
  · show Refines p.cells (p.relocate r .scan addr need).2.cells
    unfold relocate
    split
    · exact .refl _
    · rename_i hcarve
      exact (refines_carve? hcarve).trans refines_release

/-- **A change of size refines the layout**, in place or not. -/
theorem refines_resize : Refines p.cells (p.resize r .scan addr? n).2.cells := by
  unfold resize
  split
  · exact refines_allocate
  · split
    · exact refines_release
    · split
      · rename_i f need hf _
        exact refines_refit (live?_eq_some hf).1
      · exact .refl _

/-! ## 3. Allocations that come to nothing -/

/-- No block is carved if all cells are in use or too small. -/
theorem carve?_eq_none_iff :
    p.carve? a .scan need = none ↔ ∀ c ∈ p.cells, c.used = true ∨ c.size < need := by
  rw [carve?_eq_none_iff_find?, List.find?_eq_none]
  refine forall₂_congr fun c _ => ?_
  cases c.used <;> simp

/-- **An allocation comes to nothing** if and only if its size is more than a word can say, or all
    cells are in use or too small. -/
theorem allocate_none_iff :
    (p.allocate r .scan n).1 = none ↔
      ∀ need, a.blockSize? (Strategy.scan.minPayload a) n = some need →
        ∀ c ∈ p.cells, c.used = true ∨ c.size < need := by
  have hnone : (p.allocate r .scan n).1 = none ↔
      ((a.blockSize? (Strategy.scan.minPayload a) n).bind fun need => p.carve? a .scan need) =
        none := by
    unfold allocate
    split <;> simp_all
  rw [hnone, Option.bind_eq_none_iff]
  exact forall₂_congr fun need _ => carve?_eq_none_iff

end Plan

end RegionHeap
