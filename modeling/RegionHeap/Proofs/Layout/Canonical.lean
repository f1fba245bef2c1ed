import RegionHeap.Proofs.Layout.Cell

/-!
# Layouts are determined by the cells in use

Where no two neighbours are free, each gap between cells in use is a single free cell. So there is one
layout only for the cells in use, however they came to lie there.

* `Tiled.eq_of_inUse_eq` -- two layouts of a range with the same cells in use are the same;
* `Tiled.inUse_eq_of_mem_iff` -- the set of the cells in use says in which order they lie;
* `Tiled.eq_singleton` -- with no cell in use there is one free cell.
-/

namespace RegionHeap

variable {a : Alignment} {min lo hi : Nat} {c d : Cell} {cs ds : List Cell}

/-- A range with a cell is not empty. -/
theorem Tiled.lt_of_cons (h : Tiled a min lo (c :: cs) hi) (hmin : 0 < min) : lo < hi := by
  have hb := h.bounds List.mem_cons_self
  have h1 := hb.lo_le
  have h2 := hb.next_le
  have h3 := hb.min_le
  unfold Cell.next at h2
  omega

/-- No cell but the first one begins where the layout does. -/
theorem Tiled.lt_offset_of_mem (h : Tiled a min lo (c :: cs) hi) (hmin : 0 < min) (hd : d ∈ cs) :
    lo < d.offset := by
  obtain ⟨rfl, -, hsize, hrest⟩ := h
  have hle := (hrest.bounds hd).lo_le
  unfold Cell.next at hle
  omega

/-- In a layout that begins with a free cell, that cell ends where the first cell in use begins, or
    at the end of the range. -/
theorem Tiled.next_eq_of_free (h : Tiled a min lo (c :: cs) hi) (hsep : Separated (c :: cs))
    (hfree : c.used = false) : c.next = ((inUse cs).head?.map Cell.offset).getD hi := by
  obtain ⟨-, -, -, hrest⟩ := h
  cases cs with
  | nil => exact hrest
  | cons d cs =>
    have hd : d.used = true := ((separated_cons_of_free hfree).mp hsep).2 d rfl
    rw [inUse_cons_of_used hd]
    exact hrest.1.symm

/-- **A layout is determined by its cells in use**, as long as no two neighbours are free. -/
theorem Tiled.eq_of_inUse_eq (hcs : Tiled a min lo cs hi) (hds : Tiled a min lo ds hi)
    (hmin : 0 < min) (hsepc : Separated cs) (hsepd : Separated ds) (h : inUse cs = inUse ds) :
    cs = ds := by
  induction cs generalizing lo ds with
  | nil =>
    cases ds with
    | nil => rfl
    | cons d ds => exact absurd hcs (Nat.ne_of_lt (hds.lt_of_cons hmin))
  | cons c cs ih =>
    cases ds with
    | nil => exact absurd hds (Nat.ne_of_lt (hcs.lt_of_cons hmin))
    | cons d ds =>
      -- the rest follows by induction once the first cells are the same
      suffices hfirst : c = d ∧ inUse cs = inUse ds by
        obtain ⟨rfl, hrest⟩ := hfirst
        rw [ih hcs.2.2.2 hds.2.2.2 (separated_cons.mp hsepc).2 (separated_cons.mp hsepd).2 hrest]
      cases hc : c.used with
      | true =>
        rw [inUse_cons_of_used hc] at h
        cases hd : d.used with
        | true =>
          rw [inUse_cons_of_used hd] at h
          exact List.cons.inj h
        | false =>
          rw [inUse_cons_of_free hd] at h
          have hmem : c ∈ ds := (mem_inUse.mp (h ▸ List.mem_cons_self)).1
          exact absurd hcs.1 (Nat.ne_of_gt (hds.lt_offset_of_mem hmin hmem))
      | false =>
        rw [inUse_cons_of_free hc] at h
        cases hd : d.used with
        | true =>
          rw [inUse_cons_of_used hd] at h
          have hmem : d ∈ cs := (mem_inUse.mp (h ▸ List.mem_cons_self)).1
          exact absurd hds.1 (Nat.ne_of_gt (hcs.lt_offset_of_mem hmin hmem))
        | false =>
          rw [inUse_cons_of_free hd] at h
          have hnext : c.next = d.next := by
            rw [hcs.next_eq_of_free hsepc hc, hds.next_eq_of_free hsepd hd, h]
          have hoff : c.offset = d.offset := hcs.1.trans hds.1.symm
          have hsize : c.size = d.size := by
            unfold Cell.next at hnext
            omega
          refine ⟨?_, h⟩
          rw [Cell.mk.injEq]
          exact ⟨hoff, hsize, hc.trans hd.symm⟩

/-- **The cells in use lie in the order of their offsets**, so their set determines their list. -/
theorem Tiled.inUse_eq_of_mem_iff (hcs : Tiled a min lo cs hi) (hds : Tiled a min lo ds hi)
    (hmin : 0 < min) (h : ∀ c, c ∈ inUse cs ↔ c ∈ inUse ds) : inUse cs = inUse ds := by
  have hsortc := (hcs.pairwise_offset hmin).filter Cell.used
  have hsortd := (hds.pairwise_offset hmin).filter Cell.used
  have hperm : (inUse cs).Perm (inUse ds) :=
    (List.perm_ext_iff_of_nodup (hsortc.imp fun hlt e => absurd (e ▸ hlt) (Nat.lt_irrefl _))
      (hsortd.imp fun hlt e => absurd (e ▸ hlt) (Nat.lt_irrefl _))).mpr h
  exact hperm.eq_of_pairwise (fun c d _ _ h1 h2 => absurd h1 (Nat.lt_asymm h2)) hsortc hsortd

/-- A layout without a cell in use is a single free cell. -/
theorem Tiled.eq_singleton (h : Tiled a min 0 cs hi) (hsep : Separated cs) (hmin : 0 < min)
    (hmod : hi % a.bytes = 0) (hle : min ≤ hi) (hnone : inUse cs = []) : cs = [⟨0, hi, false⟩] := by
  have hsingle : Tiled a min 0 [⟨0, hi, false⟩] hi := ⟨rfl, hmod, hle, Nat.zero_add hi⟩
  exact h.eq_of_inUse_eq hsingle hmin hsep (List.isChain_singleton _) hnone

end RegionHeap
