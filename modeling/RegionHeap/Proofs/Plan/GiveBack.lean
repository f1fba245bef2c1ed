import RegionHeap.Proofs.Client.Places

/-!
# Allocations that are given back

A client gives an allocation back when it releases it, or a part of it when it shrinks it. What
becomes of the cell depends on the cell alone, so clients can give back in any order.

* `Plan.remainder` -- what is left of a cell in use;
* `Plan.inUse_giveBack` -- the cells in use after a release or a shrinking resize;
* `Plan.remainder_comm` -- two allocations are given back in either order.
-/

namespace RegionHeap.Plan

variable {a : Alignment} {r : Region a} {s : Strategy} {p : Plan} {f : Focus} {c : Cell}
  {addr addr' n n' : Nat}

/-- What is left of a cell in use after the allocation at `addr` was cut down to `n` bytes, or
    released if there are none. -/
def remainder (r : Region a) (s : Strategy) (addr n : Nat) (c : Cell) : Option Cell :=
  if c.payload r = addr then
    if n = 0 then none
    else (a.blockSize? (s.minPayload a) n).map fun need =>
      { c with size := keptSize a s need c.size }
  else some c

theorem remainder_of_ne (h : c.payload r ≠ addr) : remainder r s addr n c = some c :=
  if_neg h

/-- What is left of a cell has the payload where it was. -/
theorem payload_of_mem_remainder {d : Cell} (h : d ∈ remainder r s addr n c) :
    d.payload r = c.payload r := by
  unfold remainder at h
  split at h
  · split at h
    · cases h
    · obtain ⟨need, -, rfl⟩ := Option.map_eq_some_iff.mp h
      rfl
  · cases h
    rfl

/-- **Two allocations are given back in either order.** -/
theorem remainder_comm (hne : addr ≠ addr') :
    (remainder r s addr n c).bind (remainder r s addr' n') =
      (remainder r s addr' n' c).bind (remainder r s addr n) := by
  by_cases h : c.payload r = addr
  · have h' : c.payload r ≠ addr' := h ▸ hne
    rw [remainder_of_ne h', Option.bind_some]
    cases hd : remainder r s addr n c with
    | none => rfl
    | some d => exact remainder_of_ne (payload_of_mem_remainder hd ▸ h')
  · rw [remainder_of_ne h, Option.bind_some]
    cases hd : remainder r s addr' n' c with
    | none => rfl
    | some d => exact (remainder_of_ne (payload_of_mem_remainder hd ▸ h)).symm

/-- Cells at other addresses are left as they are. -/
theorem filterMap_remainder_of_ne {us : List Cell} (h : ∀ c ∈ us, c.payload r ≠ addr) :
    us.filterMap (remainder r s addr n) = us := by
  rw [List.filterMap_congr fun c hc => remainder_of_ne (h c hc)]
  exact List.filterMap_some

/-- Of the cells in use, only the one at the address changes. -/
theorem filterMap_remainder (ht : Tiled a (s.minBlock a) 0 p.cells r.size)
    (hf : p.live? r addr = some f) :
    (inUse p.cells).filterMap (remainder r s addr n) =
      inUse f.front ++ ((remainder r s addr n f.cell).toList ++ inUse f.back) := by
  obtain ⟨hcells, hused, -⟩ := live?_eq_some hf
  have hsides : ∀ c ∈ inUse f.front ++ inUse f.back, c.payload r ≠ addr := fun c hc e =>
    (mem_others.mp ((mem_others_iff_sides ht hf).mpr hc)).2 (congrArg some e.symm)
  rw [hcells, inUse_append, inUse_cons_of_used hused, List.filterMap_append,
    filterMap_remainder_of_ne fun c hc => hsides c (List.mem_append_left _ hc), List.filterMap_cons,
    filterMap_remainder_of_ne fun c hc => hsides c (List.mem_append_right _ hc)]
  cases remainder r s addr n f.cell <;> rfl

/-- **The cells in use after an allocation was given back**, or cut down to bytes that it has. -/
theorem inUse_giveBack (ht : Tiled a (s.minBlock a) 0 p.cells r.size)
    (hfit : ∀ c ∈ inUse p.cells, c.payload r = addr → n + a.bytes ≤ c.size) :
    inUse (p.resize r s (some addr) n).2.cells =
      (inUse p.cells).filterMap (remainder r s addr n) := by
  cases hf : p.live? r addr with
  | none =>
    have hother : ∀ c ∈ inUse p.cells, c.payload r ≠ addr := fun c hc e => by
      rw [← others_of_dead ht hf] at hc
      exact (mem_others.mp hc).2 (congrArg some e.symm)
    rw [filterMap_remainder_of_ne hother]
    by_cases hn : n = 0
    · simp only [resize, release, if_pos hn, hf]
    · simp only [resize, if_neg hn, hf]
  | some f =>
    rw [filterMap_remainder ht hf]
    obtain ⟨hmem, hpayload⟩ := live?_mem hf
    have hfit := hfit f.cell hmem hpayload.symm
    unfold resize release remainder
    rw [if_pos hpayload.symm]
    by_cases hn : n = 0
    · simp only [if_pos hn, hf, inUse_free]
      rfl
    · have hb := ht.bounds (mem_inUse.mp hmem).1
      obtain ⟨need, hneed, hle⟩ :=
        Strategy.blockSize?_of_le hn hfit hb.size_mod hb.min_le (Cell.size_lt hb.next_le)
      have hused : f.cell.used = true := (mem_inUse.mp hmem).2
      simp only [if_neg hn, hf, hneed, refit, if_pos hle, inUse_splitTail, Option.map_some, hused]
      rfl

end RegionHeap.Plan
