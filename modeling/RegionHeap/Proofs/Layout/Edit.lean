import RegionHeap.Proofs.Layout.Laid

/-!
# Edits of a layout in memory

A layout is edited by replacing a stretch of its cells by another stretch that covers the same
range. The cells around it do not notice, as long as nothing is written outside the range.

* `Spare` -- the addresses of a region that none of the given cells lays claim to;
* `Laid.edit` -- any change inside the range that leaves the headers of the new stretch there;
* `Laid.setHeader` -- one header is written, and a single cell takes the place of the stretch;
* `Laid.setHeaders` -- two headers are written, and two cells take its place;
* `Laid.split` -- a cell is cut in two, and the payload that it keeps is left alone;
* `ClientBytes`, `Laid.congr_of_client` -- what clients may write is of no concern to the layout.
-/

namespace RegionHeap.Region

variable {a : Alignment} {r : Region a} {m m' : Memory} {s : Strategy} {lo hi keep : Nat}
  {c d : Cell} {cs front mid mid' back : List Cell} {T : Nat → Prop} {x : Nat}

/-- The address lies in the region, but in none of the given cells. -/
def Spare (r : Region a) (us : List Cell) (x : Nat) : Prop :=
  Memory.Between r.base (r.base + r.size) x ∧ ∀ c ∈ us, ¬ c.Covers r.base x

/-- The address belongs to the header of a cell. -/
def HeaderBytes (r : Region a) (c : Cell) (x : Nat) : Prop :=
  Memory.Between (r.base + c.offset) (r.base + c.offset + Word.size) x

/-- The address is one of the payload bytes of a cell that lie among its first `k` bytes. -/
def Kept (r : Region a) (c : Cell) (k x : Nat) : Prop :=
  Memory.Between (c.payload r) (r.base + c.offset + k) x

/-- The address belongs to the client: it lies outside the region, or in the payload of a cell in
    use. -/
def ClientBytes (r : Region a) (cs : List Cell) (x : Nat) : Prop :=
  ¬ Memory.Between r.base (r.base + r.size) x ∨
    ∃ c ∈ inUse cs, Memory.Between (c.payload r) (r.base + c.next) x

/-- The header of a cell is no part of its payload. -/
theorem not_kept_of_headerBytes {k : Nat} (hx : r.HeaderBytes c x) : ¬ r.Kept c k x := by
  have h1 := a.wordSize_le_bytes
  intro hk
  have h2 := hx.2
  have h3 := hk.1
  unfold Cell.payload at h3
  omega

/-- A change that leaves the first bytes of a payload alone carries them along. -/
theorem carries_of_kept {k n : Nat} (hm : Memory.AgreeOutside (fun x => T x ∧ ¬ r.Kept c k x) m m')
    (hn : n + a.bytes ≤ k) : Memory.Carries m m' (c.payload r) (c.payload r) n := by
  refine hm.carries fun x h1 h2 hx => hx.2 ⟨h1, ?_⟩
  unfold Cell.payload at h2
  omega

theorem Spare.mono {us vs : List Cell} (h : r.Spare us x) (hsub : ∀ c ∈ vs, c ∈ us) :
    r.Spare vs x :=
  ⟨h.1, fun c hc => h.2 c (hsub c hc)⟩

/-- The bytes of a cell are spare for all others. -/
theorem spare_of_covers {min : Nat} (ht : Tiled a min 0 (front ++ c :: back) r.size)
    (hx : c.Covers r.base x) : r.Spare (inUse front ++ inUse back) x := by
  have hb := ht.bounds (List.mem_append_right front (List.mem_cons_self (a := c) (l := back)))
  unfold Cell.Covers at hx
  refine ⟨?_, fun d hd hdx => ?_⟩
  · have h1 := hb.next_le
    unfold Memory.Between
    omega
  · unfold Cell.Covers at hdx
    rcases List.mem_append.mp hd with hd | hd
    · have h1 := ht.next_le_of_mem_front (mem_inUse.mp hd).1
      omega
    · have h1 := ht.next_le_of_mem_back (mem_inUse.mp hd).1
      omega

/-- The bytes of a free cell are spare for the cells in use. -/
theorem spare_of_free {min : Nat} (ht : Tiled a min 0 cs r.size) (hc : c ∈ cs)
    (hfree : c.used = false) (hx : c.Covers r.base x) : r.Spare (inUse cs) x := by
  obtain ⟨front, back, rfl⟩ := List.append_of_mem hc
  rw [inUse_append, inUse_cons_of_free hfree]
  exact spare_of_covers ht hx

namespace Laid

/-- The header word of a cell lies inside the cell. -/
theorem covers_of_headerBytes (h : r.Laid s m cs) (hc : c ∈ cs) (hx : r.HeaderBytes c x) :
    c.Covers r.base x := by
  have h1 := (h.bounds hc).min_le
  have h2 := s.bytes_le_minBlock (a := a)
  have h3 := a.wordSize_le_bytes
  unfold HeaderBytes Memory.Between at hx
  unfold Cell.Covers Cell.next
  omega

/-- No address belongs to two cells. -/
theorem eq_of_covers (h : r.Laid s m cs) (hc : c ∈ cs) (hd : d ∈ cs) (hcx : c.Covers r.base x)
    (hdx : d.Covers r.base x) : c = d :=
  h.tiled.eq_of_covers hc hd hcx hdx

/-- A layout stays in memory as long as no header is touched. -/
theorem frame (h : r.Laid s m cs) (hm : Memory.AgreeOutside T m m')
    (hT : ∀ c ∈ cs, ∀ x, r.HeaderBytes c x → ¬ T x) : r.Laid s m' cs :=
  h.congr fun c hc => hm.readWord fun x h1 h2 => hT c hc x ⟨h1, h2⟩

/-- A cell lies inside the region, and in no payload but its own. -/
theorem not_clientBytes (h : r.Laid s m cs) (hd : d ∈ cs) (hdx : d.Covers r.base x)
    (hown : d.used = true → x < d.payload r) : ¬ r.ClientBytes cs x := by
  intro hmem
  rcases hmem with hout | ⟨c, hc, h1, h2⟩
  · refine hout ?_
    have h3 := (h.bounds hd).next_le
    unfold Cell.Covers at hdx
    unfold Memory.Between
    omega
  · obtain ⟨hc, hu⟩ := mem_inUse.mp hc
    have hcx : c.Covers r.base x := by
      unfold Cell.payload at h1
      unfold Cell.Covers
      omega
    have e := h.eq_of_covers hc hd hcx hdx
    subst e
    exact absurd (hown hu) (Nat.not_lt.mpr h1)

/-- **What clients write is of no concern to the layout.** -/
theorem congr_of_client (h : r.Laid s m cs) (hm : Memory.AgreeOutside (r.ClientBytes cs) m m') :
    r.Laid s m' cs := by
  refine h.frame hm fun d hd x hx => h.not_clientBytes hd (h.covers_of_headerBytes hd hx) fun _ => ?_
  have hword := a.wordSize_le_bytes
  unfold HeaderBytes Memory.Between at hx
  unfold Cell.payload
  omega

/-! ## 1. A stretch for a stretch -/

/-- **A stretch of a layout is replaced** by one that covers the same range. -/
theorem edit (mid mid' : List Cell) (h : r.Laid s m (front ++ (mid ++ back)))
    (hfront : Tiled a (s.minBlock a) 0 front lo) (hmid : Tiled a (s.minBlock a) lo mid' hi)
    (hback : Tiled a (s.minBlock a) hi back r.size) (hm : Memory.AgreeOutside T m m')
    (hT : ∀ x, T x → Memory.Between (r.base + lo) (r.base + hi) x) (hholds : r.Holds m' mid') :
    r.Laid s m' (front ++ (mid' ++ back)) := by
  have hmin := s.bytes_le_minBlock (a := a)
  have hword := a.wordSize_le_bytes
  constructor
  · exact tiled_append.mpr ⟨lo, hfront, tiled_append.mpr ⟨hi, hmid, hback⟩⟩
  · intro c hc
    rcases List.mem_append.mp hc with hc | hc
    · have hb := hfront.bounds hc
      have hold := h.holds c (List.mem_append_left _ hc)
      rw [← hold]
      refine hm.readWord fun x h1 h2 hx => ?_
      have h3 := (hT x hx).1
      have h4 := hb.next_le
      have h5 := hb.min_le
      unfold Cell.next at h4
      omega
    · rcases List.mem_append.mp hc with hc | hc
      · exact hholds c hc
      · have hb := hback.bounds hc
        have hold := h.holds c (List.mem_append_right _ (List.mem_append_right _ hc))
        rw [← hold]
        refine hm.readWord fun x h1 h2 hx => ?_
        have h3 := (hT x hx).2
        have h4 := hb.lo_le
        omega

/-! ## 2. Headers that are written -/

/-- The header that was written is read back. -/
theorem readWord_writeHeader (m : Memory) (hend : c.next ≤ r.size) :
    (m.writeWord (r.base + c.offset) (c.header a).raw).readWord (r.base + c.offset) =
      (c.header a).raw := by
  exact Memory.readWord_writeWord (Header.raw_ofSize_lt _ (Cell.size_lt hend))

/-- **One header is written**, and a single cell takes the place of a stretch. -/
theorem setHeader (mid : List Cell) (h : r.Laid s m (front ++ (mid ++ back)))
    (ht : Tiled a (s.minBlock a) 0 (front ++ c :: back) r.size) :
    ∃ m', r.setHeader m c.offset (.ofSize c.size c.used) = .ok m' ∧
      r.Laid s m' (front ++ c :: back) ∧ Memory.AgreeOutside (r.HeaderBytes c) m m' := by
  have hc : c ∈ front ++ c :: back := List.mem_append_right _ List.mem_cons_self
  have hb := ht.bounds hc
  obtain ⟨hfront, hmod, hmin, hback⟩ := tiled_middle.mp ht
  refine ⟨_, setHeader_eq_ok (ht.isHeaderOffset hc).hasWord, ?_,
    Memory.agreeOutside_writeWord m _ _⟩
  refine h.edit mid [c] hfront ⟨rfl, hmod, hmin, rfl⟩ hback
    (Memory.agreeOutside_writeWord m (r.base + c.offset) (c.header a).raw) (fun x hx => ?_)
    fun d hd => ?_
  · have h1 := s.bytes_le_minBlock (a := a)
    have h2 := a.wordSize_le_bytes
    unfold Memory.Between at hx ⊢
    unfold Cell.next
    omega
  · rw [List.mem_singleton.mp hd]
    exact readWord_writeHeader m hb.next_le

/-- **Two headers are written**, and two cells take the place of a stretch. -/
theorem setHeaders (mid : List Cell) (h : r.Laid s m (front ++ (mid ++ back)))
    (ht : Tiled a (s.minBlock a) 0 (front ++ c :: d :: back) r.size) :
    ∃ m1 m2, r.setHeader m c.offset (.ofSize c.size c.used) = .ok m1 ∧
      r.setHeader m1 d.offset (.ofSize d.size d.used) = .ok m2 ∧
      r.Laid s m2 (front ++ c :: d :: back) ∧
      Memory.AgreeOutside (fun x => r.HeaderBytes c x ∨ r.HeaderBytes d x) m m2 := by
  have hc : c ∈ front ++ c :: d :: back := List.mem_append_right _ List.mem_cons_self
  have hd : d ∈ front ++ c :: d :: back :=
    List.mem_append_right _ (List.mem_cons_of_mem c List.mem_cons_self)
  obtain ⟨hfront, hmod, hmin, hdo, hdmod, hdmin, hback⟩ := tiled_middle.mp ht
  have hword : Word.size ≤ s.minBlock a :=
    Nat.le_trans a.wordSize_le_bytes s.bytes_le_minBlock
  have hagree : Memory.AgreeOutside (fun x => r.HeaderBytes c x ∨ r.HeaderBytes d x) m
      ((m.writeWord (r.base + c.offset) (c.header a).raw).writeWord (r.base + d.offset)
        (d.header a).raw) :=
    ((Memory.agreeOutside_writeWord m _ _).mono fun _ => .inl).trans
      ((Memory.agreeOutside_writeWord _ _ _).mono fun _ => .inr)
  refine ⟨_, _, setHeader_eq_ok (ht.isHeaderOffset hc).hasWord,
    setHeader_eq_ok (ht.isHeaderOffset hd).hasWord, ?_, hagree⟩
  refine h.edit mid [c, d] hfront ⟨rfl, hmod, hmin, hdo, hdmod, hdmin, rfl⟩ hback hagree
    (fun x hx => ?_) fun e he => ?_
  · unfold HeaderBytes Memory.Between at hx
    unfold Memory.Between Cell.next
    unfold Cell.next at hdo
    omega
  · rcases List.mem_cons.mp he with rfl | he
    · -- the second header lies behind the first one
      rw [Memory.readWord_writeWord_of_disjoint]
      · exact readWord_writeHeader m (ht.bounds hc).next_le
      · unfold Cell.next at hdo
        omega
    · rw [List.mem_singleton.mp he]
      exact readWord_writeHeader _ (ht.bounds hd).next_le

/-- The header of a cell is rewritten with another flag. -/
theorem setFlag (h : r.Laid s m (front ++ c :: back)) (used : Bool) :
    ∃ m', r.setHeader m c.offset (.ofSize c.size used) = .ok m' ∧
      r.Laid s m' (front ++ { c with used := used } :: back) ∧
      Memory.AgreeOutside (r.Spare (inUse front ++ inUse back)) m m' := by
  obtain ⟨m', hset, hlaid, hm⟩ := Laid.setHeader [c] h (h.tiled.flag used)
  refine ⟨m', hset, hlaid, hm.mono fun x hx => ?_⟩
  exact spare_of_covers hlaid.tiled
    (hlaid.covers_of_headerBytes (List.mem_append_right _ List.mem_cons_self) hx)

/-! ## 3. A cell that is cut in two -/

/-- **A cell is cut in two**, the first in use and the second free. -/
theorem split (h : r.Laid s m (front ++ c :: back)) (hmod : keep % a.bytes = 0)
    (hmin : s.minBlock a ≤ keep) (hrest : s.minBlock a ≤ c.size - keep) :
    ∃ m1 m2, r.setHeader m c.offset (.ofSize keep true) = .ok m1 ∧
      r.setHeader m1 (c.offset + keep) (.ofSize (c.size - keep) false) = .ok m2 ∧
      r.Laid s m2
        (front ++ ⟨c.offset, keep, true⟩ :: ⟨c.offset + keep, c.size - keep, false⟩ :: back) ∧
      Memory.AgreeOutside (fun x => r.HeaderBytes ⟨c.offset, keep, true⟩ x ∨
        r.HeaderBytes ⟨c.offset + keep, c.size - keep, false⟩ x) m m2 := by
  have hstretch : r.Laid s m (front ++ ([c] ++ back)) := h
  exact hstretch.setHeaders (c := ⟨c.offset, keep, true⟩)
    (d := ⟨c.offset + keep, c.size - keep, false⟩) [c]
    (h.tiled.split hmod hmin hrest s.minBlock_pos)

/-- The headers of the two parts lie in the cell, and not in the payload kept. -/
theorem spare_of_headers (h : r.Laid s m (front ++ c :: back))
    (hrest : s.minBlock a ≤ c.size - keep)
    (hx : r.HeaderBytes ⟨c.offset, keep, true⟩ x ∨
      r.HeaderBytes ⟨c.offset + keep, c.size - keep, false⟩ x) :
    r.Spare (inUse front ++ inUse back) x ∧ ¬ r.Kept c keep x := by
  have h1 := s.bytes_le_minBlock (a := a)
  have h2 := a.wordSize_le_bytes
  have h3 := a.bytes_pos
  simp only [HeaderBytes, Memory.Between] at hx
  constructor
  · refine spare_of_covers h.tiled ?_
    unfold Cell.Covers Cell.next
    omega
  · unfold Kept Memory.Between Cell.payload
    omega

end Laid

/-- What is spare when a cell has kept its first bytes is none of the bytes that it kept. -/
theorem spare_of_kept {us vs : List Cell} (hx : r.Spare (us ++ ⟨c.offset, keep, true⟩ :: vs) x) :
    r.Spare (us ++ vs) x ∧ ¬ r.Kept c keep x := by
  refine ⟨hx.mono fun d hd => ?_, fun hk => hx.2 ⟨c.offset, keep, true⟩ ?_ ?_⟩
  · rcases List.mem_append.mp hd with hd | hd
    · exact List.mem_append_left _ hd
    · exact List.mem_append_right _ (List.mem_cons_of_mem _ hd)
  · exact List.mem_append_right _ List.mem_cons_self
  · have h1 := hk.1
    have h2 := hk.2
    unfold Cell.payload at h1
    show r.base + c.offset ≤ x ∧ x < r.base + (c.offset + keep)
    omega

end RegionHeap.Region
