import RegionHeap.Proofs.Layout.Recognition

/-!
# Blocks of an untrusted walk

Headers may be overwritten with anything. What keeps a heap from harm are the checks that it makes
before it uses one: a free block is taken only if it ends in the region, and an allocation is used
only if the walk comes past it. This module says of single blocks what these checks show.

* `BlockBytes` -- the bytes of a block; blocks that lie apart share none;
* `Trail.setFlag` -- one header is written, and the walk finds the block again;
* `Cut`, `Trail.split` -- a block of the walk gives way to an allocated one and what is cut off
  behind it;
* `live?_block`, `Stands`, `live?_spec` -- what counts as a live allocation is a block of the walk;
* `Carved`, `Full` -- the block that serves a request, with the free one that it was carved out of,
  and what it means that there is none.
-/

namespace RegionHeap

/-- The block with its flag set or cleared, and no reserved bits. -/
def Block.flagged {a : Alignment} (b : Block a) (used : Bool) : Block a :=
  ⟨b.offset, .ofSize b.size used⟩

@[simp] theorem Block.size_flagged {a : Alignment} (b : Block a) (used : Bool) :
    (b.flagged used).size = b.size :=
  Header.size_ofSize used b.header.size_mod

@[simp] theorem Block.next_flagged {a : Alignment} (b : Block a) (used : Bool) :
    (b.flagged used).next = b.next :=
  congrArg (b.offset + ·) (b.size_flagged used)

namespace Region

open Memory (AgreeOutside Between)

variable {a : Alignment} {r : Region a} {m m' : Memory} {off size keep n new addr x : Nat}
  {before left : Option Nat} {bs bs' pre tail post : List (Block a)} {b c d k : Block a}

/-! ## 1. Bytes -/

/-- The bytes of a block. -/
def BlockBytes (r : Region a) (b : Block a) (x : Nat) : Prop :=
  Between (r.base + b.offset) (r.base + b.next) x

/-- The bytes of a block that ends in the region are the region's. -/
theorem inside_of_blockBytes (hend : c.next ≤ r.size) (hx : r.BlockBytes c x) :
    Between r.base (r.base + r.size) x := by
  obtain ⟨hlo, hhi⟩ := hx
  exact ⟨by omega, by omega⟩

/-- The payload bytes of a block are bytes of the block. -/
theorem blockBytes_of_payload {len : Nat} (hlo : r.base + c.offset + a.bytes ≤ x)
    (hhi : x < r.base + c.offset + a.bytes + len) (hlen : len + a.bytes ≤ c.size) :
    r.BlockBytes c x := by
  unfold BlockBytes Between Block.next
  omega

/-- Blocks that lie apart share no byte. -/
theorem not_blockBytes_of_apart (h : c.Apart d) (hx : r.BlockBytes c x) :
    ¬ r.BlockBytes d x := by
  intro hd
  obtain ⟨hlo, hhi⟩ := hx
  obtain ⟨hlo', hhi'⟩ := hd
  rcases h with h | h <;> omega

/-! ## 2. Headers -/

/-- A header that is written over leads past its block. -/
theorem setHeader_leads (m : Memory) (used : Bool) (hoff : r.IsHeaderOffset off)
    (hmod : size % a.bytes = 0) (hpos : size ≠ 0) (hend : off + size ≤ r.size) :
    ∃ m', r.setHeader m off (.ofSize size used) = .ok m' ∧
      r.Leads m' off [⟨off, .ofSize size used⟩] (off + size) ∧
      AgreeOutside (Between (r.base + off) (r.base + (off + size))) m m' := by
  have hlimit := r.base_add_size_lt
  have hsize : (Header.ofSize size used : Header a).size = size := Header.size_ofSize used hmod
  have hword : Word.size ≤ size := Nat.le_trans a.wordSize_le_bytes
    (Nat.le_of_dvd (Nat.pos_of_ne_zero hpos) (Nat.dvd_of_mod_eq_zero hmod))
  have hread : (m.writeWord (r.base + off) (Header.ofSize size used : Header a).raw).readWord
      (r.base + off) = (Header.ofSize size used : Header a).raw :=
    Memory.readWord_writeWord (Header.raw_ofSize_lt used (by omega))
  refine ⟨_, setHeader_eq_ok hoff.hasWord, ⟨hoff, ?_, ?_, ?_⟩,
    (Memory.agreeOutside_writeWord m _ _).mono fun x hx => ?_⟩
  · rw [hread]
  · exact fun h0 => hpos (hsize.symm.trans h0)
  · exact congrArg (off + ·) hsize
  · obtain ⟨hlo, hhi⟩ := hx
    exact ⟨hlo, by omega⟩

/-- **The flag of a block is written**, and the walk finds the block again with its new header. -/
theorem Trail.setFlag (h : r.Trail m 0 (pre ++ b :: post)) (used : Bool) (hsize : b.size ≠ 0)
    (hend : b.next ≤ r.size) :
    ∃ m', r.setHeader m b.offset (.ofSize b.size used) = .ok m' ∧
      r.Trail m' 0 (pre ++ b.flagged used :: post) ∧ AgreeOutside (r.BlockBytes b) m m' := by
  have hoff := (h.bounds (List.mem_append_right pre List.mem_cons_self)).2
  obtain ⟨m', hset, hleads, hm⟩ := setHeader_leads m used hoff b.header.size_mod hsize hend
  exact ⟨m', hset, h.replace hsize hm hleads, hm⟩

/-- The block `b` of the walk gives way to an allocated block `k` of at least `keep` bytes and to
    what is cut off behind it. -/
structure Cut (r : Region a) (m m' : Memory) (keep : Nat) (b k : Block a)
    (pre tail post : List (Block a)) : Prop where
  after : r.Trail m' 0 (pre ++ (k :: tail ++ post))
  offset_eq : k.offset = b.offset
  allocated : k.header.Allocated
  keep_le : keep ≤ k.size
  next_le : k.next ≤ b.next
  frame : AgreeOutside (r.BlockBytes b) m m'

/-- What is cut out of a block with another flag is cut out of the block. -/
theorem Cut.of_flagged {m1 : Memory} {used : Bool}
    (h : r.Cut m1 m' keep (b.flagged used) k pre tail post)
    (hm : AgreeOutside (r.BlockBytes b) m m1) : r.Cut m m' keep b k pre tail post := by
  have hframe := h.frame
  have hnext := h.next_le
  unfold BlockBytes at hframe
  rw [Block.next_flagged] at hframe hnext
  exact ⟨h.after, h.offset_eq, h.allocated, h.keep_le, hnext, hm.trans hframe⟩

/-- **A block is cut in two**: the front is allocated, the rest is free. -/
theorem Trail.split (h : r.Trail m 0 (pre ++ b :: post)) (hend : b.next ≤ r.size)
    (hmod : keep % a.bytes = 0) (hpos : a.bytes ≤ keep) (hrest : a.bytes ≤ b.size - keep) :
    ∃ m1 m2, r.setHeader m b.offset (.ofSize keep true) = .ok m1 ∧
      r.setHeader m1 (b.offset + keep) (.ofSize (b.size - keep) false) = .ok m2 ∧
      ∃ k tail, r.Cut m m2 keep b k pre tail post := by
  have hbytes := a.bytes_pos
  have hword := a.wordSize_le_bytes
  have hoff := (h.bounds (List.mem_append_right pre List.mem_cons_self)).2
  have hnext : b.offset + keep + (b.size - keep) = b.next := by
    unfold Block.next
    omega
  have hoff' : r.IsHeaderOffset (b.offset + keep) :=
    ⟨by rw [Nat.add_mod, hoff.1, hmod, Nat.zero_add, Nat.zero_mod], by omega⟩
  have hrestmod : (b.size - keep) % a.bytes = 0 :=
    Nat.mod_eq_zero_of_dvd (Nat.dvd_sub (Nat.dvd_of_mod_eq_zero b.header.size_mod)
      (Nat.dvd_of_mod_eq_zero hmod))
  obtain ⟨m1, hset1, hleads1, hm1⟩ := setHeader_leads m true hoff hmod (by omega) (by omega)
  obtain ⟨m2, hset2, hleads2, hm2⟩ :=
    setHeader_leads m1 false hoff' hrestmod (by omega) (by omega)
  rw [hnext] at hleads2 hm2
  -- the second header is written behind the first one
  have hleads := (hleads1.congr fun c hc => hm2.readWord fun x _ hhi hx => ?_).append hleads2
  · have hm : AgreeOutside (r.BlockBytes b) m m2 := by
      refine (hm1.mono fun x hx => ?_).trans (hm2.mono fun x hx => ?_)
      · exact ⟨hx.1, Nat.lt_of_lt_of_le hx.2 (by omega)⟩
      · exact ⟨Nat.le_trans (by omega) hx.1, hx.2⟩
    have hsize : (Header.ofSize keep true : Header a).size = keep := Header.size_ofSize true hmod
    refine ⟨m1, m2, hset1, hset2, ⟨b.offset, .ofSize keep true⟩, _,
      h.replace (by omega) hm hleads, rfl, (Header.allocated_ofSize keep true).mpr rfl,
      Nat.le_of_eq hsize.symm, ?_, hm⟩
    show b.offset + (Header.ofSize keep true : Header a).size ≤ b.offset + b.size
    omega
  · have hc : c.offset = b.offset := by rw [List.mem_singleton.mp hc]
    obtain ⟨hlo, -⟩ := hx
    omega

/-! ## 3. Live allocations -/

/-- **What counts as a live allocation is a block of the walk**, on any memory and whatever the
    smallest block is. -/
theorem live?_block (htrail : r.Trail m 0 bs) (min addr : Nat) :
    ∃ live?, r.live? m min addr = .ok live? ∧
      ∀ live ∈ live?, ∃ c ∈ bs, c.header.Allocated ∧ min ≤ c.size ∧ c.next ≤ r.size ∧
        addr = r.base + c.offset + a.bytes ∧ live.offset = c.offset ∧ live.size = c.size := by
  obtain ⟨live?, hlive, hnames⟩ := live?_names htrail min addr
  refine ⟨live?, hlive, fun live h => ?_⟩
  obtain ⟨c, hc, hfit, haddr, hsame⟩ := ((hnames live).mp h).exists_block htrail
  exact ⟨c, hc, hfit.allocated, hfit.min_le, hfit.end_le, haddr, hsame⟩

/-- A block of the walk that counts as the live allocation at an address. -/
structure Stands (r : Region a) (bs : List (Block a)) (addr : Nat) (c : Block a) : Prop where
  mem : c ∈ bs
  allocated : c.header.Allocated
  min_le : Strategy.scan.minBlock a ≤ c.size
  next_le : c.next ≤ r.size
  addr_eq : addr = r.base + c.offset + a.bytes

/-- The live allocations of a scanning heap. -/
theorem live?_spec (htrail : r.Trail m 0 bs) (addr : Nat) :
    ∃ live?, r.live? m (Strategy.scan.minBlock a) addr = .ok live? ∧
      ∀ live ∈ live?, ∃ c, r.Stands bs addr c ∧ live.offset = c.offset ∧ live.size = c.size := by
  obtain ⟨live?, hlive, hblock⟩ := live?_block htrail (Strategy.scan.minBlock a) addr
  refine ⟨live?, hlive, fun live h => ?_⟩
  obtain ⟨c, hc, hall, hmin, hnext, haddr, hsame⟩ := hblock live h
  exact ⟨c, ⟨hc, hall, hmin, hnext, haddr⟩, hsame⟩

theorem Stands.bytes_le (h : r.Stands bs addr c) : a.bytes ≤ c.size :=
  Nat.le_trans (Nat.le_add_right _ _) h.min_le

theorem Stands.usable_eq {live : Live} (h : r.Stands bs addr c) (hsize : live.size = c.size) :
    live.usable a = .ok (c.size - a.bytes) := by
  rw [Live.usable, hsize]
  exact Word.sub_eq_ok h.bytes_le

/-- A block in use is not a free one. -/
theorem Stands.ne_free (hc : r.Stands bs addr c) (htrail : r.Trail m 0 bs) (hd : d ∈ bs)
    (hfree : ¬ d.header.Allocated) : c.offset ≠ d.offset := by
  intro hsame
  refine hfree ?_
  rw [htrail.header_eq hd, ← hsame, ← htrail.header_eq hc.mem]
  exact hc.allocated

/-! ## 4. Carved blocks -/

/-- The block is in use, or too small to give `need` bytes, or runs past the end. -/
def Unfit (r : Region a) (need : Nat) (b : Block a) : Prop :=
  b.header.Allocated ∨ b.size < need ∨ r.size < b.next

/-- No block of the walk can serve a request for `n` bytes. -/
def Full (r : Region a) (bs : List (Block a)) (n : Nat) : Prop :=
  ∀ need, a.blockSize? (Strategy.scan.minPayload a) n = some need → ∀ b ∈ bs, r.Unfit need b

/-- The block `b` of the walk was free and ends in the region, and the allocated block `k` of the
    new walk was carved out of it: it has the address `new` and a payload of at least `n` bytes. -/
structure Carved (r : Region a) (bs bs' : List (Block a)) (n new : Nat) (b k : Block a) : Prop where
  free_mem : b ∈ bs
  free : ¬ b.header.Allocated
  end_le : b.next ≤ r.size
  mem : k ∈ bs'
  allocated : k.header.Allocated
  offset_eq : k.offset = b.offset
  next_le : k.next ≤ b.next
  addr_eq : new = r.base + k.offset + a.bytes
  fits : n + a.bytes ≤ k.size

/-- **A carved block lies apart from the other blocks** of the walk that it was carved in. -/
theorem Carved.apart_of_mem (h : r.Carved bs bs' n new b k) (htrail : r.Trail m 0 bs) (hc : c ∈ bs)
    (hne : c.offset ≠ b.offset) : k.Apart c := by
  have hoff := h.offset_eq
  have hnext := h.next_le
  unfold Block.Apart
  rcases htrail.apart h.free_mem hc hne.symm with hback | hfront
  · exact .inl (Nat.le_trans hnext hback)
  · exact .inr (hoff ▸ hfront)

/-- The bytes asked for are bytes of the carved block. -/
theorem Carved.payload_inside (h : r.Carved bs bs' n new b k) : new + n ≤ r.base + k.next := by
  have haddr := h.addr_eq
  have hfits := h.fits
  unfold Block.next
  omega

end Region

end RegionHeap
