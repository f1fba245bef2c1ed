import RegionHeap.Proofs.Layout.Trail

/-!
# The walk after a change of memory

Nothing is known of the headers here, not even that blocks are well-formed: they may be too small,
carry reserved bits, or run past the end. Still a change within one block shows in the walk at that
block only.

* `Leads` -- a stretch of the walk; `trail_append_cons` cuts the walk at a block;
* `Trail.apart`, `Trail.pairwise_offset` -- two blocks of a walk lie apart, and in order;
* `Trail.congr`, `Trail.congr_payload` -- which changes the walk does not notice;
* `Trail.replace` -- a block gives way to others that lead from its start to its end;
* `blocks_eq_of_trail` -- a trail is what the walk finds.
-/

namespace RegionHeap

/-- The blocks share no byte. -/
def Block.Apart {a : Alignment} (b c : Block a) : Prop :=
  b.next ≤ c.offset ∨ c.next ≤ b.offset

/-- A block that is not of size zero takes at least one step of the grid. -/
theorem Block.bytes_le_size {a : Alignment} {b : Block a} (hsize : b.size ≠ 0) :
    a.bytes ≤ b.size :=
  Nat.le_of_dvd (Nat.pos_of_ne_zero hsize) (Nat.dvd_of_mod_eq_zero b.header.size_mod)

namespace Region

variable {a : Alignment} {r : Region a} {m m' : Memory} {off lo mid hi : Nat}
  {bs pre post inner : List (Block a)} {b c : Block a}

/-- The headers lead from one offset to another one, past these blocks. -/
def Leads (r : Region a) (m : Memory) : (lo : Nat) → List (Block a) → (hi : Nat) → Prop
  | lo, [], hi => lo = hi
  | lo, b :: bs, hi =>
    r.IsHeaderOffset lo ∧ b = ⟨lo, ⟨m.readWord (r.base + lo)⟩⟩ ∧ b.size ≠ 0 ∧
      r.Leads m b.next bs hi

/-! ## 1. Stretches of the walk -/

/-- A walk is put together from a stretch and the walk behind it. -/
theorem Leads.trail (h : r.Leads m lo pre hi) (hpost : r.Trail m hi post) :
    r.Trail m lo (pre ++ post) := by
  induction pre generalizing lo with
  | nil =>
    obtain rfl : lo = hi := h
    exact hpost
  | cons b pre ih =>
    obtain ⟨hoff, hb, hsize, hrest⟩ := h
    exact ⟨hoff, hb, (if_neg hsize).mpr (ih hrest)⟩

/-- Stretches that meet are one stretch. -/
theorem Leads.append (h : r.Leads m lo pre mid) (hpost : r.Leads m mid post hi) :
    r.Leads m lo (pre ++ post) hi := by
  induction pre generalizing lo with
  | nil =>
    obtain rfl : lo = mid := h
    exact hpost
  | cons b pre ih =>
    obtain ⟨hoff, hb, hsize, hrest⟩ := h
    exact ⟨hoff, hb, hsize, ih hrest⟩

/-- **A walk is cut at a block**: only its last block can be of size zero, so the headers in front
    lead on. -/
theorem trail_append_cons :
    r.Trail m lo (pre ++ b :: post) ↔
      r.Leads m lo pre b.offset ∧ r.Trail m b.offset (b :: post) := by
  constructor
  · intro h
    induction pre generalizing lo with
    | nil =>
      have hb : b.offset = lo := congrArg Block.offset h.2.1
      exact ⟨hb.symm, hb.symm ▸ h⟩
    | cons c pre ih =>
      obtain ⟨hoff, hc, hrest⟩ := h
      have hsize : c.size ≠ 0 := fun h0 => by
        rw [if_pos h0] at hrest
        exact List.append_ne_nil_of_right_ne_nil pre (List.cons_ne_nil b post) hrest
      rw [if_neg hsize] at hrest
      obtain ⟨hpre, hpost⟩ := ih hrest
      exact ⟨⟨hoff, hc, hsize, hpre⟩, hpost⟩
  · intro h
    exact h.1.trail h.2

/-- A stretch leads forward. -/
theorem Leads.le (h : r.Leads m lo pre hi) : lo ≤ hi := by
  induction pre generalizing lo with
  | nil => exact Nat.le_of_eq h
  | cons b pre ih =>
    obtain ⟨-, hb, -, hrest⟩ := h
    have hoff : b.offset = lo := congrArg Block.offset hb
    have hle := ih hrest
    unfold Block.next at hle
    omega

/-- Where the blocks of a stretch lie. -/
theorem Leads.bounds (h : r.Leads m lo pre hi) (hc : c ∈ pre) :
    lo ≤ c.offset ∧ a.bytes ≤ c.size ∧ c.next ≤ hi := by
  induction pre generalizing lo with
  | nil => cases hc
  | cons b pre ih =>
    obtain ⟨-, hb, hsize, hrest⟩ := h
    have hoff : b.offset = lo := congrArg Block.offset hb
    rcases List.mem_cons.mp hc with rfl | hc
    · exact ⟨Nat.le_of_eq hoff.symm, Block.bytes_le_size hsize, hrest.le⟩
    · obtain ⟨hlo, hc, hhi⟩ := ih hrest hc
      unfold Block.next at hlo
      exact ⟨by omega, hc, hhi⟩

/-! ## 2. Where the blocks of a walk lie -/

/-- A header fits where a block of the walk starts. -/
theorem Trail.bounds (h : r.Trail m lo bs) (hc : c ∈ bs) :
    lo ≤ c.offset ∧ r.IsHeaderOffset c.offset := by
  obtain ⟨pre, post, rfl⟩ := List.append_of_mem hc
  obtain ⟨hpre, hrest⟩ := trail_append_cons.mp h
  exact ⟨hpre.le, hrest.1⟩

/-- The blocks of a trail have the headers that lie in memory. -/
theorem Trail.header_eq (h : r.Trail m lo bs) (hb : b ∈ bs) :
    b.header = ⟨m.readWord (r.base + b.offset)⟩ := by
  obtain ⟨pre, post, rfl⟩ := List.append_of_mem hb
  obtain ⟨-, -, hhead, -⟩ := trail_append_cons.mp h
  have hheader := congrArg Block.header hhead
  exact hheader

/-- Of two blocks of a walk the one behind starts past the one in front. -/
theorem Trail.next_le (h : r.Trail m lo (b :: bs)) (hc : c ∈ bs) :
    b.size ≠ 0 ∧ b.next ≤ c.offset := by
  obtain ⟨-, -, hrest⟩ := h
  by_cases hsize : b.size = 0
  · rw [if_pos hsize] at hrest
    rw [hrest] at hc
    cases hc
  · rw [if_neg hsize] at hrest
    exact ⟨hsize, (hrest.bounds hc).1⟩

/-- **Two blocks of a walk lie apart**, however large the last one is. -/
theorem Trail.apart (h : r.Trail m lo bs) (hb : b ∈ bs) (hc : c ∈ bs) (hne : b.offset ≠ c.offset) :
    b.Apart c := by
  induction bs generalizing lo with
  | nil => cases hb
  | cons d bs ih =>
    rcases List.mem_cons.mp hb with rfl | hb'
    · rcases List.mem_cons.mp hc with rfl | hc'
      · exact absurd rfl hne
      · exact .inl (h.next_le hc').2
    · rcases List.mem_cons.mp hc with rfl | hc'
      · exact .inr (h.next_le hb').2
      · obtain ⟨-, -, hrest⟩ := h
        split at hrest
        · rw [hrest] at hb'
          cases hb'
        · exact ih hrest hb' hc'

/-- The blocks of a walk lie in address order. -/
theorem Trail.pairwise_offset (h : r.Trail m lo bs) :
    bs.Pairwise fun b c => b.offset < c.offset := by
  induction bs generalizing lo with
  | nil => exact .nil
  | cons b bs ih =>
    refine List.pairwise_cons.mpr ⟨fun c hc => ?_, ?_⟩
    · obtain ⟨hsize, hnext⟩ := h.next_le hc
      unfold Block.next at hnext
      omega
    · obtain ⟨-, -, hrest⟩ := h
      by_cases hsize : b.size = 0
      · rw [if_pos hsize] at hrest
        rw [hrest]
        exact .nil
      · rw [if_neg hsize] at hrest
        exact ih hrest

/-- A memory has one walk. -/
theorem Trail.unique {bs' : List (Block a)} (h : r.Trail m off bs) (h' : r.Trail m off bs') :
    bs = bs' := by
  induction bs generalizing off bs' with
  | nil =>
    cases bs' with
    | nil => rfl
    | cons b' bs' => exact absurd h'.1 h
  | cons b bs ih =>
    cases bs' with
    | nil => exact absurd h.1 h'
    | cons b' bs' =>
      obtain ⟨-, hb, hrest⟩ := h
      obtain ⟨-, hb', hrest'⟩ := h'
      obtain rfl : b = b' := hb.trans hb'.symm
      congr 1
      split at hrest
      · rename_i hsize
        rw [if_pos hsize] at hrest'
        rw [hrest, hrest']
      · rename_i hsize
        rw [if_neg hsize] at hrest'
        exact ih hrest hrest'

/-- **A trail from the start is what the walk finds.** -/
theorem blocks_eq_of_trail (h : r.Trail m 0 bs) : r.blocks m = .ok bs := by
  obtain ⟨bs', hbs, htrail⟩ := r.blocksFrom_trail m 0
  rw [h.unique htrail]
  exact hbs

/-! ## 3. Changes of memory -/

theorem Leads.congr (h : r.Leads m lo pre hi)
    (hm : ∀ c ∈ pre, m'.readWord (r.base + c.offset) = m.readWord (r.base + c.offset)) :
    r.Leads m' lo pre hi := by
  induction pre generalizing lo with
  | nil => exact h
  | cons b pre ih =>
    obtain ⟨hoff, hb, hsize, hrest⟩ := h
    have hlo : b.offset = lo := congrArg Block.offset hb
    have hword := hm b List.mem_cons_self
    rw [hlo] at hword
    refine ⟨hoff, by rw [hword]; exact hb, hsize, ?_⟩
    exact ih hrest fun c hc => hm c (List.mem_cons_of_mem b hc)

/-- **The walk depends on its headers only.** -/
theorem Trail.congr (h : r.Trail m lo bs)
    (hm : ∀ c ∈ bs, m'.readWord (r.base + c.offset) = m.readWord (r.base + c.offset)) :
    r.Trail m' lo bs := by
  induction bs generalizing lo with
  | nil => exact h
  | cons b bs ih =>
    obtain ⟨hoff, hb, hrest⟩ := h
    have hlo : b.offset = lo := congrArg Block.offset hb
    have hword := hm b List.mem_cons_self
    rw [hlo] at hword
    refine ⟨hoff, by rw [hword]; exact hb, ?_⟩
    by_cases hsize : b.size = 0
    · rw [if_pos hsize] at hrest ⊢
      exact hrest
    · rw [if_neg hsize] at hrest ⊢
      exact ih hrest fun c hc => hm c (List.mem_cons_of_mem b hc)

/-- What is written to the payload of a block does not show in the walk. -/
theorem Trail.congr_payload (h : r.Trail m lo bs) (hb : b ∈ bs)
    (hm : Memory.AgreeOutside
      (Memory.Between (r.base + b.offset + a.bytes) (r.base + b.next)) m m') :
    r.Trail m' lo bs := by
  refine h.congr fun c hc => hm.readWord fun x hlo hhi hx => ?_
  have hword := a.wordSize_le_bytes
  obtain ⟨hstart, hend⟩ := hx
  by_cases hne : b.offset = c.offset
  · omega
  · have hnext : c.offset ≤ c.next := Nat.le_add_right _ _
    rcases h.apart hb hc hne with hfront | hback
    · omega
    · omega

/-- **A block gives way to others** that lead from its start to its end. -/
theorem Trail.replace (h : r.Trail m lo (pre ++ b :: post)) (hsize : b.size ≠ 0)
    (hm : Memory.AgreeOutside (Memory.Between (r.base + b.offset) (r.base + b.next)) m m')
    (hinner : r.Leads m' b.offset inner b.next) : r.Trail m' lo (pre ++ (inner ++ post)) := by
  obtain ⟨hpre, -, -, hrest⟩ := trail_append_cons.mp h
  rw [if_neg hsize] at hrest
  have hword := a.wordSize_le_bytes
  refine (hpre.congr fun c hc => hm.readWord fun x _ hhi hx => ?_).trail
    (hinner.trail (hrest.congr fun c hc => hm.readWord fun x hlo _ hx => ?_))
  · obtain ⟨-, hmin, hnext⟩ := hpre.bounds hc
    unfold Memory.Between at hx
    unfold Block.next at hnext
    omega
  · have hback := (hrest.bounds hc).1
    unfold Memory.Between at hx
    omega

end Region

end RegionHeap
