import RegionHeap.Proofs.Layout.Rewalk

/-!
# What the audit of the blocks decides

Nothing is known of the memory. The audit follows the walk, and the walk has a stopping rule of its
own; what the audit decides is said here without either, by adding up the sizes that the headers
give. Either the blocks tile the region, or there is a first one that breaks a rule.

* `Chained` -- the sizes lead from one offset to another;
* `Orderly`, `Offends` -- the rules that a block can be checked for on its own and next to the one in
  front of it, and which of them it breaks first;
* `TiledBy`, `FirstOffence` -- the two verdicts; every memory has one of them;
* `audit_decides` -- the audit gives the verdict, and never says that the sums do not match;
* `Broken`, `audit_breaks`, `audit_merge` -- the offences that the walk does not get past, and what the
  audits with and without the rule for neighbours say of them.
-/

namespace RegionHeap

namespace Block

variable {a : Alignment} {min : Nat} {merged : Bool} {bs pre post : List (Block a)} {b : Block a}

/-- The grid goes on behind a block. -/
theorem next_mod (hoff : b.offset % a.bytes = 0) : b.next % a.bytes = 0 := by
  have hsize : b.size % a.bytes = 0 := b.header.size_mod
  rw [next, Nat.add_mod, hoff, hsize, Nat.zero_add, Nat.zero_mod]

/-- Of these blocks none has reserved bits or is too small, and in a heap that merges no two
    neighbours are free. -/
structure Orderly (min : Nat) (merged : Bool) (bs : List (Block a)) : Prop where
  sound : ∀ b ∈ bs, ¬ b.header.Reserved ∧ min ≤ b.size
  apart : merged = true → bs.IsChain fun b c => b.header.Allocated ∨ c.header.Allocated

theorem Orderly.nil : Orderly min merged ([] : List (Block a)) :=
  ⟨fun _ hb => absurd hb List.not_mem_nil, fun _ => .nil⟩

theorem Orderly.right (h : Orderly min merged (pre ++ post)) : Orderly min merged post :=
  ⟨fun b hb => h.sound b (List.mem_append_right pre hb),
    fun hm => (List.isChain_append.mp (h.apart hm)).2.1⟩

/-- What is in order has no block of size zero. -/
theorem Orderly.size_ne_zero (h : Orderly min merged bs) (hmin : 0 < min) :
    ∀ b ∈ bs, b.size ≠ 0 := by
  intro b hb h0
  have hsize := (h.sound b hb).2
  omega

/-- One more block keeps the order if it is well-formed and not the second of two free ones. -/
theorem Orderly.concat (h : Orderly min merged pre) (hres : ¬ b.header.Reserved)
    (hmin : min ≤ b.size)
    (hapart : merged = true → ∀ c ∈ pre.getLast?, c.header.Allocated ∨ b.header.Allocated) :
    Orderly min merged (pre ++ [b]) := by
  refine ⟨fun c hc => ?_, fun hm => List.isChain_append.mpr ⟨h.apart hm, .singleton b, ?_⟩⟩
  · rcases List.mem_append.mp hc with hc | hc
    · exact h.sound c hc
    · obtain rfl : c = b := List.mem_singleton.mp hc
      exact ⟨hres, hmin⟩
  · intro c hc d hd
    obtain rfl : b = d := Option.some.inj hd
    exact hapart hm c hc

/-- The offset of the block in front, if that one is free. -/
def freeOffset? (left : Option (Block a)) : Option Nat :=
  left.bind fun b => if b.header.Allocated then none else some b.offset

end Block

namespace Region

variable {a : Alignment} {r : Region a} {m : Memory} {lo mid hi min free k : Nat} {merged : Bool}
  {left : Option (Block a)} {bs pre post : List (Block a)} {b : Block a} {d : Defect}

open Block (Orderly freeOffset?)

/-- The sizes that the headers give lead from one offset to another, past these blocks. -/
def Chained (r : Region a) (m : Memory) : (lo : Nat) → List (Block a) → (hi : Nat) → Prop
  | lo, [], hi => lo = hi
  | lo, b :: bs, hi => b = ⟨lo, ⟨m.readWord (r.base + lo)⟩⟩ ∧ r.Chained m b.next bs hi

/-- The rule that a block breaks, given the block in front of it. A block that breaks several is
    blamed for the first: reserved bits, then a size that is too small, then one that runs past the
    end, then a free block in front of a free block. -/
inductive Offends (r : Region a) (min : Nat) (merged : Bool) (left : Option (Block a))
    (b : Block a) : Defect → Prop
  | reserved (hres : b.header.Reserved) :
      Offends r min merged left b (.misalignedSize b.offset b.header.raw)
  | small (hres : ¬ b.header.Reserved) (hsmall : b.size < min) :
      Offends r min merged left b (.blockTooSmall b.offset b.size)
  | overrun (hres : ¬ b.header.Reserved) (hmin : min ≤ b.size) (hover : r.size < b.next) :
      Offends r min merged left b (.overrun b.offset b.size)
  | adjacent (c : Block a) (hres : ¬ b.header.Reserved) (hmin : min ≤ b.size)
      (hnext : b.next ≤ r.size) (hmerged : merged = true) (hleft : left = some c)
      (hc : ¬ c.header.Allocated) (hb : ¬ b.header.Allocated) :
      Offends r min merged left b (.adjacentFree c.offset b.offset)

/-- The headers tile the region, in order, and so many of the blocks are free. -/
def TiledBy (r : Region a) (m : Memory) (min : Nat) (merged : Bool) (k : Nat) : Prop :=
  ∃ bs, r.Chained m 0 bs r.size ∧ Orderly min merged bs ∧
    k = bs.countP fun b => !decide b.header.Allocated

/-- The first block that breaks a rule: the headers in front are in order and lead to it. -/
def FirstOffence (r : Region a) (m : Memory) (min : Nat) (merged : Bool) (d : Defect) : Prop :=
  ∃ pre b, r.Chained m 0 pre b.offset ∧ Orderly min merged pre ∧
    b.header = ⟨m.readWord (r.base + b.offset)⟩ ∧ b.offset < r.size ∧
    r.Offends min merged pre.getLast? b d

/-! ## 1. Chains and the walk -/

theorem Chained.append (h : r.Chained m lo pre mid) (hpost : r.Chained m mid post hi) :
    r.Chained m lo (pre ++ post) hi := by
  induction pre generalizing lo with
  | nil =>
    obtain rfl : lo = mid := h
    exact hpost
  | cons b pre ih => exact ⟨h.1, ih h.2⟩

theorem Chained.le (h : r.Chained m lo bs hi) : lo ≤ hi := by
  induction bs generalizing lo with
  | nil => exact Nat.le_of_eq h
  | cons b bs ih =>
    obtain ⟨hb, hrest⟩ := h
    have hoff : b.offset = lo := congrArg Block.offset hb
    have hle := ih hrest
    unfold Block.next at hle
    omega

theorem Chained.next_le (h : r.Chained m lo bs hi) (hb : b ∈ bs) : b.next ≤ hi := by
  induction bs generalizing lo with
  | nil => cases hb
  | cons c bs ih =>
    rcases List.mem_cons.mp hb with rfl | hb
    · exact h.2.le
    · exact ih h.2 hb

/-- A chain from the grid ends on the grid. -/
theorem Chained.mod (h : r.Chained m lo bs hi) (hlo : lo % a.bytes = 0) : hi % a.bytes = 0 := by
  induction bs generalizing lo with
  | nil =>
    obtain rfl : lo = hi := h
    exact hlo
  | cons b bs ih =>
    obtain ⟨hb, hrest⟩ := h
    have hoff : b.offset = lo := congrArg Block.offset hb
    exact ih hrest (Block.next_mod (hoff ▸ hlo))

/-- On the grid and short of the end there is room for a header. -/
theorem isHeaderOffset_of_lt (hlo : lo % a.bytes = 0) (hlt : lo < r.size) : r.IsHeaderOffset lo := by
  have hdvd : a.bytes ∣ r.size - lo :=
    Nat.dvd_sub (Nat.dvd_of_mod_eq_zero r.size_mod) (Nat.dvd_of_mod_eq_zero hlo)
  have hle := Nat.le_of_dvd (by omega) hdvd
  exact ⟨hlo, by omega⟩

/-- **The walk follows a chain** of blocks that are not of size zero. -/
theorem Chained.leads (h : r.Chained m lo bs hi) (hsize : ∀ b ∈ bs, b.size ≠ 0)
    (hlo : lo % a.bytes = 0) (hhi : hi ≤ r.size) : r.Leads m lo bs hi := by
  induction bs generalizing lo with
  | nil => exact h
  | cons b bs ih =>
    obtain ⟨hb, hrest⟩ := h
    have hoff : b.offset = lo := congrArg Block.offset hb
    have hb0 := hsize b List.mem_cons_self
    have hle := hrest.le
    have hnext : b.next % a.bytes = 0 := Block.next_mod (hoff ▸ hlo)
    have hlt : lo < r.size := by
      unfold Block.next at hle
      omega
    exact ⟨isHeaderOffset_of_lt hlo hlt, hb, hb0,
      ih hrest (fun c hc => hsize c (List.mem_cons_of_mem b hc)) hnext⟩

/-- A chain that is in order and ends with the region is the whole walk. -/
theorem Chained.blocks_eq (h : r.Chained m 0 bs r.size) (horder : Orderly min merged bs)
    (hmin : 0 < min) : r.blocks m = .ok bs := by
  have hleads := h.leads (horder.size_ne_zero hmin) (Nat.zero_mod _) (Nat.le_refl _)
  have hend : r.Trail m r.size [] := fun hoff => by
    have hbytes := a.bytes_pos
    have hfit := hoff.2
    omega
  rw [blocks_eq_of_trail (hleads.trail hend), List.append_nil]

/-- A chain that is in order and ends earlier is the start of the walk. -/
theorem Chained.exists_blocks (h : r.Chained m 0 pre b.offset) (horder : Orderly min merged pre)
    (hmin : 0 < min) (hb : b.header = ⟨m.readWord (r.base + b.offset)⟩) (hlt : b.offset < r.size) :
    ∃ post, r.blocks m = .ok (pre ++ b :: post) := by
  have hoff : r.IsHeaderOffset b.offset := isHeaderOffset_of_lt (h.mod (Nat.zero_mod _)) hlt
  have hleads := h.leads (horder.size_ne_zero hmin) (Nat.zero_mod _) (Nat.le_of_lt hlt)
  obtain ⟨bs, -, htrail⟩ := r.blocksFrom_trail m b.offset
  cases bs with
  | nil => exact absurd hoff htrail
  | cons c post =>
    obtain rfl : b = c := by
      rw [htrail.2.1]
      exact congrArg (Block.mk b.offset) hb
    exact ⟨post, blocks_eq_of_trail (hleads.trail htrail)⟩

/-! ## 2. One block of the audit -/

/-- A block that breaks no rule is passed, and counted if it is free. -/
theorem auditFrom_cons (hoff : r.IsHeaderOffset b.offset) (hres : ¬ b.header.Reserved)
    (hmin : min ≤ b.size) (hnext : b.next ≤ r.size)
    (hapart : merged = true → ∀ c ∈ left, c.header.Allocated ∨ b.header.Allocated) :
    r.auditFrom min merged (b :: bs) b.offset free (freeOffset? left) =
      r.auditFrom min merged bs b.next (free + if b.header.Allocated then 0 else 1)
        (freeOffset? (some b)) := by
  have hadd : Word.add b.offset b.size = .ok b.next := by
    have hlimit := r.base_add_size_lt
    unfold Block.next at hnext
    exact Word.add_eq_ok (by omega)
  have hroom : ¬ r.size - b.offset < b.size := by
    unfold Block.next at hnext
    omega
  have hdefect : r.defectAt? min b = .ok none := by
    simp only [defectAt?, room_eq_ok hoff, hres, hroom, Nat.not_lt.mpr hmin, bind, Except.bind, pure,
      Except.pure, if_false]
  conv_lhs => unfold auditFrom
  simp only [hdefect, hadd, bind, Except.bind]
  by_cases hall : b.header.Allocated
  · simp only [hall, if_true, freeOffset?, Option.bind_some, Nat.add_zero]
  · have hlast : freeOffset? (some b) = some b.offset := if_neg hall
    simp only [hall, hlast, if_false]
    cases merged with
    | false => rfl
    | true =>
      -- the block in front is not free, so there is none to remember
      have hleft : freeOffset? left = none := by
        cases left with
        | none => rfl
        | some c => exact if_pos ((hapart rfl c rfl).resolve_right hall)
      rw [hleft]

/-- At a block that breaks a rule the audit ends, and names it. -/
theorem auditFrom_of_offends (hoff : r.IsHeaderOffset b.offset)
    (h : r.Offends min merged left b d) :
    r.auditFrom min merged (b :: bs) b.offset free (freeOffset? left) = .ok (.error d) := by
  have hend := hoff.2
  unfold auditFrom
  cases h with
  | reserved hres =>
    simp only [defectAt?, hres, bind, Except.bind, pure, Except.pure, if_true]
  | small hres hsmall =>
    simp only [defectAt?, hres, hsmall, bind, Except.bind, pure, Except.pure, if_true, if_false]
  | overrun hres hmin hover =>
    have hroom : r.size - b.offset < b.size := by
      unfold Block.next at hover
      omega
    simp only [defectAt?, room_eq_ok hoff, hres, hroom, Nat.not_lt.mpr hmin, bind, Except.bind, pure,
      Except.pure, if_true, if_false]
  | adjacent c hres hmin hnext hmerged hleft hc hb =>
    have hroom : ¬ r.size - b.offset < b.size := by
      unfold Block.next at hnext
      omega
    subst hmerged hleft
    simp only [defectAt?, room_eq_ok hoff, hres, hroom, Nat.not_lt.mpr hmin, hb, hc, freeOffset?,
      Option.bind_some, bind, Except.bind, pure, Except.pure, if_false]

/-! ## 3. The run of the audit -/

/-- **The audit passes what is in order**, counts its free blocks and remembers its last one. -/
theorem auditFrom_append (hchain : r.Chained m lo pre hi)
    (horder : Orderly min merged (left.toList ++ pre)) (hmin : 0 < min)
    (hlo : lo % a.bytes = 0) (hhi : hi ≤ r.size) :
    r.auditFrom min merged (pre ++ bs) lo free (freeOffset? left) =
      r.auditFrom min merged bs hi (free + pre.countP fun b => !decide b.header.Allocated)
        (freeOffset? (pre.getLast?.or left)) := by
  induction pre generalizing lo free left with
  | nil =>
    obtain rfl : lo = hi := hchain
    rfl
  | cons b pre ih =>
    obtain ⟨hoff, -, -, -⟩ := hchain.leads (horder.right.size_ne_zero hmin) hlo hhi
    obtain ⟨hb, hrest⟩ := hchain
    obtain rfl : b.offset = lo := congrArg Block.offset hb
    obtain ⟨hres, hsize⟩ := horder.right.sound b List.mem_cons_self
    have hapart : merged = true → ∀ c ∈ left, c.header.Allocated ∨ b.header.Allocated := by
      intro hm c hc
      obtain rfl : left = some c := hc
      exact (List.isChain_cons_cons.mp (horder.apart hm)).1
    have hmod : b.next % a.bytes = 0 := Block.next_mod hlo
    have hnext : Orderly min merged ((some b).toList ++ pre) := horder.right
    rw [List.cons_append,
      auditFrom_cons hoff hres hsize (Nat.le_trans hrest.le hhi) hapart,
      ih hrest hnext hmod, List.getLast?_cons, List.countP_cons]
    congr 1
    · by_cases hall : b.header.Allocated
      · simp only [hall, if_true, decide_true, Bool.not_true, Bool.false_eq_true, if_false]
        omega
      · simp only [hall, if_false, decide_false, Bool.not_false, if_true]
        omega
    · cases pre.getLast? <;> rfl

theorem TiledBy.audit_eq (h : r.TiledBy m min merged k) (hmin : 0 < min) :
    r.audit m min merged = .ok (.ok k) := by
  obtain ⟨bs, hchain, horder, rfl⟩ := h
  have hrun : r.auditFrom min merged (bs ++ []) 0 0 (freeOffset? none) = _ :=
    auditFrom_append hchain horder hmin (Nat.zero_mod _) (Nat.le_refl _)
  have hlast : ∀ free lastFree,
      r.auditFrom min merged [] r.size free lastFree = .ok (.ok free) := fun _ _ => by
    simp only [auditFrom, pure, Except.pure, if_true]
  rw [List.append_nil, hlast, Nat.zero_add] at hrun
  rw [audit, hchain.blocks_eq horder hmin]
  exact hrun

theorem FirstOffence.audit_eq (h : r.FirstOffence m min merged d) (hmin : 0 < min) :
    r.audit m min merged = .ok (.error d) := by
  obtain ⟨pre, b, hchain, horder, hb, hlt, hoffends⟩ := h
  obtain ⟨post, hblocks⟩ := hchain.exists_blocks horder hmin hb hlt
  have hrun : r.auditFrom min merged (pre ++ b :: post) 0 0 (freeOffset? none) = _ :=
    auditFrom_append hchain horder hmin (Nat.zero_mod _) (Nat.le_of_lt hlt)
  have hoff : r.IsHeaderOffset b.offset :=
    isHeaderOffset_of_lt (hchain.mod (Nat.zero_mod _)) hlt
  rw [Option.or_none, auditFrom_of_offends hoff hoffends] at hrun
  rw [audit, hblocks]
  exact hrun

/-! ## 4. Every memory has a verdict -/

/-- A well-formed block that lies inside breaks no rule or is the second of two free ones. -/
theorem offends_or_fit (r : Region a) (min : Nat) (merged : Bool) (left : Option (Block a))
    (b : Block a) :
    (∃ d, r.Offends min merged left b d) ∨ ¬ b.header.Reserved ∧ min ≤ b.size ∧ b.next ≤ r.size ∧
      (merged = true → ∀ c ∈ left, c.header.Allocated ∨ b.header.Allocated) := by
  by_cases hres : b.header.Reserved
  · exact .inl ⟨_, .reserved hres⟩
  · by_cases hmin : min ≤ b.size
    · by_cases hnext : b.next ≤ r.size
      · by_cases hpair : merged = true ∧ ¬ b.header.Allocated ∧ ∃ c ∈ left, ¬ c.header.Allocated
        · obtain ⟨hm, hb, c, hleft, hc⟩ := hpair
          exact .inl ⟨_, .adjacent c hres hmin hnext hm hleft hc hb⟩
        · refine .inr ⟨hres, hmin, hnext, fun hm c hc => ?_⟩
          by_contra hnone
          obtain ⟨hcfree, hbfree⟩ := not_or.mp hnone
          exact hpair ⟨hm, hbfree, c, hc, hcfree⟩
      · exact .inl ⟨_, .overrun hres hmin (Nat.not_le.mp hnext)⟩
    · exact .inl ⟨_, .small hres (Nat.not_le.mp hmin)⟩

/-- From a chain that is in order one comes to the end or to an offence. -/
theorem exists_verdict_from {pre : List (Block a)} {lo : Nat} (hchain : r.Chained m 0 pre lo)
    (horder : Orderly min merged pre) (hmin : 0 < min) (hlo : lo ≤ r.size) :
    (∃ k, r.TiledBy m min merged k) ∨ ∃ d, r.FirstOffence m min merged d := by
  rcases Nat.eq_or_lt_of_le hlo with rfl | hlt
  · exact .inl ⟨_, pre, hchain, horder, rfl⟩
  · have hb : ∃ b : Block a, b = ⟨lo, ⟨m.readWord (r.base + lo)⟩⟩ := ⟨_, rfl⟩
    obtain ⟨b, hb⟩ := hb
    have hoff : b.offset = lo := congrArg Block.offset hb
    rcases r.offends_or_fit min merged pre.getLast? b with ⟨d, hd⟩ | ⟨hres, hsize, hnext, hapart⟩
    · exact .inr ⟨d, pre, b, hoff ▸ hchain, horder, by rw [hb], hoff ▸ hlt, hd⟩
    · have hstep : r.Chained m lo [b] b.next := ⟨hb, rfl⟩
      have hmore : lo < b.next := by
        unfold Block.next
        omega
      exact exists_verdict_from (hchain.append hstep) (horder.concat hres hsize hapart) hmin
        hnext
termination_by r.size - lo
decreasing_by
  -- a block that is in order is not of size zero and ends inside the region
  omega

theorem exists_verdict (r : Region a) (m : Memory) (hmin : 0 < min) (merged : Bool) :
    (∃ k, r.TiledBy m min merged k) ∨ ∃ d, r.FirstOffence m min merged d :=
  have hnil : r.Chained m 0 [] 0 := rfl
  exists_verdict_from hnil .nil hmin (Nat.zero_le _)

/-- **The audit comes to an end**, whatever is in memory. -/
theorem exists_audit (r : Region a) (m : Memory) (hmin : 0 < min) (merged : Bool) :
    ∃ v, r.audit m min merged = .ok v := by
  rcases r.exists_verdict m hmin merged with ⟨k, hk⟩ | ⟨d, hd⟩
  · exact ⟨_, hk.audit_eq hmin⟩
  · exact ⟨_, hd.audit_eq hmin⟩

/-- The audit accepts exactly what is tiled. -/
theorem tiledBy_iff (hmin : 0 < min) :
    r.TiledBy m min merged k ↔ r.audit m min merged = .ok (.ok k) := by
  refine ⟨fun h => h.audit_eq hmin, fun h => ?_⟩
  rcases r.exists_verdict m hmin merged with ⟨j, hj⟩ | ⟨d, hd⟩
  · have hjk := (hj.audit_eq hmin).symm.trans h
    obtain rfl : j = k := Except.ok.inj (Except.ok.inj hjk)
    exact hj
  · cases (hd.audit_eq hmin).symm.trans h

/-- The audit names exactly the first offence. -/
theorem firstOffence_iff (hmin : 0 < min) :
    r.FirstOffence m min merged d ↔ r.audit m min merged = .ok (.error d) := by
  refine ⟨fun h => h.audit_eq hmin, fun h => ?_⟩
  rcases r.exists_verdict m hmin merged with ⟨k, hk⟩ | ⟨e, he⟩
  · cases (hk.audit_eq hmin).symm.trans h
  · have hed := (he.audit_eq hmin).symm.trans h
    obtain rfl : e = d := Except.error.inj (Except.ok.inj hed)
    exact he

/-- **The audit decides between a tiling and a first offence**, on any memory. It accepts exactly if
    the sizes that the headers give add up to the size of the region, all blocks in order, and then
    counts the free ones; and else it names the lowest block that breaks a rule. It comes to an end
    with one of the two, so no sum of sizes leaves the range of a word, and the check of the sum at
    the end never fails. -/
theorem audit_decides (r : Region a) (m : Memory) (hmin : 0 < min) (merged : Bool) :
    ∃ v, r.audit m min merged = .ok v ∧
      (∀ k, v = .ok k ↔ r.TiledBy m min merged k) ∧
      (∀ d, v = .error d ↔ r.FirstOffence m min merged d) ∧
      ∀ walked expected, v ≠ .error (.tilingMismatch walked expected) := by
  obtain ⟨v, hv⟩ := r.exists_audit m hmin merged
  have htiled : ∀ k, v = .ok k ↔ r.TiledBy m min merged k := fun k => by
    rw [tiledBy_iff hmin, hv, Except.ok.injEq]
  have hoffence : ∀ d, v = .error d ↔ r.FirstOffence m min merged d := fun d => by
    rw [firstOffence_iff hmin, hv, Except.ok.injEq]
  refine ⟨v, hv, htiled, hoffence, fun walked expected hmismatch => ?_⟩
  obtain ⟨pre, b, -, -, -, -, hoffends⟩ := (hoffence _).mp hmismatch
  cases hoffends

/-- A region of 64 bytes. -/
def pairRegion : Region .eight :=
  ⟨64, 64, rfl, rfl, by decide⟩

/-- Two free blocks, of 32 bytes each. -/
def pairMemory : Memory :=
  ((Memory.blank 64 64 0).writeWord 64 32).writeWord 96 32

/-- Two free neighbours: an offence in a heap that merges, and else a tiling with two free blocks. -/
theorem audit_decides_pair :
    0 < Strategy.list.minBlock .eight ∧
      pairRegion.audit pairMemory (Strategy.list.minBlock .eight) true =
        .ok (.error (.adjacentFree 0 32)) ∧
      pairRegion.audit pairMemory (Strategy.list.minBlock .eight) false = .ok (.ok 2) := by
  have hpos : 0 < Strategy.list.minBlock .eight := by decide
  have hfirst : pairMemory.readWord (pairRegion.base + 0) = 32 := by decide +kernel
  have hsecond : pairMemory.readWord (pairRegion.base + 32) = 32 := by decide +kernel
  have hfront : pairRegion.Chained pairMemory 0 [⟨0, ⟨32⟩⟩] 32 := ⟨by rw [hfirst], rfl⟩
  refine ⟨hpos, ?_, ?_⟩
  · obtain ⟨v, hv, -, hoffence, -⟩ := audit_decides pairRegion pairMemory hpos true
    rw [hv, (hoffence (.adjacentFree 0 32)).mpr]
    refine ⟨[⟨0, ⟨32⟩⟩], ⟨32, ⟨32⟩⟩, hfront, ⟨by decide, fun _ => .singleton _⟩, by rw [hsecond],
      by decide, ?_⟩
    exact .adjacent ⟨0, ⟨32⟩⟩ (by decide) (by decide) (by decide) rfl rfl (by decide) (by decide)
  · obtain ⟨v, hv, htiled, -, -⟩ := audit_decides pairRegion pairMemory hpos false
    rw [hv, (htiled 2).mpr]
    exact ⟨[⟨0, ⟨32⟩⟩, ⟨32, ⟨32⟩⟩], hfront.append ⟨by rw [hsecond], rfl⟩, ⟨by decide, nofun⟩, rfl⟩

end Region

/-! ## 5. Where the walk breaks off -/

/-- The offset of the block that a defect says cannot be walked past. -/
def Defect.brokenAt? : Defect → Option Nat
  | misalignedSize off _ | blockTooSmall off _ | overrun off _ => some off
  | _ => none

namespace Region

variable {a : Alignment} {r : Region a} {m : Memory} {lo hi min off : Nat} {merged : Bool}
  {left : Option (Block a)} {bs pre post : List (Block a)} {b : Block a} {d : Defect}

open Block (Orderly)

/-- The block cannot be walked past: its header has reserved bits, or its size is too small or leads
    past the end. -/
def Broken (r : Region a) (min : Nat) (b : Block a) : Prop :=
  b.header.Reserved ∨ b.size < min ∨ r.size < b.next

instance (r : Region a) (min : Nat) (b : Block a) : Decidable (r.Broken min b) :=
  inferInstanceAs (Decidable (_ ∨ _ ∨ _))

/-- The first block of the list that cannot be walked past lies at this offset. -/
def BreaksAt (r : Region a) (min : Nat) (bs : List (Block a)) (off : Nat) : Prop :=
  ∃ pre b post, bs = pre ++ b :: post ∧ (∀ c ∈ pre, ¬ r.Broken min c) ∧ r.Broken min b ∧
    b.offset = off

/-- The blocks of a chain that is in order can be walked past. -/
theorem Chained.not_broken (h : r.Chained m lo bs hi) (horder : Orderly min merged bs)
    (hhi : hi ≤ r.size) : ∀ b ∈ bs, ¬ r.Broken min b := by
  intro b hb hbroken
  obtain ⟨hres, hsize⟩ := horder.sound b hb
  have hnext := h.next_le hb
  rcases hbroken with hbroken | hbroken | hbroken
  · exact hres hbroken
  · omega
  · omega

/-- In a heap that does not merge an offence is a block that cannot be walked past, and names it. -/
theorem Offends.broken (h : r.Offends min false left b d) :
    r.Broken min b ∧ d.brokenAt? = some b.offset := by
  cases h with
  | reserved hres => exact ⟨.inl hres, rfl⟩
  | small _ hsmall => exact ⟨.inr (.inl hsmall), rfl⟩
  | overrun _ _ hover => exact ⟨.inr (.inr hover), rfl⟩
  | adjacent _ _ _ _ hmerged => cases hmerged

/-- What a block breaks on its own it breaks in a heap that merges as well. -/
theorem Offends.merge (h : r.Offends min false left b d) : r.Offends min true left b d := by
  cases h with
  | reserved hres => exact .reserved hres
  | small hres hsmall => exact .small hres hsmall
  | overrun hres hmin hover => exact .overrun hres hmin hover
  | adjacent _ _ _ _ hmerged => cases hmerged

/-- **The audit of a heap that does not merge fails at the block where the walk breaks off**, and
    goes through if there is none. -/
theorem audit_breaks (r : Region a) (m : Memory) (hmin : 0 < min) :
    ∃ bs, r.blocks m = .ok bs ∧
      ((∃ k, r.audit m min false = .ok (.ok k)) ∧ (∀ b ∈ bs, ¬ r.Broken min b) ∨
        ∃ d off, r.audit m min false = .ok (.error d) ∧ d.brokenAt? = some off ∧
          r.BreaksAt min bs off) := by
  rcases r.exists_verdict m hmin false with ⟨k, htiled⟩ | ⟨d, hfirst⟩
  · have haudit := htiled.audit_eq hmin
    obtain ⟨bs, hchain, horder, -⟩ := htiled
    exact ⟨bs, hchain.blocks_eq horder hmin,
      .inl ⟨⟨k, haudit⟩, hchain.not_broken horder (Nat.le_refl _)⟩⟩
  · have haudit := hfirst.audit_eq hmin
    obtain ⟨pre, b, hchain, horder, hb, hlt, hoffends⟩ := hfirst
    obtain ⟨post, hblocks⟩ := hchain.exists_blocks horder hmin hb hlt
    obtain ⟨hbroken, hat⟩ := hoffends.broken
    exact ⟨pre ++ b :: post, hblocks, .inr ⟨d, b.offset, haudit, hat, pre, b, post, rfl,
      hchain.not_broken horder (Nat.le_of_lt hlt), hbroken, rfl⟩⟩

/-- A chain is cut at a block. -/
theorem Chained.cut (h : r.Chained m lo (pre ++ b :: post) hi) :
    r.Chained m lo pre b.offset ∧ b.header = ⟨m.readWord (r.base + b.offset)⟩ ∧
      r.Chained m b.next post hi := by
  induction pre generalizing lo with
  | nil =>
    obtain ⟨hb, hpost⟩ := h
    obtain rfl : b.offset = lo := congrArg Block.offset hb
    have hheader := congrArg Block.header hb
    exact ⟨rfl, hheader, hpost⟩
  | cons c pre ih =>
    obtain ⟨hc, hrest⟩ := h
    obtain ⟨hpre, hb, hpost⟩ := ih hrest
    exact ⟨⟨hc, hpre⟩, hb, hpost⟩

/-- Blocks that are in order for a heap that does not merge are so for one that merges, or there is a
    first pair of free neighbours among them. -/
theorem Chained.orderly_or_adjacent (h : r.Chained m 0 (pre ++ post) hi)
    (hfalse : Orderly min false (pre ++ post)) (htrue : Orderly min true pre) (hmin : 0 < min)
    (hhi : hi ≤ r.size) :
    Orderly min true (pre ++ post) ∨
      ∃ first second, r.FirstOffence m min true (.adjacentFree first second) ∧ second < hi := by
  induction post generalizing pre with
  | nil =>
    rw [List.append_nil]
    exact .inl htrue
  | cons c post ih =>
    obtain ⟨hpre, hc, hpost⟩ := h.cut
    obtain ⟨hres, hsize⟩ := hfalse.sound c (List.mem_append_right pre List.mem_cons_self)
    have hnext := hpost.le
    have hlt : c.offset < hi := by
      unfold Block.next at hnext
      omega
    rcases r.offends_or_fit min true pre.getLast? c with ⟨d, hd⟩ | ⟨-, -, -, hapart⟩
    · cases hd with
      | reserved hres' => exact absurd hres' hres
      | small _ hsmall => omega
      | overrun _ _ hover => omega
      | adjacent e hres hsize hend hmerged hleft he hcfree =>
        exact .inr ⟨e.offset, c.offset, ⟨pre, c, hpre, htrue, hc, by omega,
          .adjacent e hres hsize hend hmerged hleft he hcfree⟩, hlt⟩
    · rw [List.append_cons] at h hfalse ⊢
      exact ih h hfalse (htrue.concat hres hsize hapart)

/-- **In a heap that merges the audit names the same block, or a pair of free neighbours in front of
    it.** -/
theorem audit_merge (hmin : 0 < min) (h : r.audit m min false = .ok (.error d)) :
    r.audit m min true = .ok (.error d) ∨
      ∃ first second off, r.audit m min true = .ok (.error (.adjacentFree first second)) ∧
        d.brokenAt? = some off ∧ second < off := by
  obtain ⟨pre, b, hchain, horder, hb, hlt, hoffends⟩ := (firstOffence_iff hmin).mpr h
  rcases Chained.orderly_or_adjacent hchain horder .nil hmin (Nat.le_of_lt hlt) with
    htrue | ⟨first, second, hfirst, hsecond⟩
  · have hd : r.FirstOffence m min true d := ⟨pre, b, hchain, htrue, hb, hlt, hoffends.merge⟩
    exact .inl (hd.audit_eq hmin)
  · exact .inr ⟨first, second, b.offset, hfirst.audit_eq hmin, hoffends.broken.2, hsecond⟩

end Region

end RegionHeap
