import RegionHeap.Proofs.Heap.Snapshot
import RegionHeap.Proofs.Layout.Offence
import RegionHeap.Proofs.Layout.Standing

/-!
# The scanning heap over any memory

Whatever is in memory, a scanning heap finds a walk in it, and every operation leaves another one
behind. Each lemma starts from the trail that the walk finds and gives the one that it finds
afterwards. Nothing is assumed of the headers, so nothing is known of a block until a check has
passed.

* `splitTail_spec`, `carve?_spec` -- blocks are cut inside their bounds;
* `Stays` -- the heap stays the same, and writes inside its region;
* `release_spec`, `allocate_spec`, `resize_spec` -- the operations that write;
* `copy_spec`, `relocate_spec` -- the copy of a relocation, from one block to another one;
* `usableSize_ok`, `validate_ok`, `dump_ok` -- the operations that only look.
-/

namespace RegionHeap.ScanHeap

open Region
open Memory (AgreeOutside Between Carries)

variable {a : Alignment} {r : Region a} {h : ScanHeap a} {m : Memory} {keep need n addr : Nat}
  {bs pre post : List (Block a)} {b c : Block a}

/-! ## 1. Blocks -/

/-- **An allocated block is cut inside its bounds**, or stays as it is. -/
theorem splitTail_spec (h : r.Trail m 0 (pre ++ b :: post)) (hall : b.header.Allocated)
    (hend : b.next ≤ r.size) (hkeep : keep ≤ b.size) (hmod : keep % a.bytes = 0)
    (hmin : Strategy.scan.minBlock a ≤ keep) :
    ∃ m' k tail, splitTail r m b.offset keep = .ok m' ∧ r.Cut m m' keep b k pre tail post := by
  have hb : b ∈ pre ++ b :: post := List.mem_append_right pre List.mem_cons_self
  have hoff := (h.bounds hb).2
  have hheader : r.header m b.offset = .ok b.header := by
    rw [header_eq_ok hoff.hasWord, h.header_eq hb]
  have hsize : b.header.size = b.size := rfl
  unfold splitTail
  by_cases hsmall : b.size - keep < Strategy.scan.minBlock a
  · refine ⟨m, b, [], ?_, h, rfl, hall, hkeep, Nat.le_refl _, .refl _ _⟩
    simp only [hheader, hsize, hkeep, hsmall, bind, Except.bind, pure, Except.pure, if_true]
  · have hbytes : a.bytes ≤ Strategy.scan.minBlock a := Nat.le_add_right _ _
    obtain ⟨m1, m2, hset1, hset2, k, tail, hcut⟩ := h.split hend hmod (by omega) (by omega)
    refine ⟨m2, k, tail, ?_, hcut⟩
    simp only [hheader, hsize, hkeep, hsmall, hset1, bind, Except.bind, pure, Except.pure, if_true,
      if_false]
    exact hset2

/-- The search gives a free block of the walk that is large enough and ends in the region, unless
    there is none. -/
theorem firstFit_spec (hbs : ∀ b ∈ bs, r.IsHeaderOffset b.offset) :
    ∃ b?, firstFit r need bs = .ok b? ∧
      (∀ b ∈ b?, b ∈ bs ∧ ¬ b.header.Allocated ∧ need ≤ b.size ∧ b.next ≤ r.size) ∧
      (b? = none → ∀ b ∈ bs, r.Unfit need b) := by
  induction bs with
  | nil =>
    refine ⟨none, rfl, fun b hb => ?_, fun _ b hb => absurd hb List.not_mem_nil⟩
    cases hb
  | cons c bs ih =>
    obtain ⟨b?, hfit, hfound, hnone⟩ := ih fun b hb => hbs b (List.mem_cons_of_mem c hb)
    have hfound' : ∀ b ∈ b?,
        b ∈ c :: bs ∧ ¬ b.header.Allocated ∧ need ≤ b.size ∧ b.next ≤ r.size := by
      intro b hb
      obtain ⟨hmem, hrest⟩ := hfound b hb
      exact ⟨List.mem_cons_of_mem c hmem, hrest⟩
    have hnone' : r.Unfit need c → b? = none → ∀ b ∈ c :: bs, r.Unfit need b := by
      intro hc hb? b hb
      rcases List.mem_cons.mp hb with rfl | hb
      · exact hc
      · exact hnone hb? b hb
    have hoff := hbs c List.mem_cons_self
    have hend := hoff.2
    unfold firstFit
    by_cases hunfit : c.header.Allocated ∨ c.size < need
    · rw [if_pos hunfit]
      exact ⟨b?, hfit, hfound', hnone' (hunfit.imp_right .inl)⟩
    · obtain ⟨hfree, hneed⟩ := not_or.mp hunfit
      simp only [if_neg hunfit, room_eq_ok hoff, bind, Except.bind, pure, Except.pure]
      by_cases hroom : c.size ≤ r.size - c.offset
      · have hnext : c.next ≤ r.size := by
          unfold Block.next
          omega
        rw [if_pos hroom]
        refine ⟨some c, rfl, fun b hb => ?_, fun h => absurd h (Option.some_ne_none c)⟩
        obtain rfl := Option.some.inj hb
        exact ⟨List.mem_cons_self, hfree, Nat.not_lt.mp hneed, hnext⟩
      · have hnext : r.size < c.next := by
          unfold Block.next
          omega
        rw [if_neg hroom]
        exact ⟨b?, hfit, hfound', hnone' (.inr (.inr hnext))⟩

/-- **A block is carved out of a free one**, unless there is none for it. -/
theorem carve?_spec (htrail : r.Trail m 0 bs) (hmod : need % a.bytes = 0)
    (hmin : Strategy.scan.minBlock a ≤ need) :
    ∃ res, carve? r m need = .ok res ∧ (res = none → ∀ b ∈ bs, r.Unfit need b) ∧
      ∀ off m', res = some (off, m') →
        ∃ b k pre tail post, bs = pre ++ b :: post ∧ off = b.offset ∧ ¬ b.header.Allocated ∧
          b.next ≤ r.size ∧ r.Cut m m' need b k pre tail post := by
  obtain ⟨b?, hfit, hfound, hnone⟩ :=
    @firstFit_spec _ r need bs fun b hb => (htrail.bounds hb).2
  unfold carve?
  simp only [blocks_eq_of_trail htrail, hfit, bind, Except.bind]
  cases b? with
  | none => exact ⟨none, rfl, fun _ => hnone rfl, fun _ _ h => nomatch h⟩
  | some b =>
    obtain ⟨hmem, hfree, hneed, hend⟩ := hfound b rfl
    obtain ⟨pre, post, rfl⟩ := List.append_of_mem hmem
    have hminpos : 0 < Strategy.scan.minBlock a := Strategy.scan.minBlock_pos
    obtain ⟨m1, hset, htrail1, hm1⟩ := htrail.setFlag true (by omega) hend
    obtain ⟨m2, k, tail, hsplit, hcut⟩ :=
      splitTail_spec htrail1 ((Header.allocated_ofSize _ true).mpr rfl)
        ((b.next_flagged true).symm ▸ hend) ((b.size_flagged true).symm ▸ hneed) hmod hmin
    simp only [hset, pure, Except.pure]
    refine ⟨some (b.offset, m2), ?_, (fun h => nomatch h), fun off m' h => ?_⟩
    · rw [show splitTail r m1 b.offset need = .ok m2 from hsplit]
    · cases h
      exact ⟨b, k, pre, tail, post, rfl, rfl, hfree, hend, hcut.of_flagged hm1⟩

/-! ## 2. Operations that write -/

/-- What an operation of a scanning heap leaves behind on any memory: the same heap, another walk,
    and everything outside the region as it was. -/
structure Stays {V : Type} (r : Region a) (h : ScanHeap a) (m : Memory)
    (o : Outcome a (ScanHeap a) V) (bs' : List (Block a)) : Prop where
  heap_eq : o.heap = h
  trail : r.Trail o.memory 0 bs'
  inside : AgreeOutside (Between r.base (r.base + r.size)) m o.memory

/-- **A release changes the block that the address names**, if there is one, and no other block. -/
theorem release_spec (hr : h.region = some r) (htrail : r.Trail m 0 bs) (addr : Nat) :
    ∃ o bs', h.release m addr = .ok o ∧ o.heap = h ∧ r.Trail o.memory 0 bs' ∧
      (∀ k ∈ bs, addr ≠ r.base + k.offset + a.bytes → k ∈ bs') ∧
      AgreeOutside (fun x => ∃ c, r.Stands bs addr c ∧ r.BlockBytes c x) m o.memory := by
  obtain ⟨live?, hlive, hstands⟩ := live?_spec htrail addr
  unfold ScanHeap.release
  simp only [hr, hlive, bind, Except.bind]
  cases live? with
  | none => exact ⟨_, bs, rfl, rfl, htrail, fun _ hk _ => hk, .refl _ _⟩
  | some live =>
    obtain ⟨c, hc, hoff, hsize⟩ := hstands live rfl
    have hpos := a.bytes_pos
    have hbytes : a.bytes ≤ Strategy.scan.minBlock a := Nat.le_add_right _ _
    have hmin := hc.min_le
    obtain ⟨pre, post, rfl⟩ := List.append_of_mem hc.mem
    obtain ⟨m', hset, htrail', hm⟩ := htrail.setFlag false (by omega) hc.next_le
    simp only [hoff, hsize, hset, pure, Except.pure]
    refine ⟨_, _, rfl, rfl, htrail', fun k hk hne => ?_, hm.mono fun x hx => ⟨c, hc, hx⟩⟩
    rcases List.mem_append.mp hk with hk | hk
    · exact List.mem_append_left _ hk
    · rcases List.mem_cons.mp hk with rfl | hk
      · exact absurd hc.addr_eq hne
      · exact List.mem_append_right _ (List.mem_cons_of_mem _ hk)

/-- A release stays in the region. -/
theorem release_stays (hr : h.region = some r) (htrail : r.Trail m 0 bs) (addr : Nat) :
    ∃ o bs', h.release m addr = .ok o ∧ Stays r h m o bs' := by
  obtain ⟨o, bs', hrelease, hheap, htrail', -, hm⟩ := release_spec hr htrail addr
  refine ⟨o, bs', hrelease, hheap, htrail', hm.mono fun x hx => ?_⟩
  obtain ⟨c, hc, hx⟩ := hx
  exact inside_of_blockBytes hc.next_le hx

/-- A block is carved for a request, with its address, unless the region is full. -/
theorem carve?_grants (htrail : r.Trail m 0 bs)
    (hneed : a.blockSize? (Strategy.scan.minPayload a) n = some need) :
    ∃ res, carve? r m need = .ok res ∧ (res = none → r.Full bs n) ∧
      ∀ off m', res = some (off, m') → r.payload off = .ok (r.base + off + a.bytes) ∧
        ∃ b k bs', off = k.offset ∧ r.Trail m' 0 bs' ∧
          r.Carved bs bs' n (r.base + off + a.bytes) b k ∧ AgreeOutside (r.BlockBytes b) m m' := by
  have hserves := Strategy.blockSize?_spec hneed
  obtain ⟨res, hcarve, hnone, hres⟩ := carve?_spec htrail hserves.mod hserves.minBlock_le
  refine ⟨res, hcarve, fun h need' hneed' => ?_, fun off m' h => ?_⟩
  · obtain rfl : need = need' := Option.some.inj (hneed.symm.trans hneed')
    exact hnone h
  · obtain ⟨b, k, pre, tail, post, rfl, rfl, hfree, hend, hcut⟩ := hres off m' h
    have hb : b ∈ pre ++ b :: post := List.mem_append_right pre List.mem_cons_self
    refine ⟨payload_eq_ok (htrail.bounds hb).2, b, k, _, hcut.offset_eq.symm, hcut.after, ?_,
      hcut.frame⟩
    refine ⟨hb, hfree, hend, ?_, hcut.allocated, hcut.offset_eq, hcut.next_le,
      by rw [hcut.offset_eq], Nat.le_trans hserves.payload_le hcut.keep_le⟩
    exact List.mem_append_right pre List.mem_cons_self

/-- A request that no block size serves finds any region full. -/
theorem full_of_blockSize? (h : a.blockSize? (Strategy.scan.minPayload a) n = none) :
    r.Full bs n := by
  intro need hneed
  rw [h] at hneed
  cases hneed

/-- **An allocation is carved out of a free block**, unless the region is full. -/
theorem allocate_spec (hr : h.region = some r) (htrail : r.Trail m 0 bs) (n : Nat) :
    ∃ o bs', h.allocate m n = .ok o ∧ Stays r h m o bs' ∧ (o.value = none → r.Full bs n) ∧
      ∀ new ∈ o.value, ∃ b k, r.Carved bs bs' n new b k := by
  unfold ScanHeap.allocate
  simp only [hr]
  cases hneed : a.blockSize? (Strategy.scan.minPayload a) n with
  | none =>
    exact ⟨_, bs, rfl, ⟨rfl, htrail, .refl _ _⟩, fun _ => full_of_blockSize? hneed,
      fun _ h => nomatch h⟩
  | some need =>
    obtain ⟨res, hcarve, hfull, hres⟩ := carve?_grants htrail hneed
    simp only [hcarve, bind, Except.bind]
    cases res with
    | none =>
      exact ⟨_, bs, rfl, ⟨rfl, htrail, .refl _ _⟩, fun _ => hfull rfl, fun _ h => nomatch h⟩
    | some x =>
      obtain ⟨off, m'⟩ := x
      obtain ⟨hpayload, b, k, bs', -, htrail', hcarved, hm⟩ := hres off m' rfl
      simp only [hpayload, pure, Except.pure]
      refine ⟨_, bs', rfl, ⟨rfl, htrail', hm.mono fun x hx => ?_⟩, (fun h => nomatch h),
        fun new hnew => ⟨b, k, ?_⟩⟩
      · exact inside_of_blockBytes hcarved.end_le hx
      · obtain rfl := Option.some.inj hnew
        exact hcarved

/-- **The copy of a relocation** reads inside the source, which stands in the walk before the
    carving, and writes inside the carved block. -/
theorem copy_spec {bs1 : List (Block a)} {m1 : Memory} {new : Nat} {k : Block a}
    (htrail : r.Trail m 0 bs) (hc : r.Stands bs addr c) (htrail1 : r.Trail m1 0 bs1)
    (hcarved : r.Carved bs bs1 n new b k) :
    ∃ m2, r.copyPayload m1 c.offset k.offset (min (c.size - a.bytes) n) = .ok m2 ∧
      r.Trail m2 0 bs1 ∧ AgreeOutside (r.BlockBytes k) m1 m2 ∧
      Carries m1 m2 addr new (min (c.size - a.bytes) n) := by
  have hfits := hcarved.fits
  have hend : k.next ≤ r.size := Nat.le_trans hcarved.next_le hcarved.end_le
  have hsrc := hc.next_le
  have hbytes := hc.bytes_le
  unfold Block.next at hend hsrc
  have hcopy : r.copyPayload m1 c.offset k.offset (min (c.size - a.bytes) n) =
      .ok (m1.copy addr new (min (c.size - a.bytes) n)) := by
    rw [hc.addr_eq, hcarved.addr_eq]
    exact copyPayload_eq_ok (htrail.bounds hc.mem).2 (htrail1.bounds hcarved.mem).2 (by omega)
      (by omega)
  have hm := Memory.agreeOutside_copy m1 addr new (min (c.size - a.bytes) n)
  have haddr := hcarved.addr_eq
  have hinside : ∀ x, Between new (new + min (c.size - a.bytes) n) x →
      Between (r.base + k.offset + a.bytes) (r.base + k.next) x := by
    intro x hx
    unfold Between Block.next at *
    omega
  refine ⟨_, hcopy, htrail1.congr_payload hcarved.mem (hm.mono hinside), hm.mono fun x hx => ?_,
    fun i hi => Memory.get_copy m1 addr new hi⟩
  obtain ⟨hlo, hhi⟩ := hinside x hx
  exact ⟨by omega, hhi⟩

/-- **The bytes that a relocation copies** are those that the source held at first, and they stay:
    the carving does not write to the source, and the release does not write to the copy. -/
theorem relocate_carries {bs1 : List (Block a)} {m1 m2 m3 : Memory} {new : Nat} {k : Block a}
    (htrail : r.Trail m 0 bs) (hc : r.Stands bs addr c) (htrail1 : r.Trail m1 0 bs1)
    (hcarved : r.Carved bs bs1 n new b k) (hm1 : AgreeOutside (r.BlockBytes b) m m1)
    (hcarries : Carries m1 m2 addr new (min (c.size - a.bytes) n))
    (hm3 : AgreeOutside (fun x => ∃ d, r.Stands bs1 addr d ∧ r.BlockBytes d x) m2 m3) :
    Carries m m3 addr new (min (c.size - a.bytes) n) := by
  have hne := hc.ne_free htrail hcarved.free_mem hcarved.free
  have haddr := hc.addr_eq
  have hnew := hcarved.addr_eq
  have hbefore : Carries m m1 addr addr (min (c.size - a.bytes) n) := by
    refine hm1.carries fun x hlo hhi => ?_
    have hbytes := hc.bytes_le
    rw [haddr] at hlo hhi
    exact not_blockBytes_of_apart (htrail.apart hc.mem hcarved.free_mem hne)
      (blockBytes_of_payload hlo hhi (by omega))
  have hafter : Carries m2 m3 new new (min (c.size - a.bytes) n) := by
    refine hm3.carries fun x hlo hhi hx => ?_
    obtain ⟨d, hd, hx⟩ := hx
    have hdk : d.offset ≠ k.offset := by
      have hsame := hd.addr_eq
      have hoffset := hcarved.offset_eq
      omega
    have hfits := hcarved.fits
    rw [hnew] at hlo hhi
    exact not_blockBytes_of_apart (htrail1.apart hd.mem hcarved.mem hdk) hx
      (blockBytes_of_payload hlo hhi (by omega))
  exact (hbefore.trans hcarries).trans hafter

/-- **A block that moves is copied to one carved out of a free block**, and only then given back. -/
theorem relocate_spec {live : Live} (hr : h.region = some r) (htrail : r.Trail m 0 bs)
    (hc : r.Stands bs addr c) (hoff : live.offset = c.offset) (hsize : live.size = c.size)
    (hneed : a.blockSize? (Strategy.scan.minPayload a) n = some need) :
    ∃ o bs', h.relocate r m addr live n need = .ok o ∧ Stays r h m o bs' ∧
      (o.value = none → r.Full bs n) ∧
      ∀ new ∈ o.value, ∃ b k, r.Carved bs bs' n new b k ∧ c.offset ≠ b.offset ∧
        Carries m o.memory addr new (min (c.size - a.bytes) n) := by
  obtain ⟨res, hcarve, hfull, hres⟩ := carve?_grants htrail hneed
  unfold relocate
  simp only [hcarve, bind, Except.bind]
  cases res with
  | none => exact ⟨_, bs, rfl, ⟨rfl, htrail, .refl _ _⟩, fun _ => hfull rfl, fun _ h => nomatch h⟩
  | some x =>
    obtain ⟨off, m1⟩ := x
    obtain ⟨hpayload, b, k, bs1, rfl, htrail1, hcarved, hm1⟩ := hres off m1 rfl
    have hne := hc.ne_free htrail hcarved.free_mem hcarved.free
    obtain ⟨m2, hcopy, htrail2, hm2, hcarries⟩ := copy_spec htrail hc htrail1 hcarved
    obtain ⟨o, bs', hrelease, hheap, htrail', hkept, hm3⟩ := release_spec hr htrail2 addr
    have hother : addr ≠ r.base + k.offset + a.bytes := by
      have haddr := hc.addr_eq
      have hoffset := hcarved.offset_eq
      omega
    have hend := Nat.le_trans hcarved.next_le hcarved.end_le
    simp only [hpayload, hc.usable_eq hsize, hoff, hcopy, hrelease, pure, Except.pure]
    refine ⟨_, bs', rfl, ⟨hheap, htrail', ?_⟩, (fun h => nomatch h),
      fun new hnew => ⟨b, k, ?_, hne, ?_⟩⟩
    · refine (hm1.mono fun x hx => inside_of_blockBytes hcarved.end_le hx).trans
        ((hm2.mono fun x hx => inside_of_blockBytes hend hx).trans (hm3.mono fun x hx => ?_))
      obtain ⟨d, hd, hx⟩ := hx
      exact inside_of_blockBytes hd.next_le hx
    · obtain rfl := Option.some.inj hnew
      exact { hcarved with mem := hkept k hcarved.mem hother }
    · obtain rfl := Option.some.inj hnew
      exact relocate_carries htrail hc htrail1 hcarved hm1 hcarries hm3

/-- An allocation that shrinks stays inside its block. -/
theorem shrink_spec (htrail : r.Trail m 0 bs) (hc : r.Stands bs addr c)
    (hserves : Strategy.scan.Serves a n need) (hneed : need ≤ c.size) :
    ∃ m' bs', splitTail r m c.offset need = .ok m' ∧ r.Trail m' 0 bs' ∧
      AgreeOutside (r.BlockBytes c) m m' := by
  obtain ⟨pre, post, rfl⟩ := List.append_of_mem hc.mem
  obtain ⟨m', k, tail, hsplit, hcut⟩ := splitTail_spec htrail hc.allocated hc.next_le hneed
    hserves.mod hserves.minBlock_le
  exact ⟨m', _, hsplit, hcut.after, hcut.frame⟩

/-- What a change of size to `n` bytes may answer: the same address, whose block holds the bytes, or
    that of a carved block, to which the bytes of the old one were carried. -/
def Resized (r : Region a) (m m' : Memory) (bs bs' : List (Block a)) (addr? : Option Nat)
    (n new : Nat) : Prop :=
  (addr? = some new ∧ ∃ c, r.Stands bs new c ∧ n + a.bytes ≤ c.size) ∨
    ∃ b k, r.Carved bs bs' n new b k ∧ ∀ addr ∈ addr?, ∃ c, r.Stands bs addr c ∧
      c.offset ≠ b.offset ∧ Carries m m' addr new (min (c.size - a.bytes) n)

/-- **A change of size of a live allocation** stays inside its block or moves it, unless the region
    is full. -/
theorem resize_live_spec {live : Live} (hr : h.region = some r) (htrail : r.Trail m 0 bs)
    (hlive : r.live? m (Strategy.scan.minBlock a) addr = .ok (some live))
    (hc : r.Stands bs addr c) (hoff : live.offset = c.offset) (hsize : live.size = c.size)
    (hn : n ≠ 0) :
    ∃ o bs', h.resize m (some addr) n = .ok o ∧ Stays r h m o bs' ∧
      (o.value = none → r.Full bs n) ∧
      ∀ new ∈ o.value, Resized r m o.memory bs bs' (some addr) n new := by
  unfold ScanHeap.resize
  simp only [if_neg hn, hr, hlive, bind, Except.bind]
  cases hneed : a.blockSize? (Strategy.scan.minPayload a) n with
  | none =>
    exact ⟨_, bs, rfl, ⟨rfl, htrail, .refl _ _⟩, fun _ => full_of_blockSize? hneed,
      fun _ h => nomatch h⟩
  | some need =>
    have hserves := Strategy.blockSize?_spec hneed
    by_cases hle : need ≤ live.size
    · have hfit : need ≤ c.size := hsize ▸ hle
      obtain ⟨m', bs', hsplit, htrail', hm⟩ := shrink_spec htrail hc hserves hfit
      simp only [if_pos hle, hoff, hsplit, pure, Except.pure]
      refine ⟨_, bs', rfl, ⟨rfl, htrail', hm.mono fun x hx => ?_⟩, (fun h => nomatch h),
        fun new hnew => .inl ⟨hnew, c, ?_⟩⟩
      · exact inside_of_blockBytes hc.next_le hx
      · obtain rfl := Option.some.inj hnew
        exact ⟨hc, Nat.le_trans hserves.payload_le hfit⟩
    · obtain ⟨o, bs', hrelocate, hstays, hfull, hvalue⟩ :=
        relocate_spec hr htrail hc hoff hsize hneed
      simp only [if_neg hle]
      refine ⟨o, bs', hrelocate, hstays, hfull, fun new hnew => .inr ?_⟩
      obtain ⟨b, k, hcarved, hne, hcarries⟩ := hvalue new hnew
      refine ⟨b, k, hcarved, fun x hx => ?_⟩
      obtain rfl := Option.some.inj hx
      exact ⟨c, hc, hne, hcarries⟩

/-- An address that names nothing live has no usable bytes. -/
theorem usableSize_of_live?_none (hr : h.region = some r)
    (hlive : r.live? m (Strategy.scan.minBlock a) addr = .ok none) :
    h.usableSize m addr = .ok none := by
  unfold ScanHeap.usableSize
  simp only [hr, hlive, bind, Except.bind]
  rfl

/-- **A change of size** answers the address of a block that holds the bytes, unless the region is
    full or the address names nothing live. -/
theorem resize_spec (hr : h.region = some r) (htrail : r.Trail m 0 bs) (addr? : Option Nat)
    (n : Nat) :
    ∃ o bs', h.resize m addr? n = .ok o ∧ Stays r h m o bs' ∧
      (o.value = none → r.Full bs n ∨ ∃ addr ∈ addr?, h.usableSize m addr = .ok none) ∧
      ∀ new ∈ o.value, Resized r m o.memory bs bs' addr? n new := by
  cases addr? with
  | none =>
    obtain ⟨o, bs', hallocate, hstays, hfull, hvalue⟩ := allocate_spec hr htrail n
    refine ⟨o, bs', hallocate, hstays, fun h => .inl (hfull h), fun new hnew => .inr ?_⟩
    obtain ⟨b, k, hcarved⟩ := hvalue new hnew
    exact ⟨b, k, hcarved, fun _ h => nomatch h⟩
  | some addr =>
    by_cases hn : n = 0
    · obtain ⟨o, bs', hrelease, hstays⟩ := release_stays hr htrail addr
      have hfull : r.Full bs n := full_of_blockSize? (if_neg fun h => h.1 hn)
      unfold ScanHeap.resize
      simp only [if_pos hn, hrelease, bind, Except.bind]
      exact ⟨_, bs', rfl, ⟨hstays.heap_eq, hstays.trail, hstays.inside⟩, fun _ => .inl hfull,
        fun _ h => nomatch h⟩
    · obtain ⟨live?, hlive, hstands⟩ := live?_spec htrail addr
      cases live? with
      | none =>
        have hdead := usableSize_of_live?_none hr hlive
        unfold ScanHeap.resize
        simp only [if_neg hn, hr, hlive, bind, Except.bind]
        exact ⟨_, bs, rfl, ⟨rfl, htrail, .refl _ _⟩, fun _ => .inr ⟨addr, rfl, hdead⟩,
          fun _ h => nomatch h⟩
      | some live =>
        obtain ⟨c, hc, hoff, hsize⟩ := hstands live rfl
        obtain ⟨o, bs', hresize, hstays, hfull, hvalue⟩ :=
          resize_live_spec hr htrail hlive hc hoff hsize hn
        exact ⟨o, bs', hresize, hstays, fun h => .inl (hfull h), hvalue⟩

/-! ## 3. Operations that only look -/

/-- The number of usable bytes can be told, whatever is in memory. -/
theorem usableSize_ok (hr : h.region = some r) (htrail : r.Trail m 0 bs) (addr : Nat) :
    ∃ n?, h.usableSize m addr = .ok n? := by
  obtain ⟨live?, hlive, hstands⟩ := live?_spec htrail addr
  unfold ScanHeap.usableSize
  simp only [hr, hlive, bind, Except.bind]
  cases live? with
  | none => exact ⟨none, rfl⟩
  | some live =>
    obtain ⟨c, hc, -, hsize⟩ := hstands live rfl
    simp only [hc.usable_eq hsize]
    exact ⟨_, rfl⟩

/-- A verdict is reached, whatever is in memory. -/
theorem validate_ok (hr : h.region = some r) (m : Memory) : ∃ v, h.validate m = .ok v := by
  obtain ⟨v, haudit⟩ := r.exists_audit m (Strategy.scan.minBlock_pos (a := a)) false
  unfold ScanHeap.validate
  simp only [hr, haudit, bind, Except.bind]
  exact ⟨_, rfl⟩

/-- The preview of a block shows bytes of the region. -/
theorem preview_ok (hoff : r.IsHeaderOffset b.offset) :
    ∃ lines, Snapshot.preview r m b = .ok lines ∧ ∀ line ∈ lines, line.Legible := by
  unfold Snapshot.preview
  by_cases hsize : b.size ≤ a.bytes
  · exact ⟨[], if_pos hsize, fun _ h => nomatch h⟩
  · have hend := hoff.2
    have hfit : b.offset + a.bytes +
        min (min b.size (r.size - b.offset) - a.bytes) Snapshot.previewLength ≤ r.size := by
      omega
    simp only [if_neg hsize, room_eq_ok hoff, Region.bytes, if_pos hfit, bind, Except.bind, pure,
      Except.pure]
    refine ⟨_, rfl, fun line hline => ?_⟩
    rw [List.mem_singleton.mp hline]
    intro piece hp
    rw [List.mem_singleton.mp hp]
    exact ⟨_, rfl⟩

/-- **A snapshot can be taken of any memory**, and each of its lines has a text. -/
theorem scanLines_ok {index : Nat} (hbs : ∀ b ∈ bs, r.IsHeaderOffset b.offset) :
    ∃ lines, Snapshot.scanLines r m index bs = .ok lines ∧ ∀ line ∈ lines, line.Legible := by
  induction bs generalizing index with
  | nil =>
    refine ⟨_, rfl, fun line hline => ?_⟩
    rw [List.mem_singleton.mp hline]
    exact Snapshot.legible_finish
  | cons b bs ih =>
    have hoff := hbs b List.mem_cons_self
    have hle : b.offset ≤ r.size := Nat.le_trans (Nat.le_add_right _ _) hoff.2
    obtain ⟨shown, hpreview, hshown⟩ := preview_ok (m := m) hoff
    have hhere : ∀ line ∈ (.block r index b .extent :: shown : List (Snapshot.Line a)),
        line.Legible := by
      intro line hline
      rcases List.mem_cons.mp hline with rfl | hline
      · exact Snapshot.legible_block hle
          ⟨_, by simp only [Snapshot.noteText, Snapshot.address_eq hle]; rfl⟩
      · exact hshown line hline
    obtain ⟨rest, hrest, hlegible⟩ := @ih (index + 1) fun c hc => hbs c (List.mem_cons_of_mem b hc)
    unfold Snapshot.scanLines
    by_cases hbroken : r.Broken (Strategy.scan.minBlock a) b
    · simp only [hpreview, Snapshot.isCorrupt_eq hoff, hbroken, bind, Except.bind, pure, Except.pure,
        decide_true, if_true]
      refine ⟨_, rfl, fun line hline => ?_⟩
      rcases List.mem_append.mp hline with hline | hline
      · exact hhere line hline
      · rw [List.mem_singleton.mp hline]
        intro piece hp
        rw [List.mem_singleton.mp hp]
        exact ⟨_, rfl⟩
    · simp only [hpreview, Snapshot.isCorrupt_eq hoff, hbroken, hrest, bind, Except.bind, pure,
        Except.pure, decide_false, Bool.false_eq_true, if_false]
      refine ⟨_, rfl, fun line hline => ?_⟩
      rcases List.mem_append.mp hline with hline | hline
      · exact hhere line hline
      · exact hlegible line hline

/-- The snapshot is written, whatever is in memory and whatever room the writer has. -/
theorem dump_ok (hr : h.region = some r) (htrail : r.Trail m 0 bs) (room : Option Nat) :
    ∃ w, (Heap.scan h).dump m room = .ok w := by
  obtain ⟨lines, hlines, hlegible⟩ :=
    @scanLines_ok _ r m bs 0 fun b hb => (htrail.bounds hb).2
  have hsnapshot : (Heap.scan h).snapshot m = .ok (.banner r :: lines) := by
    show h.snapshot m = _
    unfold ScanHeap.snapshot
    simp only [hr, blocks_eq_of_trail htrail, hlines, bind, Except.bind]
    rfl
  refine Snapshot.dump_ok hsnapshot (fun line hline => ?_) room
  rcases List.mem_cons.mp hline with rfl | hline
  · exact Snapshot.legible_banner
  · exact hlegible line hline

end RegionHeap.ScanHeap
