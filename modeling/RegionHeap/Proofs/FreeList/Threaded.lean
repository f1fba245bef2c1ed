import RegionHeap.FreeList.Audit
import RegionHeap.Proofs.Change
import RegionHeap.Proofs.FreeList.Linked

/-!
# The free list in memory

A list of free blocks lies in memory if the head names its first node and the link words in the
payloads of its nodes are those of the list. The nodes are blocks apart from each other, so a write
to the link words of one touches neither the links of another nor any header.

* `Threaded` -- head and memory represent a list of nodes;
* `Threaded.push` -- a block that enters stands in front of the list;
* `Threaded.remove` -- a block that leaves takes nothing else along, and its links are cleared.

Both say which link words may change: those of the block and of its neighbours in the list.
-/

namespace RegionHeap

namespace Region

variable {a : Alignment} {r : Region a} {m m' : Memory} {S T : List Nat} {x y : Nat}

/-! ## 1. Nodes -/

/-- Blocks that can be nodes of one list: each has room for links, and no two overlap. -/
structure Nodes (r : Region a) (S : List Nat) : Prop where
  fits : ∀ x ∈ S, r.IsNode x
  apart : ∀ x ∈ S, ∀ y ∈ S, x = y ∨ x + Strategy.list.minBlock a ≤ y ∨
    y + Strategy.list.minBlock a ≤ x

/-- The links stored in the block at an offset. -/
def linksAt (r : Region a) (m : Memory) (x : Nat) : Links :=
  ⟨Links.decode (m.readWord (r.base + (x + a.bytes))),
    Links.decode (m.readWord (r.base + (x + a.bytes + Word.size)))⟩

@[simp] theorem linksAt_prev :
    (r.linksAt m x).prev = Links.decode (m.readWord (r.base + (x + a.bytes))) := by
  rw [linksAt]

@[simp] theorem linksAt_next :
    (r.linksAt m x).next = Links.decode (m.readWord (r.base + (x + a.bytes + Word.size))) := by
  rw [linksAt]

/-- The header at an offset is that of a free block. -/
def IsFree (r : Region a) (m : Memory) (x : Nat) : Prop :=
  ¬ (⟨m.readWord (r.base + x)⟩ : Header a).Allocated

/-- The address belongs to the link words of one of the blocks. -/
def LinkBytes (r : Region a) (S : List Nat) (addr : Nat) : Prop :=
  ∃ x ∈ S, Memory.Between (r.base + (x + a.bytes)) (r.base + (x + Strategy.list.minBlock a)) addr

theorem minBlock_list : Strategy.list.minBlock a = a.bytes + 2 * Word.size := rfl

theorem LinkBytes.mono {addr : Nat} (hST : ∀ x ∈ S, x ∈ T) (h : r.LinkBytes S addr) :
    r.LinkBytes T addr := by
  obtain ⟨x, hx, hb⟩ := h
  exact ⟨x, hST x hx, hb⟩

namespace Nodes

theorem mono (h : r.Nodes T) (hST : ∀ x ∈ S, x ∈ T) : r.Nodes S :=
  ⟨fun x hx => h.fits x (hST x hx), fun x hx y hy => h.apart x (hST x hx) y (hST y hy)⟩

theorem add_minBlock_le (h : r.Nodes S) (hx : x ∈ S) :
    x + Strategy.list.minBlock a ≤ r.size := by
  obtain ⟨⟨-, h1⟩, h2⟩ := h.fits x hx
  have h3 := Strategy.list.bytes_le_minPayload a
  have h4 := a.bytes_pos
  omega

theorem hasWord (h : r.Nodes S) (hx : x ∈ S) : r.HasWord x :=
  (h.fits x hx).1.hasWord

theorem hasWord_prev (h : r.Nodes S) (hx : x ∈ S) : r.HasWord (x + a.bytes) := by
  have h1 := (h.hasWord hx).1
  have h2 := Nat.mod_eq_zero_of_dvd a.wordSize_dvd_bytes
  have h3 := h.add_minBlock_le hx
  rw [minBlock_list] at h3
  refine ⟨?_, by omega⟩
  rw [Nat.add_mod, h1, h2]
  rfl

theorem hasWord_next (h : r.Nodes S) (hx : x ∈ S) : r.HasWord (x + a.bytes + Word.size) := by
  have h1 := (h.hasWord_prev hx).1
  have h3 := h.add_minBlock_le hx
  rw [minBlock_list] at h3
  refine ⟨?_, by omega⟩
  rw [Nat.add_mod, h1, Nat.mod_self]
  rfl

/-- The offset of a node can be stored in a link. -/
theorem decode_encode (h : r.Nodes S) {v : Option Nat} (hv : ∀ x ∈ v, x ∈ S) :
    Links.decode (Links.encode v) = v := by
  cases v with
  | none => exact Links.decode_encode_none
  | some x =>
    have h1 := h.add_minBlock_le (hv x rfl)
    have h2 := r.base_add_size_lt
    refine Links.decode_encode_some ?_
    rw [minBlock_list] at h1
    have h4 := a.bytes_pos
    unfold Links.nil
    omega

theorem encode_lt (h : r.Nodes S) {v : Option Nat} (hv : ∀ x ∈ v, x ∈ S) :
    Links.encode v < Word.limit := by
  cases v with
  | none => decide
  | some x =>
    have h1 := h.add_minBlock_le (hv x rfl)
    have h2 := r.base_add_size_lt
    show x < Word.limit
    omega

end Nodes

/-! ## 2. Single link words -/

/-- The header of a node lies outside the link words of all nodes. -/
theorem Nodes.header_not_linkBytes (h : r.Nodes S) (hx : x ∈ S) (hT : ∀ y ∈ T, y ∈ S) {addr : Nat}
    (h1 : r.base + x ≤ addr) (h2 : addr < r.base + x + Word.size) : ¬ r.LinkBytes T addr := by
  intro hmem
  obtain ⟨y, hy, h3, h4⟩ := hmem
  have h5 := a.wordSize_le_bytes
  have h6 := h.apart x hx y (hT y hy)
  rw [minBlock_list] at h4 h6
  rcases h6 with rfl | h6 | h6 <;> omega

/-- A change of link words leaves the flags of all nodes alone. -/
theorem Nodes.isFree (h : r.Nodes S) (hT : ∀ y ∈ T, y ∈ S)
    (hm : Memory.AgreeOutside (r.LinkBytes T) m m') (hx : x ∈ S) (hf : r.IsFree m x) :
    r.IsFree m' x := by
  rw [IsFree, hm.readWord fun addr h1 h2 => h.header_not_linkBytes hx hT h1 h2]
  exact hf

/-- The header of a node can be read, and the list takes it for that of a free block. -/
theorem Nodes.freeHeader_eq (h : r.Nodes S) (hx : x ∈ S) (hf : r.IsFree m x) :
    r.freeHeader m x = .ok ⟨m.readWord (r.base + x)⟩ := by
  simp only [freeHeader, header_eq_ok (h.hasWord hx), bind, Except.bind, pure, Except.pure]
  rw [if_neg hf]

theorem Nodes.links_eq (h : r.Nodes S) (hx : x ∈ S) : r.links m x = .ok (r.linksAt m x) := by
  simp only [links, word_eq_ok (h.hasWord_prev hx), word_eq_ok (h.hasWord_next hx), bind,
    Except.bind, pure, Except.pure, linksAt]

/-- A backward link that is set shows in the links of its node and nowhere else. -/
theorem Nodes.setPrev (h : r.Nodes S) (hx : x ∈ S) {v : Option Nat} (hv : ∀ z ∈ v, z ∈ S) :
    ∃ m', r.setPrev m x v = .ok m' ∧ Memory.AgreeOutside (r.LinkBytes [x]) m m' ∧
      ∀ y ∈ S, r.linksAt m' y = ⟨if y = x then v else (r.linksAt m y).prev, (r.linksAt m y).next⟩ := by
  refine ⟨_, setWord_eq_ok (h.hasWord_prev hx), ?_, fun y hy => ?_⟩
  · refine (Memory.agreeOutside_writeWord m _ _).mono fun addr hb => ⟨x, List.mem_singleton_self x, ?_⟩
    unfold Memory.Between at hb ⊢
    rw [minBlock_list]
    omega
  · have h1 := h.apart x hx y hy
    rw [minBlock_list] at h1
    have hnext : (m.writeWord (r.base + (x + a.bytes)) (Links.encode v)).readWord
        (r.base + (y + a.bytes + Word.size)) = m.readWord (r.base + (y + a.bytes + Word.size)) :=
      Memory.readWord_writeWord_of_disjoint (by omega)
    rw [linksAt, hnext, linksAt_next]
    by_cases hyx : y = x
    · subst hyx
      rw [Memory.readWord_writeWord (h.encode_lt hv), h.decode_encode hv, if_pos rfl]
    · rw [Memory.readWord_writeWord_of_disjoint (by omega), if_neg hyx, linksAt_prev]

/-- A forward link that is set shows in the links of its node and nowhere else. -/
theorem Nodes.setNext (h : r.Nodes S) (hx : x ∈ S) {v : Option Nat} (hv : ∀ z ∈ v, z ∈ S) :
    ∃ m', r.setNext m x v = .ok m' ∧ Memory.AgreeOutside (r.LinkBytes [x]) m m' ∧
      ∀ y ∈ S, r.linksAt m' y = ⟨(r.linksAt m y).prev, if y = x then v else (r.linksAt m y).next⟩ := by
  refine ⟨_, setWord_eq_ok (h.hasWord_next hx), ?_, fun y hy => ?_⟩
  · refine (Memory.agreeOutside_writeWord m _ _).mono fun addr hb => ⟨x, List.mem_singleton_self x, ?_⟩
    unfold Memory.Between at hb ⊢
    rw [minBlock_list]
    omega
  · have h1 := h.apart x hx y hy
    rw [minBlock_list] at h1
    have hprev : (m.writeWord (r.base + (x + a.bytes + Word.size)) (Links.encode v)).readWord
        (r.base + (y + a.bytes)) = m.readWord (r.base + (y + a.bytes)) :=
      Memory.readWord_writeWord_of_disjoint (by omega)
    rw [linksAt, hprev, linksAt_prev]
    by_cases hyx : y = x
    · subst hyx
      rw [Memory.readWord_writeWord (h.encode_lt hv), h.decode_encode hv, if_pos rfl]
    · rw [Memory.readWord_writeWord_of_disjoint (by omega), if_neg hyx, linksAt_next]

end Region

namespace FreeList

open Region

variable {a : Alignment} {r : Region a} {l : FreeList} {S : List Nat} {order pre post : List Nat}
  {x y : Nat} {prev next : Option Nat}

/-- What a node is told about the place in front of it. -/
theorem linkBack_eq (h : r.Nodes S) (hnext : ∀ z ∈ next, z ∈ S) (hprev : ∀ z ∈ prev, z ∈ S)
    (hfree : ∀ z ∈ next, r.IsFree l.memory z) :
    ∃ l', linkBack r l next prev = .ok l' ∧ l'.head = l.head ∧
      Memory.AgreeOutside (r.LinkBytes next.toList) l.memory l'.memory ∧
      ∀ x ∈ S, r.linksAt l'.memory x =
        ⟨if next = some x then prev else (r.linksAt l.memory x).prev,
          (r.linksAt l.memory x).next⟩ := by
  cases next with
  | none =>
    refine ⟨l, rfl, rfl, .refl _ _, fun x _ => ?_⟩
    rw [if_neg (Option.some_ne_none x).symm]
  | some n =>
    obtain ⟨m', hm, hagree, hlinks⟩ := h.setPrev (m := l.memory) (hnext n rfl) hprev
    refine ⟨{ l with memory := m' }, ?_, rfl, hagree, fun x hx => ?_⟩
    · simp only [linkBack, h.freeHeader_eq (hnext n rfl) (hfree n rfl), hm, bind, Except.bind, pure,
        Except.pure]
    · show r.linksAt m' x = _
      rw [hlinks x hx]
      simp only [Option.some.injEq, eq_comm]

/-- What the place in front of a block is told about the one behind it. -/
theorem linkForward_eq (h : r.Nodes S) (hnext : ∀ z ∈ next, z ∈ S) (hprev : ∀ z ∈ prev, z ∈ S)
    (hfree : ∀ z ∈ prev, r.IsFree l.memory z) (hhead : prev = none → l.head = some y) :
    ∃ l', linkForward r l y prev next = .ok l' ∧
      l'.head = (if prev = none then next else l.head) ∧
      Memory.AgreeOutside (r.LinkBytes prev.toList) l.memory l'.memory ∧
      ∀ x ∈ S, r.linksAt l'.memory x =
        ⟨(r.linksAt l.memory x).prev,
          if prev = some x then next else (r.linksAt l.memory x).next⟩ := by
  cases prev with
  | none =>
    refine ⟨{ l with head := next }, ?_, rfl, .refl _ _, fun x _ => ?_⟩
    · simp only [linkForward, hhead rfl, bind, Except.bind, pure, Except.pure, if_true]
    · rw [if_neg (Option.some_ne_none x).symm]
  | some p =>
    obtain ⟨m', hm, hagree, hlinks⟩ := h.setNext (m := l.memory) (hprev p rfl) hnext
    refine ⟨{ l with memory := m' }, ?_, rfl, hagree, fun x hx => ?_⟩
    · simp only [linkForward, h.freeHeader_eq (hprev p rfl) (hfree p rfl), hm, bind, Except.bind,
        pure, Except.pure]
    · show r.linksAt m' x = _
      rw [hlinks x hx]
      simp only [Option.some.injEq, eq_comm]

/-! ## 3. Lists in memory -/

/-- Head and memory represent the list with the given nodes, all of them free blocks. -/
structure Threaded (r : Region a) (l : FreeList) (order : List Nat) : Prop where
  head_eq : l.head = order.head?
  linked : Linked (r.linksAt l.memory) none order none
  nodup : order.Nodup
  nodes : r.Nodes order
  free : ∀ x ∈ order, r.IsFree l.memory x

namespace Threaded

/-- **A free block enters in front of the list.** Only its links and those of the first node before
    it may change. -/
theorem push (h : Threaded r l order) (hnodes : r.Nodes (y :: order)) (hy : y ∉ order)
    (hfree : r.IsFree l.memory y) :
    ∃ l', l.push r y = .ok l' ∧ Threaded r l' (y :: order) ∧
      Memory.AgreeOutside (r.LinkBytes (y :: order.head?.toList)) l.memory l'.memory := by
  have hyS : y ∈ y :: order := List.mem_cons_self
  have hheadS : ∀ z ∈ order.head?, z ∈ y :: order := fun z hz =>
    List.mem_cons_of_mem y (List.mem_of_mem_head? hz)
  obtain ⟨m1, hm1, ha1, hl1⟩ :=
    hnodes.setPrev (m := l.memory) hyS (v := none) fun z hz => nomatch hz
  obtain ⟨m2, hm2, ha2, hl2⟩ := hnodes.setNext (m := m1) hyS (v := order.head?) hheadS
  have ha12 : Memory.AgreeOutside (r.LinkBytes [y]) l.memory m2 := ha1.trans ha2
  have hyT : ∀ z ∈ [y], z ∈ y :: order := fun z hz => by
    rw [List.mem_singleton.mp hz]
    exact hyS
  have hfree2 : ∀ z ∈ y :: order, r.IsFree m2 z := fun z hz => by
    refine hnodes.isFree hyT ha12 hz ?_
    rcases List.mem_cons.mp hz with rfl | hz
    · exact hfree
    · exact h.free z hz
  have hprev : ∀ z ∈ some y, z ∈ y :: order := fun z hz => by
    cases hz
    exact hyS
  obtain ⟨l3, hm3, -, ha3, hl3⟩ :=
    linkBack_eq (l := ⟨l.head, m2⟩) hnodes hheadS hprev fun z hz => hfree2 z (hheadS z hz)
  have hagree : Memory.AgreeOutside (r.LinkBytes (y :: order.head?.toList)) l.memory l3.memory :=
    (ha12.mono fun _ => LinkBytes.mono (by simp)).trans
      (ha3.mono fun _ => LinkBytes.mono fun z hz => List.mem_cons_of_mem y hz)
  have hlinks : ∀ z ∈ y :: order, r.linksAt l3.memory z =
      Links.withFront (r.linksAt l.memory) order.head? y z := by
    intro z hz
    rw [hl3 z hz, hl2 z hz, hl1 z hz, Links.withFront]
    by_cases hzy : z = y
    · have hne : order.head? ≠ some z := fun e => hy (hzy ▸ List.mem_of_mem_head? e)
      rw [if_neg hne, if_pos hzy, if_pos hzy, if_pos hzy]
    · rw [if_neg hzy, if_neg hzy, if_neg hzy]
      by_cases hzh : order.head? = some z
      · rw [if_pos hzh, if_pos hzh]
      · rw [if_neg hzh, if_neg hzh]
  refine ⟨{ l3 with head := some y }, ?_, ⟨rfl, ?_, ?_, hnodes, fun z hz => ?_⟩, hagree⟩
  · rw [h.head_eq] at hm3
    simp only [FreeList.push, hm1, h.head_eq, hm2, hm3, bind, Except.bind, pure, Except.pure]
  · exact (h.linked.withFront h.nodup hy).congr hlinks
  · exact List.nodup_cons.mpr ⟨hy, h.nodup⟩
  · refine hnodes.isFree (fun _ => mem_of_mem_entering) hagree hz ?_
    rcases List.mem_cons.mp hz with rfl | hz
    · exact hfree
    · exact h.free z hz

/-- **A node leaves the list** from anywhere. Only its links and those of its neighbours may change,
    and its own end up empty. -/
theorem remove (h : Threaded r l (pre ++ y :: post)) :
    ∃ l', l.remove r y = .ok l' ∧ Threaded r l' (pre ++ post) ∧
      r.linksAt l'.memory y = ⟨none, none⟩ ∧
      Memory.AgreeOutside (r.LinkBytes (y :: (pre.getLast?.toList ++ post.head?.toList)))
        l.memory l'.memory := by
  have hyS : y ∈ pre ++ y :: post := List.mem_append_right _ List.mem_cons_self
  have hprevS : ∀ z ∈ pre.getLast?, z ∈ pre ++ y :: post := fun z hz =>
    List.mem_append_left _ (List.mem_of_getLast? hz)
  have hnextS : ∀ z ∈ post.head?, z ∈ pre ++ y :: post := fun z hz =>
    List.mem_append_right _ (List.mem_cons_of_mem y (List.mem_of_mem_head? hz))
  have hrestS : ∀ z ∈ pre ++ post, z ∈ pre ++ y :: post := fun z hz => by
    rcases List.mem_append.mp hz with hz | hz
    · exact List.mem_append_left _ hz
    · exact List.mem_append_right _ (List.mem_cons_of_mem y hz)
  have hlinksy := h.linked.links_eq
  have hhead : pre.getLast? = none → l.head = some y := fun hn => by
    rw [h.head_eq, List.getLast?_eq_none_iff.mp hn]
    rfl
  obtain ⟨l1, hm1, hh1, ha1, hl1⟩ := linkForward_eq (l := l) (y := y) h.nodes hnextS hprevS
    (fun z hz => h.free z (hprevS z hz)) hhead
  have hT1 : ∀ z ∈ pre.getLast?.toList, z ∈ pre ++ y :: post := fun z hz =>
    hprevS z (Option.mem_toList.mp hz)
  obtain ⟨l2, hm2, hh2, ha2, hl2⟩ := linkBack_eq (l := l1) h.nodes hnextS hprevS
    fun z hz => h.nodes.isFree hT1 ha1 (hnextS z hz) (h.free z (hnextS z hz))
  obtain ⟨m3, hm3, ha3, hl3⟩ :=
    h.nodes.setPrev (m := l2.memory) hyS (v := none) fun z hz => nomatch hz
  obtain ⟨m4, hm4, ha4, hl4⟩ := h.nodes.setNext (m := m3) hyS (v := none) fun z hz => nomatch hz
  have hagree : Memory.AgreeOutside
      (r.LinkBytes (y :: (pre.getLast?.toList ++ post.head?.toList))) l.memory m4 := by
    refine ((ha1.mono fun _ => LinkBytes.mono fun z hz => ?_).trans
      (ha2.mono fun _ => LinkBytes.mono fun z hz => ?_)).trans
      ((ha3.trans ha4).mono fun _ => LinkBytes.mono fun z hz => ?_)
    · exact List.mem_cons_of_mem y (List.mem_append_left _ hz)
    · exact List.mem_cons_of_mem y (List.mem_append_right _ hz)
    · rw [List.mem_singleton.mp hz]
      exact List.mem_cons_self
  have hlinks : ∀ z ∈ pre ++ y :: post,
      r.linksAt m4 z = Links.without (r.linksAt l.memory) y z := by
    intro z hz
    rw [hl4 z hz, hl3 z hz, hl2 z hz, hl1 z hz, Links.without, hlinksy]
    by_cases hzy : z = y
    · rw [if_pos hzy, if_pos hzy, if_pos hzy]
    · rw [if_neg hzy, if_neg hzy, if_neg hzy]
  refine ⟨{ l2 with memory := m4 }, ?_, ⟨?_, ?_, ?_, h.nodes.mono hrestS, fun z hz => ?_⟩, ?_, hagree⟩
  · simp only [FreeList.remove, h.nodes.links_eq hyS, hlinksy, hm1, hm2, hm3, hm4, bind, Except.bind,
      pure, Except.pure]
  · show l2.head = _
    rw [hh2, hh1, h.head_eq]
    cases pre with
    | nil => rfl
    | cons p ps =>
      rw [if_neg (by simp)]
      rfl
  · exact (h.linked.without h.nodup).congr fun z hz => hlinks z (hrestS z hz)
  · exact h.nodup.sublist ((List.sublist_cons_self y post).append_left pre)
  · exact h.nodes.isFree (fun _ => mem_of_mem_leaving) hagree (hrestS z hz) (h.free z (hrestS z hz))
  · show r.linksAt m4 y = _
    rw [hlinks y hyS, Links.without, if_pos rfl]

end Threaded

end FreeList

end RegionHeap
