import RegionHeap.Proofs.FreeList.Threaded
import RegionHeap.Proofs.Layout.Rewalk

/-!
# Lists of free blocks

The free list as a list of blocks. Head and memory represent a list if each of its blocks lies in
memory and is free, no two of them share a byte, and the links run through them in order. The blocks
may lie in any order and with anything between them: the walk over the region plays no part here.

* `Represents` -- head and memory represent a list of free blocks;
* `Represents.push`, `Represents.remove` -- a block enters in front, a block leaves from anywhere;
* `Represents.remove_of_push` -- a block that has entered and leaves again shows in its own links only;
* `Represents.implements_list` -- the three together.
-/

namespace RegionHeap

/-- Different links are stored as different words. -/
theorem Links.decode_inj {v w : Nat} (h : Links.decode v = Links.decode w) : v = w := by
  unfold Links.decode at h
  by_cases hv : v = Links.nil
  · by_cases hw : w = Links.nil
    · rw [hv, hw]
    · rw [if_pos hv, if_neg hw] at h
      exact nomatch h
  · by_cases hw : w = Links.nil
    · rw [if_neg hv, if_pos hw] at h
      exact nomatch h
    · rw [if_neg hv, if_neg hw] at h
      exact Option.some.inj h

/-! ## 1. Free blocks in memory -/

namespace Region

variable {a : Alignment} {r : Region a} {m m' : Memory} {b c : Block a} {bs : List (Block a)}
  {T : List Nat}

/-- The block lies in memory with its header, is free, and has room for the links. -/
structure FreeBlock (r : Region a) (m : Memory) (b : Block a) : Prop where
  isHeaderOffset : r.IsHeaderOffset b.offset
  minBlock_le : Strategy.list.minBlock a ≤ b.size
  next_le : b.next ≤ r.size
  header_eq : r.header m b.offset = .ok b.header
  free : ¬ b.header.Allocated

namespace FreeBlock

theorem isNode (h : r.FreeBlock m b) : r.IsNode b.offset := by
  have h1 := h.minBlock_le
  have h2 : b.offset + b.size ≤ r.size := h.next_le
  exact ⟨h.isHeaderOffset, by omega⟩

theorem readWord_eq (h : r.FreeBlock m b) :
    (⟨m.readWord (r.base + b.offset)⟩ : Header a) = b.header :=
  Except.ok.inj ((header_eq_ok h.isHeaderOffset.hasWord).symm.trans h.header_eq)

theorem isFree (h : r.FreeBlock m b) : r.IsFree m b.offset := by
  unfold IsFree
  rw [h.readWord_eq]
  exact h.free

/-- Free blocks that share no byte do not share room for links. -/
theorem apart (hb : r.FreeBlock m b) (hc : r.FreeBlock m c) (h : b.Apart c) :
    b.offset + Strategy.list.minBlock a ≤ c.offset ∨
      c.offset + Strategy.list.minBlock a ≤ b.offset := by
  have h1 := hb.minBlock_le
  have h2 := hc.minBlock_le
  unfold Block.Apart Block.next at h
  omega

theorem offset_ne (hb : r.FreeBlock m b) (hc : r.FreeBlock m c) (h : b.Apart c) :
    b.offset ≠ c.offset := by
  have h1 := hb.apart hc h
  have h2 : 0 < Strategy.list.minBlock a := Strategy.list.minBlock_pos
  omega

/-- A free block outlives a change of the links of nodes that it is one of. -/
theorem congr (h : r.FreeBlock m b) {S : List Nat} (hS : r.Nodes S) (hb : b.offset ∈ S)
    (hT : ∀ x ∈ T, x ∈ S) (hm : Memory.AgreeOutside (r.LinkBytes T) m m') : r.FreeBlock m' b := by
  refine ⟨h.isHeaderOffset, h.minBlock_le, h.next_le, ?_, h.free⟩
  rw [header_eq_ok h.isHeaderOffset.hasWord,
    hm.readWord fun addr h1 h2 => hS.header_not_linkBytes hb hT h1 h2, h.readWord_eq]

end FreeBlock

/-- Free blocks apart from each other can be nodes of one list. -/
theorem nodes_of_freeBlocks (h : ∀ b ∈ bs, r.FreeBlock m b) (hapart : bs.Pairwise Block.Apart) :
    r.Nodes (bs.map Block.offset) := by
  have : Std.Symm (Block.Apart (a := a)) := ⟨fun _ _ => Or.symm⟩
  refine ⟨fun x hx => ?_, fun x hx y hy => ?_⟩
  · obtain ⟨b, hb, rfl⟩ := List.mem_map.mp hx
    exact (h b hb).isNode
  · obtain ⟨b, hb, rfl⟩ := List.mem_map.mp hx
    obtain ⟨c, hc, rfl⟩ := List.mem_map.mp hy
    by_cases hbc : b = c
    · exact .inl (congrArg Block.offset hbc)
    · exact .inr ((h b hb).apart (h c hc) (hapart.forall hb hc hbc))

/-- Free blocks apart from each other have different offsets. -/
theorem nodup_of_freeBlocks (h : ∀ b ∈ bs, r.FreeBlock m b) (hapart : bs.Pairwise Block.Apart) :
    (bs.map Block.offset).Nodup :=
  List.pairwise_map.mpr
    (hapart.imp_of_mem fun hb hc hbc => (h _ hb).offset_ne (h _ hc) hbc)

end Region

/-! ## 2. Lists of blocks -/

namespace FreeList

open Region

variable {a : Alignment} {r : Region a} {l : FreeList} {b : Block a} {bs pre post : List (Block a)}

/-- Head and memory represent the list of free blocks: they lie in memory, no two share a byte, and
    the list leads through them in order and back. -/
structure Represents (r : Region a) (l : FreeList) (bs : List (Block a)) : Prop where
  freeBlocks : ∀ b ∈ bs, r.FreeBlock l.memory b
  apart : bs.Pairwise Block.Apart
  head_eq : l.head = (bs.map Block.offset).head?
  linked : Linked (r.linksAt l.memory) none (bs.map Block.offset) none

namespace Represents

theorem threaded (h : Represents r l bs) : Threaded r l (bs.map Block.offset) := by
  refine ⟨h.head_eq, h.linked, nodup_of_freeBlocks h.freeBlocks h.apart,
    nodes_of_freeBlocks h.freeBlocks h.apart, fun x hx => ?_⟩
  obtain ⟨b, hb, rfl⟩ := List.mem_map.mp hx
  exact (h.freeBlocks b hb).isFree

/-- **A free block enters in front of the list**, if it shares no byte with a listed one. Only its
    links and those of the first block before it may change. -/
theorem push (h : Represents r l bs) (hb : r.FreeBlock l.memory b) (hbs : ∀ c ∈ bs, b.Apart c) :
    ∃ l', l.push r b.offset = .ok l' ∧ Represents r l' (b :: bs) ∧
      Memory.AgreeOutside (r.LinkBytes (b.offset :: l.head.toList)) l.memory l'.memory := by
  have hfree : ∀ c ∈ b :: bs, r.FreeBlock l.memory c := List.forall_mem_cons.mpr ⟨hb, h.freeBlocks⟩
  have hapart : (b :: bs).Pairwise Block.Apart := List.pairwise_cons.mpr ⟨hbs, h.apart⟩
  have hnodes := nodes_of_freeBlocks hfree hapart
  have hnew := (List.nodup_cons.mp (nodup_of_freeBlocks hfree hapart)).1
  obtain ⟨l', hpush, ht, hm⟩ := h.threaded.push hnodes hnew hb.isFree
  rw [← h.head_eq] at hm
  refine ⟨l', hpush, ⟨fun c hc => ?_, hapart, ht.head_eq, ht.linked⟩, hm⟩
  refine (hfree c hc).congr hnodes (List.mem_map_of_mem hc) (fun x hx => ?_) hm
  rw [h.head_eq] at hx
  exact mem_of_mem_entering hx

/-- **A block leaves the list** from anywhere. Only its links and those of its neighbours may change,
    and its own end up empty. -/
theorem remove (h : Represents r l (pre ++ b :: post)) :
    ∃ l', l.remove r b.offset = .ok l' ∧ Represents r l' (pre ++ post) ∧
      r.links l'.memory b.offset = .ok ⟨none, none⟩ ∧
      Memory.AgreeOutside
        (r.LinkBytes ((b :: (pre.getLast?.toList ++ post.head?.toList)).map Block.offset))
        l.memory l'.memory := by
  have ht := h.threaded
  have hnodes := ht.nodes
  rw [List.map_append, List.map_cons] at ht
  obtain ⟨l', hremove, ht', hlinks, hm⟩ := ht.remove
  have hb : b.offset ∈ (pre ++ b :: post).map Block.offset :=
    List.mem_map_of_mem (List.mem_append_right pre List.mem_cons_self)
  have hsub : (pre ++ post).Sublist (pre ++ b :: post) :=
    (List.sublist_cons_self b post).append_left pre
  rw [← List.map_append] at ht'
  refine ⟨l', hremove, ⟨fun c hc => ?_, h.apart.sublist hsub, ht'.head_eq, ht'.linked⟩, ?_, ?_⟩
  · refine (h.freeBlocks c (hsub.subset hc)).congr hnodes (List.mem_map_of_mem (hsub.subset hc))
      (fun x hx => ?_) hm
    rw [List.map_append, List.map_cons]
    exact mem_of_mem_leaving hx
  · rw [hnodes.links_eq hb, hlinks]
  · refine hm.mono fun addr => LinkBytes.mono fun x hx => ?_
    simpa only [List.map_cons, List.map_append, List.getLast?_map, List.head?_map,
      Option.toList_map] using hx

/-- A list that is represented twice has the same link words in its first block both times. -/
theorem agree_head {l' : FreeList} {S : List Nat} (h : Represents r l bs) (h' : Represents r l' bs)
    (hm : Memory.AgreeOutside (r.LinkBytes (S ++ l.head.toList)) l.memory l'.memory) :
    Memory.AgreeOutside (r.LinkBytes S) l.memory l'.memory := by
  intro x hx
  by_cases hhead : r.LinkBytes l.head.toList x
  · obtain ⟨y, hy, h1, h2⟩ := hhead
    rw [h.head_eq] at hy
    have hlinks : r.linksAt l'.memory y = r.linksAt l.memory y := by
      cases bs with
      | nil => cases hy
      | cons c cs =>
        obtain rfl : c.offset = y := Option.some.inj (Option.mem_toList.mp hy)
        exact h'.linked.1.trans h.linked.1.symm
    have hprev : l'.memory.readWord (r.base + (y + a.bytes)) =
        l.memory.readWord (r.base + (y + a.bytes)) :=
      Links.decode_inj (by rw [← linksAt_prev, ← linksAt_prev, hlinks])
    have hnext : l'.memory.readWord (r.base + (y + a.bytes + Word.size)) =
        l.memory.readWord (r.base + (y + a.bytes + Word.size)) :=
      Links.decode_inj (by rw [← linksAt_next, ← linksAt_next, hlinks])
    rw [minBlock_list] at h2
    by_cases hx : x < r.base + (y + a.bytes) + Word.size
    · exact Memory.get_eq_of_readWord_eq hprev h1 hx
    · exact Memory.get_eq_of_readWord_eq hnext (by omega) (by omega)
  · refine hm x fun hmem => ?_
    obtain ⟨y, hy, hb⟩ := hmem
    rcases List.mem_append.mp hy with hy | hy
    · exact hx ⟨y, hy, hb⟩
    · exact hhead ⟨y, hy, hb⟩

/-- **A block that has entered leaves again**: the list is represented as before, and in all of memory
    nothing differs but the links of that block. -/
theorem remove_of_push {l' : FreeList} (h : Represents r l bs) (h' : Represents r l' (b :: bs))
    (hm : Memory.AgreeOutside (r.LinkBytes (b.offset :: l.head.toList)) l.memory l'.memory) :
    ∃ l'', l'.remove r b.offset = .ok l'' ∧ Represents r l'' bs ∧ l''.head = l.head ∧
      Memory.AgreeOutside (r.LinkBytes [b.offset]) l.memory l''.memory := by
  have hfront : Represents r l' ([] ++ b :: bs) := h'
  obtain ⟨l'', hremove, h'', -, hm'⟩ := hfront.remove
  refine ⟨l'', hremove, h'', h''.head_eq.trans h.head_eq.symm, ?_⟩
  -- the two edits change the links of the block and of the first one, whose links are restored
  refine h.agree_head h'' (hm.trans (hm'.mono fun addr => LinkBytes.mono fun x hx => ?_))
  rw [h.head_eq]
  simpa only [List.map_cons, List.map_append, List.getLast?_nil, List.head?_map, Option.toList_none,
    List.nil_append, Option.toList_map, List.cons_append] using hx

/-- **The links in memory implement insertion and deletion**, for a list of any blocks in any order. A
    free block that shares no byte with a listed one enters in front, and leaves again without any
    other change of memory than to its own links; any block of the list leaves, the others keep
    their order, and its links end up empty. No byte changes but in the links of the block and of its
    neighbours in the list. -/
theorem implements_list (h : Represents r l bs) :
    (∀ b, r.FreeBlock l.memory b → (∀ c ∈ bs, b.Apart c) →
      ∃ l', l.push r b.offset = .ok l' ∧ Represents r l' (b :: bs) ∧
        Memory.AgreeOutside (r.LinkBytes (b.offset :: l.head.toList)) l.memory l'.memory ∧
        ∃ l'', l'.remove r b.offset = .ok l'' ∧ Represents r l'' bs ∧ l''.head = l.head ∧
          Memory.AgreeOutside (r.LinkBytes [b.offset]) l.memory l''.memory) ∧
    (∀ pre b post, bs = pre ++ b :: post →
      ∃ l', l.remove r b.offset = .ok l' ∧ Represents r l' (pre ++ post) ∧
        r.links l'.memory b.offset = .ok ⟨none, none⟩ ∧
        Memory.AgreeOutside
          (r.LinkBytes ((b :: (pre.getLast?.toList ++ post.head?.toList)).map Block.offset))
          l.memory l'.memory) := by
  refine ⟨fun b hb hbs => ?_, fun pre b post hbs => ?_⟩
  · obtain ⟨l', hpush, h', hm⟩ := h.push hb hbs
    exact ⟨l', hpush, h', hm, h.remove_of_push h' hm⟩
  · subst hbs
    exact h.remove

/-- Ninety-six bytes from address 256 on, for four free blocks of 24 bytes. -/
def quartet : Region .eight :=
  ⟨256, 96, rfl, rfl, by decide⟩

/-- The free block of 24 bytes at an offset. -/
def quarter (off : Nat) : Block .eight :=
  ⟨off, ⟨24⟩⟩

/-- The list leads from offset 48 to 0 and on to 72; the block at 24 is free and not in it. -/
def quartetList : FreeList :=
  ⟨some 48, (Memory.blank 0 0 0).writeBytes 256
    ([24, 48, 72, 24, 0, 0, 24, Links.nil, 0, 24, 0, Links.nil].flatMap
      (Word.toBytes Word.size))⟩

theorem quartet_freeBlock {off : Nat} (h : off ∈ [0, 24, 48, 72]) :
    quartet.FreeBlock quartetList.memory (quarter off) := by
  have hblock : quartet.IsHeaderOffset off ∧
      Strategy.list.minBlock .eight ≤ (quarter off).size ∧ (quarter off).next ≤ quartet.size ∧
      quartet.header quartetList.memory off = .ok (quarter off).header ∧
      ¬ (quarter off).header.Allocated := by
    revert off
    decide +kernel
  obtain ⟨hoff, hmin, hnext, hheader, hfree⟩ := hblock
  exact ⟨hoff, hmin, hnext, hheader, hfree⟩

theorem quartet_represents :
    Represents quartet quartetList [quarter 48, quarter 0, quarter 72] := by
  refine ⟨fun b hb => ?_, ?_, rfl, ⟨?_, ?_, ?_, trivial⟩⟩
  · simp only [List.mem_cons, List.not_mem_nil, or_false] at hb
    rcases hb with rfl | rfl | rfl
    · exact quartet_freeBlock (by decide)
    · exact quartet_freeBlock (by decide)
    · exact quartet_freeBlock (by decide)
  · unfold Block.Apart
    decide
  · decide +kernel
  · decide +kernel
  · decide +kernel

/-- The block at 24 enters and leaves again, and the one in the middle of the list leaves. -/
theorem implements_list_quartet :
    (∃ l' l'', quartetList.push quartet 24 = .ok l' ∧
      Represents quartet l' [quarter 24, quarter 48, quarter 0, quarter 72] ∧
      l'.remove quartet 24 = .ok l'' ∧
      Represents quartet l'' [quarter 48, quarter 0, quarter 72]) ∧
    (∃ l', quartetList.remove quartet 0 = .ok l' ∧
      Represents quartet l' [quarter 48, quarter 72] ∧
      quartet.links l'.memory 0 = .ok ⟨none, none⟩) := by
  obtain ⟨henter, hleave⟩ := implements_list quartet_represents
  have hapart : ∀ c ∈ [quarter 48, quarter 0, quarter 72], (quarter 24).Apart c := by
    unfold Block.Apart
    decide
  obtain ⟨l', hpush, h', -, l'', hremove, h'', -⟩ :=
    henter (quarter 24) (quartet_freeBlock (by decide)) hapart
  obtain ⟨l₀, hremove₀, h₀, hlinks, -⟩ := hleave [quarter 48] (quarter 0) [quarter 72] rfl
  exact ⟨⟨l', l'', hpush, h', hremove, h''⟩, l₀, hremove₀, h₀, hlinks⟩

end Represents

end FreeList

end RegionHeap
