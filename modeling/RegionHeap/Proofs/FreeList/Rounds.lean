import RegionHeap.Proofs.FreeList.Edits

/-!
# Rounds of the loops

Three loops of a listing heap follow words that lie in memory: the search along the list, the merging
of free blocks and the growth into them. They have rounds enough for any memory; on a heap that holds
a plan few of them are used.

* `FreeList.Searches` -- the nodes that a search comes to, in order; `firstFitFrom_eq_ok_iff` ties them
  to the search, and `Drawn.searches` says that they are listed blocks, none of them twice;
* `Rounds` -- how many rounds each loop may make, and the edits of the list within that many;
* `Drawn.coalesceWithin_eq`, `Drawn.splitTailWithin_eq`, `Drawn.growWithin?_eq` -- two rounds are
  enough to merge or to grow: one block is taken in at most, and the last round takes in none.
-/

namespace RegionHeap

/-- How many rounds the loops of a listing heap may make. -/
structure Rounds where
  /-- The nodes that a search comes to. -/
  search : Nat
  /-- The looks at what follows a free block, each but the last of which takes a block in. -/
  merge : Nat
  /-- The looks at what follows a growing block, each but the last of which takes a block in. -/
  grow : Nat

/-- The rounds that the loops have at hand in a region. -/
def Rounds.given {a : Alignment} (r : Region a) : Rounds :=
  ⟨r.size / Word.size, r.size, r.size + 1⟩

namespace FreeList

variable {a : Alignment} {r : Region a} {m : Memory} {need steps off : Nat} {node? : Option Nat}
  {b? : Option (Block a)} {offs : List Nat}

/-! ## 1. The nodes of a search -/

/-- A search from a place in the list comes to these nodes, in order, and ends with this block. -/
inductive Searches (r : Region a) (m : Memory) (need : Nat) :
    Option Nat → List Nat → Option (Block a) → Prop where
  | nothing : Searches r m need none [] none
  | found {off : Nat} {h : Header a} (hhead : r.freeHeader m off = .ok h) (hfit : need ≤ h.size) :
      Searches r m need (some off) [off] (some ⟨off, h⟩)
  | further {off : Nat} {h : Header a} {links : Links} {offs : List Nat} {b? : Option (Block a)}
      (hhead : r.freeHeader m off = .ok h) (hfit : ¬ need ≤ h.size)
      (hlinks : r.links m off = .ok links) (hrest : Searches r m need links.next offs b?) :
      Searches r m need (some off) (off :: offs) b?

/-- A search has an outcome exactly if it has a round for every node that it comes to. -/
theorem firstFitFrom_eq_ok_iff :
    firstFitFrom r m need steps node? = .ok b? ↔
      ∃ offs, Searches r m need node? offs b? ∧ offs.length ≤ steps := by
  constructor
  · intro h
    induction steps generalizing node? with
    | zero =>
      cases node? with
      | none =>
        cases h
        exact ⟨[], .nothing, Nat.le_refl _⟩
      | some off => cases h
    | succ steps ih =>
      cases node? with
      | none =>
        cases h
        exact ⟨[], .nothing, Nat.zero_le _⟩
      | some off =>
        unfold firstFitFrom at h
        cases hhead : r.freeHeader m off with
        | error e =>
          rw [hhead] at h
          cases h
        | ok x =>
          simp only [hhead, bind, Except.bind] at h
          by_cases hfit : need ≤ x.size
          · rw [if_pos hfit] at h
            cases h
            exact ⟨[off], .found hhead hfit, Nat.succ_le_succ (Nat.zero_le _)⟩
          · rw [if_neg hfit] at h
            cases hlinks : r.links m off with
            | error e =>
              rw [hlinks] at h
              cases h
            | ok links =>
              simp only [hlinks] at h
              obtain ⟨offs, hrest, hlen⟩ := ih h
              exact ⟨off :: offs, .further hhead hfit hlinks hrest, Nat.succ_le_succ hlen⟩
  · intro h
    obtain ⟨offs, h, hlen⟩ := h
    induction h generalizing steps with
    | nothing =>
      unfold firstFitFrom
      rfl
    | found hhead hfit =>
      obtain ⟨steps, rfl⟩ : ∃ k, steps = k + 1 := Nat.exists_eq_add_of_le' hlen
      unfold firstFitFrom
      simp only [hhead, bind, Except.bind]
      rw [if_pos hfit]
      rfl
    | further hhead hfit hlinks hrest ih =>
      obtain ⟨steps, rfl⟩ : ∃ k, steps = k + 1 :=
        Nat.exists_eq_add_of_le' (Nat.le_trans (Nat.le_add_left 1 _) hlen)
      unfold firstFitFrom
      simp only [hhead, hlinks, bind, Except.bind]
      rw [if_neg hfit]
      exact ih (Nat.le_of_succ_le_succ hlen)

/-! ## 2. Edits within rounds -/

/-- `firstFit` with its rounds counted. -/
def firstFitWithin (k : Rounds) (r : Region a) (l : FreeList) (need : Nat) :
    Except Fault (Option (Block a)) :=
  firstFitFrom r l.memory need k.search l.head

/-- `coalesce` with its rounds counted. -/
def coalesceWithin (k : Rounds) (r : Region a) (l : FreeList) (off : Nat) :
    Except Fault FreeList := do
  let h ← r.header l.memory off
  if h.Allocated then throw (.notFree off)
  absorb r off k.merge h.size l

/-- `splitTail` with its rounds counted. -/
def splitTailWithin (k : Rounds) (r : Region a) (l : FreeList) (off keep : Nat) :
    Except Fault FreeList := do
  let h ← r.header l.memory off
  unless h.Allocated do throw (.notAllocated off)
  unless keep ≤ h.size do throw (.keepsTooMuch off keep)
  if h.size - keep < Strategy.list.minBlock a then return l
  let m ← r.setHeader l.memory off (.ofSize keep true)
  let m ← r.setHeader m (off + keep) (.ofSize (h.size - keep) false)
  let l ← push r { l with memory := m } (off + keep)
  l.coalesceWithin k r (off + keep)

/-- `grow?` with its rounds counted. -/
def growWithin? (k : Rounds) (r : Region a) (l : FreeList) (off need : Nat) :
    Except Fault (Option FreeList) := do
  let h ← r.header l.memory off
  if (← reach r l.memory off need k.grow h.size) < need then return none
  let (size, l) ← gather r off need k.grow h.size l
  let m ← r.setHeader l.memory off (.ofSize size true)
  return some (← splitTailWithin k r { l with memory := m } off need)

end FreeList

namespace Drawn

open Region FreeList

variable {a : Alignment} {r : Region a} {l l1 : FreeList} {p p' : Plan} {need keep : Nat}
  {c : Cell} {front back : List Cell} {order : List Nat} {k : Rounds}

/-! ## 3. How many rounds are used -/

/-- A search from a node on comes to the remaining nodes, in the order of the list. -/
theorem searchesFrom (h : Drawn r l p) (need : Nat) {pre rest : List Nat}
    (horder : p.order = pre ++ rest) :
    ∃ offs b?, Searches r l.memory need rest.head? offs b? ∧ offs <+: rest := by
  induction rest generalizing pre with
  | nil => exact ⟨[], none, .nothing, List.prefix_rfl⟩
  | cons x rest ih =>
    have hx : x ∈ p.order := by
      rw [horder]
      exact List.mem_append_right _ List.mem_cons_self
    obtain ⟨c, hc, -, rfl⟩ := mem_vacant.mp (h.listed x hx)
    have hhead := h.freeHeader_eq hc hx
    by_cases hfit : need ≤ (c.header a).size
    · exact ⟨[c.offset], _, .found hhead hfit, List.prefix_cons_inj _ |>.mpr List.nil_prefix⟩
    · have hlinked := h.linked
      rw [horder] at hlinked
      have hlinks := h.threaded.nodes.links_eq hx (m := l.memory)
      rw [hlinked.links_eq] at hlinks
      have horder : p.order = (pre ++ [c.offset]) ++ rest := by
        rw [horder, List.append_assoc]
        rfl
      obtain ⟨offs, b?, hrest, hpre⟩ := ih horder
      exact ⟨c.offset :: offs, b?, .further hhead hfit hlinks hrest,
        List.prefix_cons_inj _ |>.mpr hpre⟩

/-- **A search comes to free blocks only, and to none of them twice.** -/
theorem searches (h : Drawn r l p) (need : Nat) :
    ∃ offs b?, Searches r l.memory need l.head offs b? ∧ offs.Nodup ∧
      ∀ x ∈ offs, x ∈ vacant p.cells := by
  obtain ⟨offs, b?, hsearches, hpre⟩ := h.searchesFrom need (List.nil_append p.order).symm
  rw [h.head_eq]
  exact ⟨offs, b?, hsearches, h.nodup.sublist hpre.sublist, fun x hx => h.listed x (hpre.subset hx)⟩

theorem firstFitWithin_eq (h : Drawn r l p) (hk : p.order.length ≤ k.search) :
    firstFitWithin k r l need = FreeList.firstFit r l need := by
  rw [h.firstFit, firstFitWithin, h.head_eq]
  exact h.firstFitFrom (List.nil_append p.order).symm hk

/-- **A free cell takes in one block at most.** -/
theorem coalesceWithin_eq (h : Drawn r l ⟨front ++ c :: back, order⟩) (hc : c.used = false)
    (hsep : Separated back) (hlist : ∀ d ∈ back.head?, d.used = false → d.offset ∈ order)
    (hk : 2 ≤ k.merge) : coalesceWithin k r l c.offset = FreeList.coalesce r l c.offset := by
  have hcmem : c ∈ front ++ c :: back := List.mem_append_right _ List.mem_cons_self
  obtain ⟨passes, hpasses⟩ := h.exists_passes
  obtain ⟨rounds, hrounds⟩ := Nat.exists_eq_add_of_le' hk
  obtain ⟨l', habsorb, -⟩ := h.absorb hc hsep hlist
  unfold coalesceWithin FreeList.coalesce
  simp only [h.laid.header_eq hcmem, Cell.header_size (h.laid.bounds hcmem).size_mod, hpasses, hrounds,
    habsorb, bind, Except.bind]

/-- A free cell that enters the list takes in one block at most. -/
theorem enterWithin_eq (h : Drawn r l ⟨front ++ c :: back, order⟩) (hc : c.used = false)
    (hnot : c.offset ∉ order) (hsep : Separated back)
    (hlist : ∀ d ∈ back.head?, d.used = false → d.offset ∈ order) (hk : 2 ≤ k.merge)
    (hpush : l.push r c.offset = .ok l1) :
    coalesceWithin k r l1 c.offset = FreeList.coalesce r l1 c.offset := by
  have hvacant : c.offset ∈ vacant (front ++ c :: back) :=
    mem_vacant.mpr ⟨c, List.mem_append_right _ List.mem_cons_self, hc, rfl⟩
  obtain ⟨l', hpush', hdrawn, -⟩ := h.push hvacant hnot
  rw [hpush] at hpush'
  cases hpush'
  exact hdrawn.coalesceWithin_eq hc hsep (fun d hd hfree => List.mem_cons_of_mem _ (hlist d hd hfree)) hk

/-- **What a cell in use gives back takes in one block at most.** -/
theorem splitTailWithin_eq (h : Drawn r l ⟨front ++ c :: back, order⟩) (hc : c.used = true)
    (hkeep : keep ≤ c.size) (hmod : keep % a.bytes = 0) (hmin : Strategy.list.minBlock a ≤ keep)
    (hsep : Separated back) (hlist : ∀ d ∈ back.head?, d.used = false → d.offset ∈ order)
    (hk : 2 ≤ k.merge) : splitTailWithin k r l c.offset keep = FreeList.splitTail r l c.offset keep := by
  have hcmem : c ∈ front ++ c :: back := List.mem_append_right _ List.mem_cons_self
  have hsize := Cell.header_size (a := a) (h.laid.bounds hcmem).size_mod
  unfold splitTailWithin FreeList.splitTail
  simp only [h.laid.header_eq hcmem, Cell.header_allocated, hsize, hc, hkeep, bind, Except.bind, pure,
    Except.pure, if_true]
  by_cases hsmall : c.size - keep < Strategy.list.minBlock a
  · rw [if_pos hsmall, if_pos hsmall]
  · rw [if_neg hsmall, if_neg hsmall]
    obtain ⟨m1, m2, hset1, hset2, hdrawn, -⟩ := h.split hc hmod hmin (Nat.not_lt.mp hsmall)
    have hinside : c.offset + keep < c.next := by
      have h1 := Strategy.list.minBlock_pos (a := a)
      unfold Cell.next
      omega
    have hnot := h.not_listed_inside hcmem hc (Nat.le_add_right ..) hinside
    have hdrawn' : Drawn r ⟨l.head, m2⟩ ⟨(front ++ [⟨c.offset, keep, true⟩]) ++
        ⟨c.offset + keep, c.size - keep, false⟩ :: back, order⟩ := by
      rw [List.append_assoc]
      exact hdrawn
    obtain ⟨l3, -, hpush, -⟩ := hdrawn'.enter rfl hnot hsep hlist
    simp only [hset1, hset2, hpush]
    exact hdrawn'.enterWithin_eq rfl hnot hsep hlist hk hpush

/-- **A cell in use grows into one block at most.** -/
theorem growWithin?_eq (h : Drawn r l ⟨front ++ c :: back, order⟩) (hc : c.used = true)
    (hneed : c.size < need) (hmod : need % a.bytes = 0) (hsep : Separated back)
    (hlist : ∀ d ∈ back.head?, d.used = false → d.offset ∈ order) (hmerge : 2 ≤ k.merge)
    (hgrow : 2 ≤ k.grow) : growWithin? k r l c.offset need = grow? r l c.offset need := by
  have hcmem : c ∈ front ++ c :: back := List.mem_append_right _ List.mem_cons_self
  have hb := h.laid.bounds hcmem
  obtain ⟨passes, hpasses⟩ := h.exists_passes
  obtain ⟨rounds, hrounds⟩ := Nat.exists_eq_add_of_le' hgrow
  unfold growWithin? grow?
  simp only [h.laid.header_eq hcmem, Cell.header_size hb.size_mod, hpasses, hrounds, bind, Except.bind]
  by_cases hstop : ∀ d ∈ back.head?, d.used = true
  · -- there is nothing to grow into, and the measuring finds out
    simp only [h.reach_stop hstop rfl need, if_pos hneed]
  · obtain ⟨d, hd, hfree⟩ : ∃ d ∈ back.head?, d.used = false := by simpa using hstop
    obtain ⟨rest, rfl⟩ := List.head?_eq_some_iff.mp hd
    simp only [h.reach hfree hsep hneed]
    by_cases hfit : c.size + d.size < need
    · rw [if_pos hfit, if_pos hfit]
    · rw [if_neg hfit, if_neg hfit]
      obtain ⟨hback, hnext⟩ := (separated_cons_of_free hfree).mp hsep
      obtain ⟨l1, m2, hremove, hset, hdrawn, -⟩ := h.takeIn (hlist d hd hfree)
      have hgather := h.gather (hlist d hd hfree) hneed (Nat.not_lt.mp hfit) hremove
      rw [hc] at hset
      simp only [hgather, hset]
      rw [hdrawn.splitTailWithin_eq hc (Nat.not_lt.mp hfit) hmod
        (Nat.le_trans hb.min_le (Nat.le_of_lt hneed)) hback
        (fun e he hfree => absurd (hnext e he) (by simp [hfree])) hmerge]

end Drawn

end RegionHeap
