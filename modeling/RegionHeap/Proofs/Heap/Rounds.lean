import RegionHeap.Proofs.FreeList.Rounds
import RegionHeap.Proofs.Heap.Listing

/-!
# Operations within rounds

The operations of a listing heap with the rounds of their loops counted. With the rounds that a region
has at hand they are the operations themselves; on a heap that holds a plan they are so with one
round of the search for every listed block, and two rounds of merging and growing.

* `carveWithin?`, `freeWithin`, `allocateWithin`, `releaseWithin`, `resizeWithin` -- the operations;
* `ListHeap.Shows.allocateWithin_eq`, `Shows.releaseWithin_eq`, `Shows.resizeWithin_eq` -- which rounds
  are enough for them.
-/

namespace RegionHeap

/-- The rounds are enough for a heap that holds the plan. -/
structure Rounds.Enough (k : Rounds) (p : Plan) : Prop where
  search : p.order.length ≤ k.search
  merge : 2 ≤ k.merge
  grow : 2 ≤ k.grow

namespace ListHeap

open FreeList

variable {a : Alignment}

/-! ## 1. Operations -/

/-- `carve?` with the rounds counted. -/
def carveWithin? (k : Rounds) (r : Region a) (l : FreeList) (need : Nat) :
    Except Fault (Option (Nat × FreeList)) := do
  let some b ← l.firstFitWithin k r need | return none
  let l ← l.remove r b.offset
  let m ← r.setHeader l.memory b.offset (.ofSize b.size true)
  return some (b.offset, ← splitTailWithin k r { l with memory := m } b.offset need)

/-- `free` with the rounds counted. -/
def freeWithin (k : Rounds) (r : Region a) (l : FreeList) (live : Live) : Except Fault FreeList := do
  let m ← r.setHeader l.memory live.offset (.ofSize live.size false)
  let l := { l with memory := m }
  let alone : Except Fault FreeList := do
    (← l.push r live.offset).coalesceWithin k r live.offset
  match live.left with
  | none => alone
  | some left => do
    let h ← r.header m left
    if h.Allocated then
      alone
    else
      let size ← Word.add h.size live.size
      let m ← r.setHeader m left (.ofSize size false)
      coalesceWithin k r { l with memory := m } left

/-- `allocate` with the rounds counted. -/
def allocateWithin (k : Rounds) (h : ListHeap a) (m : Memory) (n : Nat) :
    Except Fault (Outcome a (ListHeap a) (Option Nat)) := do
  let some r := h.region | return ⟨h, m, none, []⟩
  let some need := a.blockSize? (Strategy.list.minPayload a) n | return ⟨h, m, none, []⟩
  let some (off, l) ← carveWithin? k r ⟨h.head, m⟩ need | return ⟨h, m, none, []⟩
  let addr ← r.payload off
  return ⟨h.withList l, l.memory, some addr, [.allocated n addr]⟩

/-- `release` with the rounds counted. -/
def releaseWithin (k : Rounds) (h : ListHeap a) (m : Memory) (addr : Nat) :
    Except Fault (Outcome a (ListHeap a) Unit) := do
  let some r := h.region | return ⟨h, m, (), []⟩
  let some live ← r.live? m (Strategy.list.minBlock a) addr
    | return ⟨h, m, (), [.releaseIgnored .list addr]⟩
  let l ← freeWithin k r ⟨h.head, m⟩ live
  return ⟨h.withList l, l.memory, (), [.released addr live]⟩

/-- `relocate` with the rounds counted. -/
def relocateWithin (k : Rounds) (h : ListHeap a) (r : Region a) (m : Memory) (addr : Nat) (live : Live)
    (n need : Nat) : Except Fault (Outcome a (ListHeap a) (Option Nat)) := do
  let some (off, l) ← carveWithin? k r ⟨h.head, m⟩ need | return ⟨h, m, none, []⟩
  let new ← r.payload off
  let m ← r.copyPayload l.memory live.offset off (min (← live.usable a) n)
  let freed ← (h.withList l).releaseWithin k m addr
  return ⟨freed.heap, freed.memory, some new, .allocated n new :: freed.log ++ [.moved addr n new]⟩

/-- `resize` with the rounds counted. -/
def resizeWithin (k : Rounds) (h : ListHeap a) (m : Memory) (addr? : Option Nat) (n : Nat) :
    Except Fault (Outcome a (ListHeap a) (Option Nat)) := do
  let some addr := addr? | h.allocateWithin k m n
  if n = 0 then
    let o ← h.releaseWithin k m addr
    return ⟨o.heap, o.memory, none, o.log⟩
  let some r := h.region | return ⟨h, m, none, []⟩
  let some live ← r.live? m (Strategy.list.minBlock a) addr
    | return ⟨h, m, none, [.resizeIgnored .list addr n]⟩
  let some need := a.blockSize? (Strategy.list.minPayload a) n | return ⟨h, m, none, []⟩
  if need ≤ live.size then
    let l ← splitTailWithin k r ⟨h.head, m⟩ live.offset need
    return ⟨h.withList l, l.memory, some addr, [.shrunk addr n]⟩
  match ← growWithin? k r ⟨h.head, m⟩ live.offset need with
  | some l => return ⟨h.withList l, l.memory, some addr, [.grown addr n]⟩
  | none => h.relocateWithin k r m addr live n need

end ListHeap

namespace Drawn

open Region FreeList

variable {a : Alignment} {r : Region a} {l : FreeList} {p : Plan} {need : Nat} {f : Focus}
  {order : List Nat} {k : Rounds}

/-! ## 2. Blocks -/

/-- A block is carved within the rounds. -/
theorem carveWithin?_eq (h : Drawn r l p) (hs : p.Settled .list) (hmod : need % a.bytes = 0)
    (hmin : Strategy.list.minBlock a ≤ need) (hk : k.Enough p) :
    ListHeap.carveWithin? k r l need = ListHeap.carve? r l need := by
  unfold ListHeap.carveWithin? ListHeap.carve?
  simp only [h.firstFitWithin_eq hk.search, h.firstFit, bind, Except.bind]
  cases hfit : p.fit? .list need with
  | none => rfl
  | some f =>
    obtain ⟨hcells, hfree, hneed⟩ := Plan.fit?_eq_some (s := .list) h.listed h.laid.tiled hfit
    obtain ⟨cells, order⟩ := p
    obtain ⟨front, c, back⟩ := f
    simp only at hcells
    subst hcells
    have hcmem : c ∈ front ++ c :: back := List.mem_append_right _ List.mem_cons_self
    obtain ⟨-, hback, hnext⟩ := (separated_middle_of_free hfree).mp hs.1
    obtain ⟨l1, hremove, hdrawn1, -⟩ := h.remove (hs.mem_order hcmem hfree)
    obtain ⟨m2, hset, hdrawn2, -⟩ := hdrawn1.setHeader [c] (h.laid.tiled.flag true) h.listed_of_use
    have hsize : (c.block a).size = c.size := Cell.header_size (h.laid.bounds hcmem).size_mod
    have hsplit := hdrawn2.splitTailWithin_eq (k := k) rfl hneed hmod hmin hback
      (fun e he hfree => absurd (hnext e he) (by simp [hfree])) hk.merge
    simp only [Option.map_some, hsize]
    simp only [Cell.block, hremove, hset, hsplit]

/-- A block is freed within two rounds. -/
theorem freeWithin_eq (h : Drawn r l ⟨f.front ++ f.cell :: f.back, order⟩)
    (hs : Plan.Settled .list ⟨f.front ++ f.cell :: f.back, order⟩) (hu : f.cell.used = true)
    (hk : 2 ≤ k.merge) : ListHeap.freeWithin k r l f.live = ListHeap.free r l f.live := by
  obtain ⟨front, c, back⟩ := f
  simp only at h hs hu ⊢
  have hcmem : c ∈ front ++ c :: back := List.mem_append_right _ List.mem_cons_self
  obtain ⟨hfront, hback⟩ := (separated_middle_of_used hu).mp hs.1
  have hlist : ∀ d ∈ back.head?, d.used = false → d.offset ∈ order := fun d hd hfree =>
    hs.mem_order (List.mem_append_right _ (List.mem_cons_of_mem c (List.mem_of_mem_head? hd))) hfree
  have hnot := h.not_listed hcmem hu
  obtain ⟨m1, hset, hdrawn, -⟩ := h.setFree hu
  obtain ⟨l2, -, hpush, -⟩ := hdrawn.enter rfl hnot hback hlist
  have halone := hdrawn.enterWithin_eq rfl hnot hback hlist hk hpush
  unfold ListHeap.freeWithin ListHeap.free Focus.live Focus.left?
  simp only [hset, bind, Except.bind]
  rcases List.eq_nil_or_concat front with rfl | ⟨init, left, rfl⟩
  · simp only [List.getLast?_nil, Option.map_none, hpush]
    exact halone
  · rw [List.concat_eq_append] at *
    have hleft := hdrawn.laid.header_eq (c := left) (by simp)
    simp only [List.getLast?_concat, Option.map_some, hleft]
    cases hl : left.used with
    | true =>
      simp only [if_pos (Cell.header_allocated (a := a).mpr hl), hpush]
      exact halone
    | false =>
      have hdrawn' : Drawn r ⟨l.head, m1⟩
          ⟨init ++ left :: { c with used := false } :: back, order⟩ := by
        rw [List.append_assoc] at hdrawn
        exact hdrawn
      obtain ⟨m4, hset4, hdrawn4, -⟩ := hdrawn'.widen hl hnot
      have hsize := Cell.header_size (a := a) (hdrawn.laid.bounds (c := left) (by simp)).size_mod
      have hfree : ¬ (left.header a).Allocated := by simp [hl]
      simp only [if_neg hfree, hsize, hdrawn'.add_eq, hset4]
      exact hdrawn4.coalesceWithin_eq hl hback hlist hk

end Drawn

namespace ListHeap.Shows

open Region FreeList

variable {a : Alignment} {r : Region a} {h : ListHeap a} {m : Memory} {p : Plan} {f : Focus}
  {addr n need : Nat} {k : Rounds}

/-! ## 3. Which rounds are enough -/

/-- **An allocation looks at each listed block once at most.** -/
theorem allocateWithin_eq (hs : Shows r h m p) (hk : k.Enough p) (n : Nat) :
    h.allocateWithin k m n = h.allocate m n := by
  unfold ListHeap.allocateWithin ListHeap.allocate
  simp only [hs.region_eq]
  cases hneed : a.blockSize? (Strategy.list.minPayload a) n with
  | none => rfl
  | some need =>
    have hserves := Strategy.blockSize?_spec hneed
    exact congrArg (· >>= _)
      (hs.drawn.carveWithin?_eq hs.settled hserves.mod hserves.minBlock_le hk)

/-- **A release merges the block with one block behind it at most.** -/
theorem releaseWithin_eq (hs : Shows r h m p) (hk : 2 ≤ k.merge) (addr : Nat) :
    h.releaseWithin k m addr = h.release m addr := by
  unfold ListHeap.releaseWithin ListHeap.release
  simp only [hs.region_eq, hs.live?_eq, bind, Except.bind]
  cases hf : p.live? r addr with
  | none => rfl
  | some f =>
    obtain ⟨hcells, hused, -⟩ := Plan.live?_eq_some hf
    have hdrawn : Drawn r ⟨h.head, m⟩ ⟨f.front ++ f.cell :: f.back, p.order⟩ := hcells ▸ hs.drawn
    simp only [Option.map_some, hdrawn.freeWithin_eq (hcells ▸ hs.settled) hused hk]

/-- A relocation searches, then frees the old block. -/
theorem relocateWithin_eq (hs : Shows r h m p) (hk : k.Enough p) (hf : p.live? r addr = some f)
    (hserves : Strategy.list.Serves a n need) :
    h.relocateWithin k r m addr f.live n need = h.relocate r m addr f.live n need := by
  unfold ListHeap.relocateWithin ListHeap.relocate
  simp only [hs.drawn.carveWithin?_eq hs.settled hserves.mod hserves.minBlock_le hk, bind, Except.bind]
  cases hplan : p.carve? a .list need with
  | none => simp only [hs.drawn.carve?_none hplan]
  | some x =>
    obtain ⟨off, p'⟩ := x
    obtain ⟨l', hcarve, hpayload, hshows, -⟩ := hs.carve? hserves hplan
    obtain ⟨husable, hcopy, hcopied⟩ :=
      Plan.relocate_copy hs.drawn.laid hs.drawn.listed hshows.drawn.laid hf hplan hserves
    simp only [hcarve, hpayload, husable, hcopy,
      (hshows.congr_of_client hcopied).releaseWithin_eq hk.merge]

/-- **A change of size looks at each listed block once at most**, and takes in one block at a time. -/
theorem resizeWithin_eq (hs : Shows r h m p) (hk : k.Enough p) (addr? : Option Nat) (n : Nat) :
    h.resizeWithin k m addr? n = h.resize m addr? n := by
  unfold ListHeap.resizeWithin ListHeap.resize
  cases addr? with
  | none => exact hs.allocateWithin_eq hk n
  | some addr =>
    simp only [hs.releaseWithin_eq hk.merge, hs.region_eq, hs.live?_eq, bind, Except.bind]
    cases hf : p.live? r addr with
    | none => rfl
    | some f =>
      cases hneed : a.blockSize? (Strategy.list.minPayload a) n with
      | none => rfl
      | some need =>
        have hserves := Strategy.blockSize?_spec hneed
        obtain ⟨-, hused, -⟩ := Plan.live?_eq_some hf
        obtain ⟨hdrawn, hsep, hlist⟩ := hs.focus hf
        simp only [Option.map_some, Focus.live]
        by_cases hle : need ≤ f.cell.size
        · simp only [if_pos hle, hdrawn.splitTailWithin_eq hused hle hserves.mod hserves.minBlock_le
            hsep hlist hk.merge]
        · have hrelocate := hs.relocateWithin_eq hk hf hserves
          simp only [Focus.live] at hrelocate
          rw [if_neg hle, if_neg hle, hdrawn.growWithin?_eq hused (Nat.not_le.mp hle) hserves.mod hsep
            hlist hk.merge hk.grow]
          cases FreeList.grow? r ⟨h.head, m⟩ f.cell.offset need with
          | error e => rfl
          | ok l? =>
            cases l? with
            | some l => rfl
            | none =>
              simp only [hrelocate]

end ListHeap.Shows

end RegionHeap
