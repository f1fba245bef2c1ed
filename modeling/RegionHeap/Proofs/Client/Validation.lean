import RegionHeap.Proofs.Client.Exclusivity

/-!
# Validated heaps

What a client may rely on when a listing heap passes the validation, whatever lies in memory and
wherever the list begins.

* `World.AnswersApart` -- the next address is answered for memory that no allocated block holds;
* `World.Matches.answersApart` -- a heap that keeps to a draft answers so;
* `World.validate_sound` -- a heap that passes does so for good, if each node of its list is a block;
* `World.forged_node_passes` -- a heap that passes with a node inside of an allocated block, and
  hands it out.
-/

namespace RegionHeap.World

variable {a : Alignment} {s : Strategy} {w : World a} {d : Draft a} {h : ListHeap a} {m : Memory}
  {v : Verdict a}

/-! ## 1. Heaps that pass -/

/-- The next address is answered for a range that no allocated block holds a byte of, other than the
    block that is to be resized. -/
def AnswersApart (w : World a) : Prop :=
  ∀ q w' answer new r bs, w.serve q = .ok (w', answer) → answer.address? = some new →
    w.heap.region = some r → r.blocks w.memory = .ok bs →
      ∃ u, w'.Grants new u ∧ ∀ b ∈ bs, b.header.Allocated →
        q.subject? ≠ some (r.base + b.offset + a.bytes) →
          new + u ≤ r.base + b.offset ∨ r.base + b.next ≤ new

/-- **A heap that keeps to a draft answers apart** from its allocated blocks. -/
theorem Matches.answersApart (hw : Matches s d w) : w.AnswersApart := by
  intro q w' answer new r bs hserve hnew hr hbs
  obtain ⟨p, rfl⟩ := hw.exists_plan hr
  have hs : w.heap.Shows r s w.memory p := hw
  obtain ⟨hw1, haddress, -⟩ := hw.of_serve hserve
  obtain ⟨n, p', hnext, c, rfl, -, hne, hmem⟩ := hw.places (haddress.symm.trans hnew)
  rw [hnext] at hw1
  have hs1 : w'.heap.Shows r s w'.memory p' := hw1
  have hc : c ∈ inUse p'.cells := (hmem c).mpr (.inr rfl)
  refine ⟨c.size - a.bytes, (grants_iff hs1).mpr ⟨c, hc, rfl, rfl⟩, fun b hb halloc hsubject => ?_⟩
  rw [hs.laid.blocks_eq] at hbs
  obtain rfl := Except.ok.inj hbs
  obtain ⟨c', hc', rfl⟩ := List.mem_map.mp hb
  have hother : c' ∈ p.others r q.subject? :=
    Plan.mem_others.mpr ⟨mem_inUse.mpr ⟨hc', Cell.header_allocated.mp halloc⟩, hsubject⟩
  -- the block is still in use afterwards, next to the one that was placed
  have hkept : c' ∈ inUse p'.cells := (hmem c').mpr (.inl hother)
  rw [Cell.block_next (hs.laid.bounds hc').size_mod]
  refine hs1.laid.payload_apart_of_ne (mem_inUse.mp hc).1 (mem_inUse.mp hkept).1 ?_
  exact fun e => hne c' hother (congrArg (Cell.payload r) e.symm)

/-- **What a validation that passes is worth**, on any memory and with any head of the list: the walk
    is tidy, and the list has as many nodes as there are free blocks, each of them once. The heap is
    intact exactly if each node is a block, and then it stays so: no run comes to a fault, and
    whatever is answered lies apart from the allocated blocks. -/
theorem validate_sound (hv : h.validate m = .ok v) (hok : v.result = .ok ()) :
    ∃ r bs nodes, h.region = some r ∧ r.Accepted m h.head bs nodes ∧
      (r.Intact m h.head bs nodes ↔ Block.Names bs nodes) ∧
      (Block.Names bs nodes → ∀ acts, ∃ (w : World a) (trace : List (Action × Answer a)),
        run ⟨.list h, m⟩ acts = .ok (w, trace) ∧ w.AnswersApart) := by
  obtain ⟨r, bs, nodes, hr, haccepted⟩ := ListHeap.validate_eq_ok_iff.mp ⟨v, hv, hok⟩
  refine ⟨r, bs, nodes, hr, haccepted, haccepted.intact_iff, fun hnames acts => ?_⟩
  have hshows := ListHeap.shows_of_intact hr (haccepted.intact_iff.mpr hnames)
  have hw : Matches .list (.planned r ⟨bs.map Block.cell, nodes⟩) ⟨.list h, m⟩ := .list hshows
  obtain ⟨w, trace, hrun, hw', -⟩ := hw.run acts
  exact ⟨w, trace, hrun, hw'.answersApart⟩

/-! ## 2. A node inside of an allocated block -/

/-- Eighty bytes from address 64 on. -/
def sampleRegion : Region .eight :=
  ⟨64, 80, by decide, by decide, by decide⟩

/-- A free block of 24 bytes with its link to the next one, an allocated block of 32 bytes, and a free
    block of 24 bytes that names the first one. The client has filled the payload of the allocated
    block, at offset 32, with what a free block of 40 bytes would hold that names the first one. -/
def sampleMemory (next : Nat) : Memory :=
  (Memory.blank 0 0 0).writeBytes 64
    ([24, Links.nil, next, 33, 40, 0, Links.nil, 24, 0, Links.nil].flatMap (Word.toBytes Word.size))

/-- The list begins with the first block. -/
def sampleHeap : ListHeap .eight :=
  ⟨some sampleRegion, some 0⟩

/-- The blocks that the walk finds. -/
def sampleBlocks : List (Block .eight) :=
  [⟨0, ⟨24⟩⟩, ⟨24, ⟨33⟩⟩, ⟨56, ⟨24⟩⟩]

variable {next : Nat}

theorem sample_blocks (h : next = 32 ∨ next = 56) :
    sampleRegion.blocks (sampleMemory next) = .ok sampleBlocks := by
  rcases h with rfl | rfl
  · decide +kernel
  · decide +kernel

theorem sample_passes (h : next = 32 ∨ next = 56) :
    sampleHeap.validate (sampleMemory next) = .ok ⟨.ok (), [], []⟩ := by
  refine ListHeap.validate_of_audit (r := sampleRegion) rfl ?_
  rcases h with rfl | rfl
  · decide +kernel
  · decide +kernel

/-- The list leads from the first block to the place that it names as the next one. -/
theorem sample_listed (h : next = 32 ∨ next = 56) :
    sampleRegion.Listed (sampleMemory next) none (some 0) [0, next] := by
  rcases h with rfl | rfl
  · refine ⟨rfl, by decide, ⟨⟨24⟩, by decide +kernel, by decide⟩, some 32, by decide +kernel, ?_⟩
    exact ⟨rfl, by decide, ⟨⟨40⟩, by decide +kernel, by decide⟩, none, by decide +kernel, rfl⟩
  · refine ⟨rfl, by decide, ⟨⟨24⟩, by decide +kernel, by decide⟩, some 56, by decide +kernel, ?_⟩
    exact ⟨rfl, by decide, ⟨⟨24⟩, by decide +kernel, by decide⟩, none, by decide +kernel, rfl⟩

/-- With the link to the last block the heap is intact, whatever the client has written. -/
theorem validate_sound_sample :
    sampleHeap.validate (sampleMemory 56) = .ok ⟨.ok (), [], []⟩ ∧
      sampleRegion.Intact (sampleMemory 56) sampleHeap.head sampleBlocks [0, 56] ∧
      ∀ acts, ∃ (w : World .eight) (trace : List (Action × Answer .eight)),
        run ⟨.list sampleHeap, sampleMemory 56⟩ acts = .ok (w, trace) ∧ w.AnswersApart := by
  have hpasses := sample_passes (.inr rfl)
  obtain ⟨r, bs, nodes, hr, haccepted, hintact, hruns⟩ := validate_sound hpasses rfl
  obtain rfl : sampleRegion = r := Option.some.inj hr
  obtain rfl : sampleBlocks = bs :=
    Except.ok.inj ((sample_blocks (.inr rfl)).symm.trans haccepted.walk)
  obtain rfl : [0, 56] = nodes := (sample_listed (.inr rfl)).unique haccepted.listed
  have hnames : Block.Names sampleBlocks [0, 56] := by decide
  exact ⟨hpasses, hintact.mpr hnames, hruns hnames⟩

/-- **A heap can pass and not be intact**: with the link to the payload of the allocated block, a node
    of the list is no block, and an allocation is answered with an address inside of that block. -/
theorem forged_node_passes :
    sampleHeap.validate (sampleMemory 32) = .ok ⟨.ok (), [], []⟩ ∧
      sampleRegion.blocks (sampleMemory 32) = .ok sampleBlocks ∧
      sampleRegion.Listed (sampleMemory 32) none sampleHeap.head [0, 32] ∧
      (¬ ∃ b ∈ sampleBlocks, b.offset = 32) ∧
      (¬ ∃ bs nodes, sampleRegion.Intact (sampleMemory 32) sampleHeap.head bs nodes) ∧
      ¬ AnswersApart ⟨.list sampleHeap, sampleMemory 32⟩ := by
  have hblocks := sample_blocks (.inl rfl)
  have hlisted := sample_listed (.inl rfl)
  have hstray : ¬ ∃ b ∈ sampleBlocks, b.offset = 32 := by decide
  refine ⟨sample_passes (.inl rfl), hblocks, hlisted, hstray, ?_, fun hanswers => ?_⟩
  · intro h
    obtain ⟨bs, nodes, hintact⟩ := h
    obtain rfl : sampleBlocks = bs := Except.ok.inj (hblocks.symm.trans hintact.walk)
    obtain rfl : [0, 32] = nodes := hlisted.unique hintact.listed
    obtain ⟨b, hb, ho, -⟩ := (hintact.mem_nodes 32).mp (by decide)
    exact hstray ⟨b, hb, ho⟩
  · have hvalue : (sampleHeap.allocate (sampleMemory 32) 32).map (·.value) = .ok (some 104) := by
      decide +kernel
    cases hstep : sampleHeap.allocate (sampleMemory 32) 32 with
    | error e =>
      rw [hstep] at hvalue
      cases hvalue
    | ok o =>
      rw [hstep] at hvalue
      have hserve : serve ⟨.list sampleHeap, sampleMemory 32⟩ (.allocate 32) =
          .ok (⟨.list o.heap, o.memory⟩, .address o.value) := by
        simp only [serve, Heap.allocate, hstep]
        rfl
      unfold AnswersApart at hanswers
      dsimp only at hanswers
      obtain ⟨u, -, hapart⟩ :=
        hanswers _ _ _ 104 sampleRegion sampleBlocks hserve (Except.ok.inj hvalue) rfl hblocks
      -- the allocated block reaches from 88 to 120
      have happ : 104 + u ≤ 88 ∨ 120 ≤ 104 :=
        hapart ⟨24, ⟨33⟩⟩ (by decide) (by decide) (by decide)
      omega

end RegionHeap.World
