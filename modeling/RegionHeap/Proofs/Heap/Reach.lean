import RegionHeap.Proofs.Heap.Breaks

/-!
# Which addresses a snapshot can show

A line has no text if it is to show an address that is no word. On any memory the headers of the walk
and the end of the region have addresses. The links of free blocks are raw words of memory, and so is
the head of the list once a link has been followed; where one of them leads too far, the snapshot of a
listing heap ends in an overflow of the sum with the start of the region, and in no other fault.

* `firstFault` -- the first piece that has no text decides how the writing ends;
* `Line.shown` -- what a line shows unchecked, and all that it can fail for;
* `Region.shown` -- the links that a snapshot of a listing heap shows, the head of the list among them;
* `ListHeap.exists_pieces` -- its first fault is the first of these that leads too far;
* `ListHeap.dump_reaches` -- when such a snapshot is written, and what happens otherwise;
* `ListHeap.dump_overflows` -- a heap that cannot be shown.
-/

namespace RegionHeap

/-! ## 1. Offsets without an address -/

section

variable {a : Alignment} {r : Region a} {xs ys : List Nat}

/-- The overflow at the first of the offsets that has no address. -/
def Region.overflow? (r : Region a) (xs : List Nat) : Option Fault :=
  (xs.find? fun x => Word.limit ≤ r.base + x).map (.overflow r.base)

theorem Region.overflow?_append :
    r.overflow? (xs ++ ys) = (r.overflow? xs).or (r.overflow? ys) := by
  rw [overflow?, overflow?, overflow?, List.find?_append, Option.map_or]

theorem Region.overflow?_eq_none_iff :
    r.overflow? xs = none ↔ ∀ x ∈ xs, r.base + x < Word.limit := by
  rw [overflow?, Option.map_eq_none_iff, List.find?_eq_none]
  refine forall₂_congr fun x _ => ?_
  rw [decide_eq_true_iff, Nat.not_le]

/-- An offset has an address, or the sum with the start of the region overflows. -/
theorem Region.address_cases (r : Region a) (x : Nat) :
    (r.address x = .ok (r.base + x) ∧ r.overflow? [x] = none) ∨
      r.address x = .error (.overflow r.base x) ∧
        r.overflow? [x] = some (.overflow r.base x) := by
  unfold address
  by_cases hx : r.base + x < Word.limit
  · refine .inl ⟨Word.add_eq_ok hx, overflow?_eq_none_iff.mpr fun y hy => ?_⟩
    rwa [List.mem_singleton.mp hy]
  · refine .inr ⟨if_neg hx, ?_⟩
    rw [overflow?, List.find?_cons_of_pos (by simpa using hx), Option.map_some]

/-- Offsets overflow nowhere if each has its address. -/
theorem Region.overflow?_eq_none_iff_address :
    r.overflow? xs = none ↔ ∀ x ∈ xs, r.address x = .ok (r.base + x) := by
  rw [overflow?_eq_none_iff]
  refine forall₂_congr fun x _ => ⟨Word.add_eq_ok, fun h => ?_⟩
  by_contra hx
  rw [address, Word.add, if_neg hx] at h
  cases h

/-- A link, if there is one, has an address or overflows. -/
theorem Region.mapM_address (r : Region a) (x? : Option Nat) :
    (∃ y?, x?.mapM r.address = .ok y? ∧ r.overflow? x?.toList = none) ∨
      ∃ e, x?.mapM r.address = .error e ∧ r.overflow? x?.toList = some e := by
  cases x? with
  | none => exact .inl ⟨none, rfl, rfl⟩
  | some x =>
    rw [Option.mapM_some, Option.toList_some]
    rcases r.address_cases x with ⟨haddress, hnone⟩ | ⟨haddress, hsome⟩
    · exact .inl ⟨some (r.base + x), by rw [haddress]; rfl, hnone⟩
    · exact .inr ⟨_, by rw [haddress]; rfl, hsome⟩

end

namespace Snapshot

variable {a : Alignment} {r : Region a} {m : Memory} {head : Option Nat} {bs : List (Block a)}
  {b : Block a} {index : Nat} {lines : List (Line a)} {line : Line a} {pieces pieces' : List Piece}
  {e : Fault}

/-! ## 2. The first fault -/

/-- The reason why a piece has no text. -/
def Piece.fault? : Piece → Option Fault
  | .error e => some e
  | .ok _ => none

/-- The first of the reasons why pieces have no text. -/
def firstFault (pieces : List Piece) : Option Fault :=
  pieces.findSome? Piece.fault?

theorem firstFault_append :
    firstFault (pieces ++ pieces') = (firstFault pieces).or (firstFault pieces') :=
  List.findSome?_append

theorem Piece.fault?_eq_none_iff {piece : Piece} :
    piece.fault? = none ↔ ∃ text, piece = .ok text := by
  cases piece with
  | ok text => exact ⟨fun _ => ⟨text, rfl⟩, fun _ => rfl⟩
  | error e => exact ⟨nofun, fun ⟨_, h⟩ => nomatch h⟩

/-- There is no fault exactly if all pieces have a text. -/
theorem firstFault_eq_none_iff :
    firstFault pieces = none ↔ ∀ piece ∈ pieces, ∃ text, piece = .ok text := by
  rw [firstFault, List.findSome?_eq_none_iff]
  exact forall₂_congr fun _ _ => Piece.fault?_eq_none_iff

/-- **A writer fails only at the first piece without a text**, whatever room it has. -/
theorem firstFault_of_write {room : Option Nat} {taken : String}
    (h : write room taken pieces = .error e) : firstFault pieces = some e := by
  induction pieces generalizing room taken with
  | nil => cases h
  | cons piece rest ih =>
    cases piece with
    | error f =>
      obtain rfl : f = e := Except.error.inj h
      rfl
    | ok text =>
      show firstFault rest = some e
      cases room with
      | none => exact ih h
      | some n =>
        by_cases hfit : text.length ≤ n
        · exact ih ((if_pos hfit).symm.trans h)
        · exact nomatch (if_neg hfit).symm.trans h

/-- A writer with room for all comes to the first piece without a text. -/
theorem write_of_firstFault {taken : String} (h : firstFault pieces = some e) :
    write none taken pieces = .error e := by
  induction pieces generalizing taken with
  | nil => cases h
  | cons piece rest ih =>
    cases piece with
    | error f =>
      obtain rfl : f = e := Option.some.inj h
      rfl
    | ok text => exact @ih (taken ++ text) h

/-- Two links have a text if both have an address. -/
theorem fault_linksText (r : Region a) (l : Links) :
    Piece.fault? (linksText r l) = r.overflow? (l.prev.toList ++ l.next.toList) := by
  rw [Region.overflow?_append]
  unfold linksText
  rcases r.mapM_address l.prev with ⟨prev, hprev, hnone⟩ | ⟨e, hprev, hsome⟩
  · rcases r.mapM_address l.next with ⟨next, hnext, hnone'⟩ | ⟨e, hnext, hsome⟩
    · simp only [hprev, hnext, hnone, hnone', bind, Except.bind, Option.or_none]
      rfl
    · simp only [hprev, hnext, hnone, hsome, bind, Except.bind, Option.none_or]
      rfl
  · simp only [hprev, hsome, bind, Except.bind, Option.some_or]
    rfl

/-- The line of a block with links lacks a text only because of them. -/
theorem firstFault_block_links (hb : b.offset ≤ r.size) (l : Links) :
    firstFault (Line.block r index b (.links l)).pieces =
      r.overflow? (l.prev.toList ++ l.next.toList) := by
  have hblock : ∃ text, blockText r index b = .ok text := by
    unfold blockText
    simp only [Region.address, Word.add_eq_ok (r.address_lt hb), bind, Except.bind]
    exact ⟨_, rfl⟩
  obtain ⟨text, htext⟩ := hblock
  rw [← fault_linksText]
  show firstFault [blockText r index b, noteText r b (.links l)] = _
  rw [htext]
  cases hlinks : linksText r l with
  | error e =>
    have hnote : noteText r b (.links l) = .error e := by
      simp only [noteText, hlinks]
      rfl
    rw [hnote]
    rfl
  | ok shown =>
    have hnote : noteText r b (.links l) = .ok ("  " ++ shown ++ "\n") := by
      simp only [noteText, hlinks]
      rfl
    rw [hnote]
    rfl

/-- The line of the head lacks a text if the head leads too far. -/
theorem firstFault_freeHead :
    firstFault (Line.freeHead r head).pieces = r.overflow? head.toList := by
  cases head with
  | none => rfl
  | some x =>
    rw [Option.toList_some]
    rcases r.address_cases x with ⟨haddress, hnone⟩ | ⟨haddress, hsome⟩
    · rw [hnone]
      simp only [Line.pieces, haddress, bind, Except.bind]
      rfl
    · rw [hsome]
      simp only [Line.pieces, haddress, bind, Except.bind]
      rfl

/-! ## 3. What lines show -/

/-- What a line takes from memory unchecked and shows as an address: the head of the list, or the
    links of a free block. -/
def Line.shown : Line a → List Nat
  | freeHead _ head => head.toList
  | block _ _ _ (.links l) => l.prev.toList ++ l.next.toList
  | _ => []

/-- Lines lack a text only because of what they show, if each of them does. -/
theorem firstFault_flatMap (h : ∀ line ∈ lines, firstFault line.pieces = r.overflow? line.shown) :
    firstFault (lines.flatMap Line.pieces) = r.overflow? (lines.flatMap Line.shown) := by
  induction lines with
  | nil => rfl
  | cons line lines ih =>
    have hline := h line List.mem_cons_self
    have hlines := ih fun l hl => h l (List.mem_cons_of_mem line hl)
    rw [List.flatMap_cons, firstFault_append, hline, hlines, List.flatMap_cons,
      Region.overflow?_append]

/-- **The lines of a listing heap lack a text only because of links.** -/
theorem linesOver_fault (hbs : ∀ b ∈ bs, r.IsHeaderOffset b.offset)
    (hline : line ∈ linesOver r m index bs) : firstFault line.pieces = r.overflow? line.shown := by
  induction bs generalizing index with
  | nil =>
    obtain rfl := List.mem_singleton.mp hline
    rfl
  | cons b bs ih =>
    have hoff := hbs b List.mem_cons_self
    have hle : b.offset ≤ r.size := Nat.le_trans (Nat.le_add_right _ _) hoff.2
    have hbare : firstFault (Line.block r index b .bare).pieces = none :=
      firstFault_eq_none_iff.mpr (legible_block hle ⟨_, rfl⟩)
    unfold linesOver at hline
    by_cases hbroken : r.Broken (Strategy.list.minBlock a) b
    · rw [if_pos hbroken] at hline
      rcases List.mem_cons.mp hline with rfl | hline
      · exact hbare
      · obtain rfl := List.mem_singleton.mp hline
        rfl
    · rw [if_neg hbroken] at hline
      rcases List.mem_cons.mp hline with rfl | hline
      · by_cases hall : b.header.Allocated
        · rw [if_pos hall]
          exact hbare
        · rw [if_neg hall]
          exact firstFault_block_links hle _
      · exact ih (fun c hc => hbs c (List.mem_cons_of_mem b hc)) hline

end Snapshot

/-! ## 4. What a listing heap shows -/

open Snapshot

variable {a : Alignment} {r : Region a} {m : Memory} {head : Option Nat} {bs : List (Block a)}

/-- The links of free blocks, up to the first block that cannot be walked past. -/
def Region.linksShown (r : Region a) (m : Memory) : List (Block a) → List Nat
  | [] => []
  | b :: bs =>
    if r.Broken (Strategy.list.minBlock a) b then []
    else if b.header.Allocated then r.linksShown m bs
    else (r.linksAt m b.offset).prev.toList ++ (r.linksAt m b.offset).next.toList ++
      r.linksShown m bs

/-- What a snapshot of a listing heap takes from memory unchecked and shows as an address: the head of
    the list, and the links. -/
def Region.shown (r : Region a) (m : Memory) (head : Option Nat) (bs : List (Block a)) : List Nat :=
  head.toList ++ r.linksShown m bs

/-- The lines of a listing heap show the links of its free blocks. -/
theorem Snapshot.linesOver_shown (r : Region a) (m : Memory) (index : Nat) (bs : List (Block a)) :
    (linesOver r m index bs).flatMap Line.shown = r.linksShown m bs := by
  induction bs generalizing index with
  | nil => rfl
  | cons b bs ih =>
    unfold linesOver Region.linksShown
    by_cases hbroken : r.Broken (Strategy.list.minBlock a) b
    · rw [if_pos hbroken, if_pos hbroken]
      rfl
    · rw [if_neg hbroken, if_neg hbroken, List.flatMap_cons, ih]
      by_cases hall : b.header.Allocated
      · rw [if_pos hall, if_pos hall]
        rfl
      · rw [if_neg hall, if_neg hall]
        rfl

namespace ListHeap

/-- **The snapshot of a listing heap can be made of any memory**, and its lines lack a text only because
    of what they show. -/
theorem exists_lines (r : Region a) (m : Memory) (head : Option Nat) :
    ∃ bs, r.blocks m = .ok bs ∧
      ListHeap.snapshot ⟨some r, head⟩ m =
        .ok (.banner r :: .freeHead r head :: linesOver r m 0 bs) ∧
      ∀ line ∈ (.banner r :: .freeHead r head :: linesOver r m 0 bs : List (Line a)),
        firstFault line.pieces = r.overflow? line.shown := by
  obtain ⟨bs, hblocks, htrail⟩ := r.blocksFrom_trail m 0
  refine ⟨bs, hblocks, ListHeap.snapshot_eq_ok hblocks head, fun line hline => ?_⟩
  rcases List.mem_cons.mp hline with rfl | hline
  · exact firstFault_eq_none_iff.mpr legible_banner
  · rcases List.mem_cons.mp hline with rfl | hline
    · exact firstFault_freeHead
    · exact linesOver_fault (fun b hb => (htrail.bounds hb).2) hline

/-- The first of the pieces that has no text is to show the first link that leads too far. -/
theorem exists_pieces (hblocks : r.blocks m = .ok bs) (head : Option Nat) :
    ∃ lines, ListHeap.snapshot ⟨some r, head⟩ m = .ok lines ∧
      firstFault (lines.flatMap Line.pieces) = r.overflow? (r.shown m head bs) := by
  obtain ⟨bs', hblocks', hsnapshot, hfault⟩ := exists_lines r m head
  obtain rfl : bs' = bs := Except.ok.inj (hblocks'.symm.trans hblocks)
  refine ⟨_, hsnapshot, ?_⟩
  rw [firstFault_flatMap hfault, List.flatMap_cons, List.flatMap_cons, linesOver_shown]
  rfl

/-- What a writer comes to is decided by the links that are shown. -/
theorem dump_eq_error (hblocks : r.blocks m = .ok bs) {room : Option Nat} {e : Fault}
    (h : (Heap.list ⟨some r, head⟩).dump m room = .error e) :
    r.overflow? (r.shown m head bs) = some e := by
  obtain ⟨lines, hlines, hfault⟩ := exists_pieces hblocks head
  have hsnapshot : (Heap.list ⟨some r, head⟩).snapshot m = .ok lines := hlines
  simp only [Heap.dump, hsnapshot, bind, Except.bind] at h
  exact hfault.symm.trans (firstFault_of_write h)

/-- A writer with room for all comes to the first link that has no address. -/
theorem dump_of_overflow (hblocks : r.blocks m = .ok bs) {e : Fault}
    (h : r.overflow? (r.shown m head bs) = some e) :
    (Heap.list ⟨some r, head⟩).dump m none = .error e := by
  obtain ⟨lines, hlines, hfault⟩ := exists_pieces hblocks head
  have hsnapshot : (Heap.list ⟨some r, head⟩).snapshot m = .ok lines := hlines
  simp only [Heap.dump, hsnapshot, bind, Except.bind]
  exact write_of_firstFault (hfault.trans h)

/-- **When the snapshot of a listing heap can be written**, on any memory and with any head of the
    list. The end of the region and the headers of the walk have their addresses, which are the sums
    with the start of the region. All that can be missing is the address of a link that is shown, raw
    as it lies in memory: every writer is served exactly if each of them has its address, and else
    the first without one is the overflow that a writer with room for all ends in. Nothing else goes
    wrong. -/
theorem dump_reaches (r : Region a) (m : Memory) (head : Option Nat) :
    ∃ bs, r.blocks m = .ok bs ∧ r.address r.size = .ok (r.base + r.size) ∧
      (∀ b ∈ bs, r.address b.offset = .ok (r.base + b.offset)) ∧
      ((∀ room, ∃ w, (Heap.list ⟨some r, head⟩).dump m room = .ok w) ↔
        ∀ x ∈ r.shown m head bs, r.address x = .ok (r.base + x)) ∧
      ∀ room e, (Heap.list ⟨some r, head⟩).dump m room = .error e →
        ∃ x, (r.shown m head bs).find? (fun x => Word.limit ≤ r.base + x) = some x ∧
          e = .overflow r.base x ∧ (Heap.list ⟨some r, head⟩).dump m none = .error e := by
  obtain ⟨bs, hblocks, htrail⟩ := r.blocksFrom_trail m 0
  refine ⟨bs, hblocks, address_eq (Nat.le_refl _), fun b hb => ?_,
    ⟨fun hdump => ?_, fun hreach room => ?_⟩, fun room e he => ?_⟩
  · exact address_eq (Nat.le_trans (Nat.le_add_right _ _) (htrail.bounds hb).2.2)
  · refine Region.overflow?_eq_none_iff_address.mp
      (Option.eq_none_iff_forall_ne_some.mpr fun e he => ?_)
    obtain ⟨w, hw⟩ := hdump none
    exact nomatch hw.symm.trans (dump_of_overflow hblocks he)
  · cases hdump : (Heap.list ⟨some r, head⟩).dump m room with
    | ok w => exact ⟨w, rfl⟩
    | error e =>
      have hnone := Region.overflow?_eq_none_iff_address.mpr hreach
      exact nomatch hnone.symm.trans (dump_eq_error hblocks hdump)
  · have hsome := dump_eq_error hblocks he
    obtain ⟨x, hx, rfl⟩ := Option.map_eq_some_iff.mp hsome
    exact ⟨x, hx, rfl, dump_of_overflow hblocks hsome⟩

/-- Twenty-four bytes, in one block. -/
def loneRegion : Region .eight :=
  ⟨35184372088832, 24, rfl, rfl, by decide⟩

/-- The block is free; as the block behind it in the list it names the last word but one. -/
def loneMemory : Memory :=
  (Memory.blank 0 0 0).writeBytes 35184372088832
    ([24, Links.nil, 18446744073709551614].flatMap (Word.toBytes Word.size))

/-- **A heap that cannot be shown**: its list is damaged in a single word, and the snapshot ends in an
    overflow. -/
theorem dump_overflows :
    (Heap.list ⟨some loneRegion, some 0⟩).dump loneMemory none =
      .error (.overflow 35184372088832 18446744073709551614) := by
  have hblocks : loneRegion.blocks loneMemory = .ok [⟨0, ⟨24⟩⟩] := by decide +kernel
  exact dump_of_overflow hblocks (by decide +kernel)

end ListHeap

end RegionHeap
