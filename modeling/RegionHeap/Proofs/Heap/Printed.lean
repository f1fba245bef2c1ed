import Mathlib.Data.Set.List
import RegionHeap.Proofs.Heap.Reach

/-!
# What is written of a snapshot

The lines of a snapshot are handed to a writer in pieces, and a piece that has no text ends the
writing. A scanning heap has a text for every line, so its snapshot is written over any memory. A
listing heap has one as long as what it shows has an address; else its snapshot is cut off in front of
the first link without one, and nothing of the blocks behind is written, the one that the audit names
included.

* `write_texts`, `write_room`, `write_full` -- a writer before pieces that all have a text;
* `texts_of_firstFault`, `line_of_firstFault` -- the pieces and lines in front of the first fault;
* `CutOff`, `Printed` -- a snapshot that ends early, and what becomes of a snapshot on any memory;
* `breaks_off_at_defect` -- the snapshots of both heaps next to what their validations say;
* `ListHeap.defect_not_shown` -- a block that the audit names and the snapshot does not come to.
-/

namespace RegionHeap

namespace Snapshot

variable {a : Alignment} {r : Region a} {m : Memory} {h : Heap a} {lines : List (Line a)}
  {texts : List String} {pieces rest : List Piece} {taken : String} {n x : Nat} {e : Fault}

/-! ## 1. Pieces with a text -/

/-- A writer with room for all takes texts as they come. -/
theorem write_texts (texts : List String) (taken : String) (rest : List Piece) :
    write none taken (texts.map .ok ++ rest) = write none (taken ++ String.join texts) rest := by
  induction texts generalizing taken with
  | nil => rw [String.join_nil, String.append_empty, List.map_nil, List.nil_append]
  | cons text texts ih =>
    rw [String.join_cons, ← String.append_assoc]
    exact ih (taken ++ text)

/-- A writer that has room for some texts takes them and has that much less. -/
theorem write_room (hfit : (String.join texts).length ≤ n) :
    write (some n) taken (texts.map .ok ++ rest) =
      write (some (n - (String.join texts).length)) (taken ++ String.join texts) rest := by
  induction texts generalizing n taken with
  | nil => rw [String.join_nil, String.append_empty, List.map_nil, List.nil_append]; rfl
  | cons text texts ih =>
    rw [String.join_cons, String.length_append] at hfit ⊢
    have htext : text.length ≤ n := by omega
    rw [← String.append_assoc, ← Nat.sub_sub]
    exact (if_pos htext).trans (ih (by omega))

/-- **A writer that has no room for some texts is full before their end**, whatever comes after. -/
theorem write_full (hfull : n < (String.join texts).length) :
    write (some n) taken (texts.map .ok ++ rest) =
      .ok ⟨taken ++ String.ofList ((String.join texts).toList.take n), false⟩ := by
  induction texts generalizing n taken with
  | nil => exact absurd hfull (Nat.not_lt_zero n)
  | cons text texts ih =>
    rw [String.join_cons, String.length_append] at hfull
    rw [String.join_cons, String.toList_append, List.take_append, String.length_toList]
    by_cases htext : text.length ≤ n
    · -- the first text fits, and what is left of the room is too little for the others
      have hall : text.toList.take n = text.toList :=
        List.take_of_length_le (String.length_toList ▸ htext)
      rw [hall, String.ofList_append, String.ofList_toList, ← String.append_assoc]
      exact (if_pos htext).trans (ih (by omega))
    · have hnone : n - text.length = 0 := by omega
      rw [hnone, List.take_zero, List.append_nil]
      exact if_neg htext

/-! ## 2. In front of the first fault -/

/-- Pieces without a fault are texts. -/
theorem texts_of_no_fault (hnone : firstFault pieces = none) :
    ∃ texts : List String, pieces = texts.map .ok := by
  have hrange : pieces ∈ Set.range (List.map Except.ok) := by
    rw [Set.range_list_map]
    intro piece hp
    obtain ⟨text, rfl⟩ := firstFault_eq_none_iff.mp hnone piece hp
    exact ⟨text, rfl⟩
  obtain ⟨texts, rfl⟩ := hrange
  exact ⟨texts, rfl⟩

/-- The pieces in front of the first fault all have a text. -/
theorem texts_of_firstFault (he : firstFault pieces = some e) :
    ∃ (texts : List String) (rest : List Piece), pieces = texts.map .ok ++ .error e :: rest := by
  obtain ⟨before, piece, rest, rfl, hpiece, hbefore⟩ := List.findSome?_eq_some_iff.mp he
  obtain ⟨texts, rfl⟩ := texts_of_no_fault (List.findSome?_eq_none_iff.mpr hbefore)
  cases piece with
  | ok text => cases hpiece
  | error f =>
    obtain rfl : f = e := Option.some.inj hpiece
    exact ⟨texts, rest, rfl⟩

/-- The first fault belongs to one line, and all lines in front of that one have a text. -/
theorem line_of_firstFault (he : firstFault (lines.flatMap Line.pieces) = some e) :
    ∃ before line after, lines = before ++ line :: after ∧ (∀ l ∈ before, l.Legible) ∧
      firstFault line.pieces = some e := by
  induction lines with
  | nil => cases he
  | cons line lines ih =>
    rw [List.flatMap_cons, firstFault_append] at he
    cases hline : firstFault line.pieces with
    | some f =>
      rw [hline, Option.some_or] at he
      obtain rfl : f = e := Option.some.inj he
      exact ⟨[], line, lines, rfl, nofun, hline⟩
    | none =>
      rw [hline, Option.none_or] at he
      obtain ⟨before, cut, after, rfl, hbefore, hcut⟩ := ih he
      refine ⟨line :: before, cut, after, rfl, fun l hl => ?_, hcut⟩
      rcases List.mem_cons.mp hl with rfl | hl
      · exact firstFault_eq_none_iff.mp hline
      · exact hbefore l hl

/-! ## 3. Snapshots on any memory -/

/-- A writer with room for all takes the text of every line. -/
theorem dump_texts (hlines : h.snapshot m = .ok lines)
    (htexts : lines.flatMap Line.pieces = texts.map .ok) :
    h.dump m none = .ok ⟨String.join texts, true⟩ := by
  have hwrite := write_texts texts "" []
  rw [List.append_nil, String.empty_append] at hwrite
  simp only [Heap.dump, hlines, htexts, bind, Except.bind]
  exact hwrite

/-- **A snapshot is cut off** where it is to show an offset that has no address. The lines in front of
    that one have their texts. What was made until then reaches every writer as far as it has room,
    and a writer that takes all of it is left with an overflow. -/
structure CutOff (r : Region a) (h : Heap a) (m : Memory) (lines : List (Line a)) (x : Nat) :
    Prop where
  line : ∃ before line after, lines = before ++ line :: after ∧ (∀ l ∈ before, l.Legible) ∧
    x ∈ line.shown
  writes : ∃ (texts : List String) (rest : List Piece),
    lines.flatMap Line.pieces = texts.map .ok ++ .error (.overflow r.base x) :: rest ∧
    (∀ n, n < (String.join texts).length →
      h.dump m (some n) = .ok ⟨String.ofList ((String.join texts).toList.take n), false⟩) ∧
    (∀ n, (String.join texts).length ≤ n →
      h.dump m (some n) = .error (.overflow r.base x)) ∧
    h.dump m none = .error (.overflow r.base x)

/-- What becomes of the lines of a snapshot. All of them are written if what they show has an address,
    and else the first offset without one cuts them off. -/
structure Printed (r : Region a) (h : Heap a) (m : Memory) (lines : List (Line a)) : Prop where
  snapshot_eq : h.snapshot m = .ok lines
  whole : (∀ x ∈ lines.flatMap Line.shown, r.base + x < Word.limit) →
    ∃ texts : List String, lines.flatMap Line.pieces = texts.map .ok ∧
      h.dump m none = .ok ⟨String.join texts, true⟩
  cut : ∀ x, (lines.flatMap Line.shown).find? (fun x => Word.limit ≤ r.base + x) = some x →
    CutOff r h m lines x

/-- Lines are cut off at the first fault that comes from what they show. -/
theorem cutOff_of_fault (hlines : h.snapshot m = .ok lines)
    (hfault : ∀ line ∈ lines, firstFault line.pieces = r.overflow? line.shown)
    (he : firstFault (lines.flatMap Line.pieces) = some (.overflow r.base x)) :
    CutOff r h m lines x := by
  constructor
  · obtain ⟨before, line, after, rfl, hbefore, hline⟩ := line_of_firstFault he
    rw [hfault line (List.mem_append_right _ List.mem_cons_self)] at hline
    obtain ⟨y, hy, hxy⟩ := Option.map_eq_some_iff.mp hline
    obtain rfl : y = x := (Fault.overflow.inj hxy).2
    exact ⟨before, line, after, rfl, hbefore, List.mem_of_find?_eq_some hy⟩
  · obtain ⟨texts, rest, htexts⟩ := texts_of_firstFault he
    have hdump : ∀ room, h.dump m room =
        write room "" (texts.map .ok ++ .error (.overflow r.base x) :: rest) := by
      intro room
      simp only [Heap.dump, hlines, htexts, bind, Except.bind]
    refine ⟨texts, rest, htexts, fun n hn => ?_, fun n hn => ?_, ?_⟩
    · rw [hdump, write_full hn, String.empty_append]
    · rw [hdump, write_room hn]
      rfl
    · rw [hdump, write_texts]
      rfl

/-- **Lines that lack a text only because of what they show are printed** up to the first offset that
    has no address. -/
theorem printed_of_fault (hlines : h.snapshot m = .ok lines)
    (hfault : ∀ line ∈ lines, firstFault line.pieces = r.overflow? line.shown) :
    Printed r h m lines := by
  have hfirst := firstFault_flatMap hfault
  refine ⟨hlines, fun hreach => ?_, fun x hx => cutOff_of_fault hlines hfault ?_⟩
  · obtain ⟨texts, htexts⟩ :=
      texts_of_no_fault (hfirst.trans (Region.overflow?_eq_none_iff.mpr hreach))
    exact ⟨texts, htexts, dump_texts hlines htexts⟩
  · rw [hfirst, Region.overflow?, hx]
    rfl

end Snapshot

/-! ## 4. The two heaps -/

open Snapshot

variable {a : Alignment}

/-- A scanning heap shows any memory, as far as the audit of its blocks goes through. -/
theorem ScanHeap.exists_lines (r : Region a) (m : Memory) :
    ∃ lines texts, ScanHeap.snapshot ⟨some r⟩ m = .ok (.banner r :: lines) ∧
      MatchesAudit r m (Strategy.scan.minBlock a) lines ∧
      (.banner r :: lines : List (Line a)).flatMap Line.pieces = List.map Except.ok texts ∧
      (Heap.scan ⟨some r⟩).dump m none = .ok ⟨String.join texts, true⟩ := by
  obtain ⟨bs, hbs, htrail⟩ := r.blocksFrom_trail m 0
  have hblocks : r.blocks m = .ok bs := hbs
  have hoffs : ∀ b ∈ bs, r.IsHeaderOffset b.offset := fun b hb => (htrail.bounds hb).2
  obtain ⟨lines, hlines, hlegible⟩ := @ScanHeap.scanLines_ok a r m bs 0 hoffs
  have hsnapshot : ScanHeap.snapshot ⟨some r⟩ m = .ok (.banner r :: lines) := by
    unfold ScanHeap.snapshot
    simp only [hblocks, hlines, bind, Except.bind]
    rfl
  have hdump : (Heap.scan ⟨some r⟩).snapshot m = .ok (.banner r :: lines) := hsnapshot
  have hnone : firstFault ((.banner r :: lines : List (Line a)).flatMap Line.pieces) = none := by
    refine firstFault_eq_none_iff.mpr fun piece hp => ?_
    obtain ⟨line, hline, hp⟩ := List.mem_flatMap.mp hp
    rcases List.mem_cons.mp hline with rfl | hline
    · exact legible_banner piece hp
    · exact hlegible line hline piece hp
  obtain ⟨texts, htexts⟩ := texts_of_no_fault hnone
  exact ⟨lines, texts, hsnapshot,
    (scanLines_tells hoffs hlines).matchesAudit hblocks Strategy.scan.minBlock_pos, htexts,
    dump_texts hdump htexts⟩

/-- A listing heap has lines for any memory, as far as the audit of its blocks would go through if
    free neighbours were no defect, and they are printed as far as links have addresses. -/
theorem ListHeap.exists_printed (r : Region a) (m : Memory) (head : Option Nat) :
    ∃ lines, Printed r (.list ⟨some r, head⟩) m (.banner r :: .freeHead r head :: lines) ∧
      MatchesAudit r m (Strategy.list.minBlock a) lines := by
  obtain ⟨bs, hblocks, hsnapshot, hfault⟩ := ListHeap.exists_lines r m head
  exact ⟨linesOver r m 0 bs, printed_of_fault hsnapshot hfault,
    (linesOver_tells r m 0 bs).matchesAudit hblocks Strategy.list.minBlock_pos⟩

/-- **A snapshot and the validation of a heap agree on where it breaks**, on any memory. A scanning
    heap is shown up to the last line exactly if the validation finds nothing; a block that the
    validation names is the last one shown, and is said to be corrupt. A listing heap has lines up to
    the block where the audit of the blocks alone would fail, and the validation names that block as
    well or two free neighbours in front of it. The lines describe one block each, in the order of
    the walk. All lines of a scanning heap are written, and all of a listing heap if the head and the
    links in them have addresses; the first that has none cuts the snapshot off. -/
theorem Snapshot.breaks_off_at_defect (r : Region a) (m : Memory) (head : Option Nat) :
    (∃ lines v texts, ScanHeap.snapshot ⟨some r⟩ m = .ok (.banner r :: lines) ∧
      ScanHeap.validate ⟨some r⟩ m = .ok v ∧
      MatchesAudit r m (Strategy.scan.minBlock a) lines ∧
      (lines.getLast? = some .finish ↔ v.result = .ok ()) ∧
      (∀ d, v.result = .error d → ∃ off, d.brokenAt? = some off ∧ StopsAt r lines off) ∧
      (.banner r :: lines : List (Line a)).flatMap Line.pieces = List.map Except.ok texts ∧
      (Heap.scan ⟨some r⟩).dump m none = .ok ⟨String.join texts, true⟩) ∧
    ∃ lines, ListHeap.snapshot ⟨some r, head⟩ m = .ok (.banner r :: .freeHead r head :: lines) ∧
      MatchesAudit r m (Strategy.list.minBlock a) lines ∧
      (∀ d, r.audit m (Strategy.list.minBlock a) false = .ok (.error d) →
        ∃ v, ListHeap.validate ⟨some r, head⟩ m = .ok v ∧
          (v.result = .error d ∨ ∃ first second off,
            v.result = .error (.adjacentFree first second) ∧ d.brokenAt? = some off ∧ second < off)) ∧
      Printed r (.list ⟨some r, head⟩) m (.banner r :: .freeHead r head :: lines) := by
  constructor
  · obtain ⟨lines, texts, hsnapshot, hmatches, htexts, hdump⟩ := ScanHeap.exists_lines r m
    have hvalidate : ∀ {x}, r.audit m (Strategy.scan.minBlock a) false = .ok x →
        ScanHeap.validate ⟨some r⟩ m = .ok (.ofAudit (x.map fun _ => ())) := by
      intro x hx
      unfold ScanHeap.validate
      simp only [hx, bind, Except.bind]
      rfl
    rcases hmatches.ends with hfinish | ⟨off, hstop⟩
    · obtain ⟨k, hk⟩ := hmatches.finish.mp hfinish
      exact ⟨lines, _, texts, hsnapshot, hvalidate hk, hmatches, ⟨fun _ => rfl, fun _ => hfinish⟩,
        nofun, htexts, hdump⟩
    · obtain ⟨d, hd, hat⟩ := (hmatches.stop off).mp hstop
      refine ⟨lines, _, texts, hsnapshot, hvalidate hd, hmatches, ⟨fun hfinish => ?_, nofun⟩,
        fun e he => ?_, htexts, hdump⟩
      · cases hfinish.symm.trans hstop.getLast?
      · obtain rfl : d = e := Except.error.inj he
        exact ⟨off, hat, hstop⟩
  · obtain ⟨lines, hprinted, hmatches⟩ := ListHeap.exists_printed r m head
    refine ⟨lines, hprinted.snapshot_eq, hmatches, fun d hd => ?_, hprinted⟩
    rcases Region.audit_merge Strategy.list.minBlock_pos hd with
      hsame | ⟨first, second, off, hadjacent, hat, hlt⟩
    · exact ⟨_, ListHeap.validate_of_defect rfl (ListHeap.audit_of_blocks hsame), .inl rfl⟩
    · exact ⟨_, ListHeap.validate_of_defect rfl (ListHeap.audit_of_blocks hadjacent),
        .inr ⟨first, second, off, rfl, hat, hlt⟩⟩

/-- Twice the bytes of the lone region. -/
def tornRegion : Region .eight :=
  { ListHeap.loneRegion with size := 48, size_mod := rfl, base_add_size_lt := by decide }

/-- A free block whose link to the next one is the last word but one, and a header of size zero
    behind it. -/
def tornMemory : Memory :=
  (Memory.blank 0 0 0).writeBytes tornRegion.base
    ([24, Links.nil, 18446744073709551614, 0, 0, 0].flatMap (Word.toBytes Word.size))

/-- **A block that the audit names and the snapshot does not come to**: the writing ends in an overflow
    at the free block in front of it. -/
theorem ListHeap.defect_not_shown :
    tornRegion.audit tornMemory (Strategy.list.minBlock .eight) false =
        .ok (.error (.blockTooSmall 24 0)) ∧
      (Heap.list ⟨some tornRegion, some 0⟩).dump tornMemory none =
        .error (.overflow 35184372088832 18446744073709551614) := by
  have hblocks : tornRegion.blocks tornMemory = .ok [⟨0, ⟨24⟩⟩, ⟨24, ⟨0⟩⟩] := by decide +kernel
  exact ⟨by decide +kernel, ListHeap.dump_of_overflow hblocks (by decide +kernel)⟩

end RegionHeap
