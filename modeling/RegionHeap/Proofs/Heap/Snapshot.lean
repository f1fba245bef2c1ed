import RegionHeap.Proofs.FreeList.Audited
import RegionHeap.Proofs.Heap.Listing
import RegionHeap.Proofs.Heap.Scanning
import RegionHeap.Proofs.Layout.Offence
import RegionHeap.Snapshot.Basic

/-!
# Snapshots of heaps that hold a plan

A snapshot comes past every block of the plan and ends with the last line. A line has a text if all
addresses in it are words, and the offsets of a plan all lie in the region.

* `Laid.scanLines_eq`, `Laid.listLines_eq` -- the lines that show a layout;
* `Line.Legible` -- every piece of a line has a text;
* `ScanHeap.Shows.dump`, `ListHeap.Shows.dump` -- the snapshot is written, whatever room there is.
-/

namespace RegionHeap

/-- The addresses of a region are words. -/
theorem Region.address_lt {a : Alignment} (r : Region a) {off : Nat} (h : off ≤ r.size) :
    r.base + off < Word.limit :=
  Nat.lt_of_le_of_lt (Nat.add_le_add_left h r.base) r.base_add_size_lt

namespace Snapshot

variable {a : Alignment} {r : Region a} {m : Memory} {s : Strategy} {c : Cell} {cs rest : List Cell}
  {index off : Nat} {line : Line a} {pieces : List Piece}

/-! ## 1. The lines of a layout -/

/-- **The test of a snapshot and the one of the audit agree**: a block is corrupt if it is broken. -/
theorem isCorrupt_eq {min : Nat} {b : Block a} (hoff : r.IsHeaderOffset b.offset) :
    isCorrupt r min b = .ok (decide (r.Broken min b)) := by
  have hend := hoff.2
  unfold isCorrupt
  by_cases hlook : b.size < min ∨ b.header.Reserved
  · have hbroken : r.Broken min b := hlook.elim (fun hsize => .inr (.inl hsize)) .inl
    rw [if_pos hlook, decide_eq_true hbroken]
    rfl
  · obtain ⟨hsize, hres⟩ := not_or.mp hlook
    have hbroken : r.Broken min b ↔ r.size - b.offset < b.size := by
      unfold Region.Broken Block.next
      constructor
      · intro h
        have hover := (h.resolve_left hres).resolve_left hsize
        omega
      · intro h
        exact .inr (.inr (by omega))
    simp only [hlook, hbroken, Region.room_eq_ok hoff, if_false, bind, Except.bind, pure,
      Except.pure]

/-- No block of a layout is corrupt. -/
theorem isCorrupt_of_laid (h : r.Laid s m cs) (hc : c ∈ cs) :
    isCorrupt r (s.minBlock a) (c.block a) = .ok false := by
  have hb := h.bounds hc
  have hsize : (c.block a).size = c.size := Cell.header_size hb.size_mod
  have hsound : ¬ r.Broken (s.minBlock a) (c.block a) := by
    unfold Region.Broken
    rw [Cell.block_next hb.size_mod, hsize]
    have hmin := hb.min_le
    have hend := hb.next_le
    exact not_or.mpr ⟨Cell.header_not_reserved, by omega⟩
  rw [isCorrupt_eq (h.isHeaderOffset hc), decide_eq_false hsound]

/-- The first payload bytes of a cell. -/
def previewOf (r : Region a) (m : Memory) (c : Cell) : Line a :=
  let shown := m.readBytes (c.payload r) (min (c.size - a.bytes) previewLength)
  .preview shown (decide (shown.length < c.size - a.bytes))

/-- The lines of a scanning heap, from the cell with the given number on. -/
def cellPreviews (r : Region a) (m : Memory) : (index : Nat) → List Cell → List (Line a)
  | _, [] => [.finish]
  | index, c :: cs =>
    .block r index (c.block a) .extent :: previewOf r m c :: cellPreviews r m (index + 1) cs

/-- The lines of a listing heap with the given links, from the cell with the given number on. -/
def cellLinks (r : Region a) (links : Nat → Links) : (index : Nat) → List Cell → List (Line a)
  | _, [] => [.finish]
  | index, c :: cs =>
    .block r index (c.block a) (if c.used then .bare else .links (links c.offset)) ::
      cellLinks r links (index + 1) cs

theorem preview_eq (h : r.Laid .scan m cs) (hc : c ∈ cs) :
    preview r m (c.block a) = .ok [previewOf r m c] := by
  have hb := h.bounds hc
  have hsize : (c.block a).size = c.size := Cell.header_size hb.size_mod
  have hmin : Strategy.scan.minBlock a = a.bytes + a.bytes := rfl
  have hpos := a.bytes_pos
  have hle := hb.min_le
  have hend := hb.next_le
  unfold Cell.next at hend
  have hlarge : ¬ c.size ≤ a.bytes := by omega
  have hroom : min c.size (r.size - c.offset) = c.size := by omega
  have hfit : c.offset + a.bytes + min (c.size - a.bytes) previewLength ≤ r.size := by omega
  have hshown : r.bytes m (c.offset + a.bytes) (min (c.size - a.bytes) previewLength) =
      .ok (m.readBytes (c.payload r) (min (c.size - a.bytes) previewLength)) := by
    rw [Region.bytes, if_pos hfit, Cell.payload, Nat.add_assoc]
  have hoff : (c.block a).offset = c.offset := rfl
  unfold preview
  simp only [hsize, hoff, hlarge, Region.room_eq_ok (h.isHeaderOffset hc), hroom, hshown, if_false,
    bind, Except.bind, pure, Except.pure]
  rfl

/-- **A scanning heap shows every cell of its layout**, each with its first payload bytes. -/
theorem scanLines_eq (h : r.Laid .scan m cs) (hsub : ∀ c ∈ rest, c ∈ cs) :
    scanLines r m index (rest.map (Cell.block a)) = .ok (cellPreviews r m index rest) := by
  induction rest generalizing index with
  | nil => rfl
  | cons c rest ih =>
    have hc := hsub c List.mem_cons_self
    have ih := @ih (index + 1) fun d hd => hsub d (List.mem_cons_of_mem c hd)
    rw [List.map_cons, scanLines]
    simp only [preview_eq h hc, isCorrupt_of_laid h hc, ih, bind, Except.bind, pure, Except.pure]
    rfl

/-- **A listing heap shows every cell of its layout**, the free ones with their links. -/
theorem listLines_eq (h : r.Laid .list m cs) (hsub : ∀ c ∈ rest, c ∈ cs) :
    listLines r m index (rest.map (Cell.block a)) =
      .ok (cellLinks r (r.linksAt m) index rest) := by
  induction rest generalizing index with
  | nil => rfl
  | cons c rest ih =>
    have hc := hsub c List.mem_cons_self
    have ih := @ih (index + 1) fun d hd => hsub d (List.mem_cons_of_mem c hd)
    have hoff : (c.block a).offset = c.offset := rfl
    rw [List.map_cons, listLines, cellLinks]
    cases hu : c.used with
    | true =>
      have halloc : (c.block a).header.Allocated := Cell.header_allocated.mpr hu
      simp only [isCorrupt_of_laid h hc, ih, halloc, bind, Except.bind, pure, Except.pure, if_true]
      rfl
    | false =>
      have hfree : ¬ (c.block a).header.Allocated := by
        simp [Cell.block, hu]
      have hnode := (Region.nodes_of_vacant h.tiled (S := [c.offset]) fun x hx => by
        rw [List.mem_singleton.mp hx]
        exact mem_vacant.mpr ⟨c, hc, hu, rfl⟩).fits c.offset (List.mem_singleton_self _)
      simp only [isCorrupt_of_laid h hc, ih, hfree, hoff, hnode.links_eq, Functor.map, Except.map,
        bind, Except.bind, pure, Except.pure, if_false, Bool.false_eq_true]

/-! ## 2. Legible lines -/

/-- Every piece of the line has a text. -/
def Line.Legible (line : Line a) : Prop :=
  ∀ piece ∈ line.pieces, ∃ text, piece = .ok text

theorem address_eq (h : off ≤ r.size) : r.address off = .ok (r.base + off) :=
  Word.add_eq_ok (r.address_lt h)

theorem legible_banner : (Line.banner r).Legible := by
  intro piece hp
  rw [List.mem_singleton.mp hp]
  exact ⟨_, by simp only [address_eq (Nat.zero_le r.size), address_eq (Nat.le_refl r.size)]; rfl⟩

theorem legible_freeHead {head : Option Nat} (h : ∀ x ∈ head, r.base + x < Word.limit) :
    (Line.freeHead r head).Legible := by
  intro piece hp
  rw [List.mem_singleton.mp hp]
  cases head with
  | none => exact ⟨_, rfl⟩
  | some x => exact ⟨_, by simp only [Region.address, Word.add_eq_ok (h x rfl)]; rfl⟩

/-- The links of a block are shown if they lead to addresses. -/
theorem linksText_ok {l : Links} (hprev : ∀ x ∈ l.prev, r.base + x < Word.limit)
    (hnext : ∀ x ∈ l.next, r.base + x < Word.limit) : ∃ text, linksText r l = .ok text := by
  have hmap : ∀ x? : Option Nat, (∀ x ∈ x?, r.base + x < Word.limit) →
      ∃ y?, x?.mapM r.address = .ok y? := by
    intro x? hx
    cases x? with
    | none => exact ⟨_, rfl⟩
    | some x => exact ⟨_, by rw [Option.mapM_some, Region.address, Word.add_eq_ok (hx x rfl)]; rfl⟩
  obtain ⟨prev, hprev⟩ := hmap l.prev hprev
  obtain ⟨next, hnext⟩ := hmap l.next hnext
  exact ⟨_, by simp only [linksText, hprev, hnext]; rfl⟩

/-- A line that describes a block is legible if its note is. -/
theorem legible_block {b : Block a} {note : Note} (hb : b.offset ≤ r.size)
    (hnote : ∃ text, noteText r b note = .ok text) : (Line.block r index b note).Legible := by
  intro piece hp
  rcases List.mem_cons.mp hp with rfl | hp
  · exact ⟨_, by simp only [blockText, address_eq hb]; rfl⟩
  · rw [List.mem_singleton.mp hp]
    exact hnote

theorem legible_finish : (Line.finish : Line a).Legible := by
  intro piece hp
  rw [List.mem_singleton.mp hp]
  exact ⟨_, rfl⟩

/-- The lines of a scanning heap are legible. -/
theorem legible_cellPreviews (hcs : ∀ c ∈ cs, c.offset ≤ r.size)
    (hline : line ∈ cellPreviews r m index cs) : line.Legible := by
  induction cs generalizing index with
  | nil =>
    rw [List.mem_singleton.mp hline]
    exact legible_finish
  | cons c cs ih =>
    have hc := hcs c List.mem_cons_self
    rcases List.mem_cons.mp hline with rfl | hline
    · exact legible_block hc ⟨_, by simp only [noteText, Cell.block, address_eq hc]; rfl⟩
    · rcases List.mem_cons.mp hline with rfl | hline
      · intro piece hp
        rw [List.mem_singleton.mp hp]
        exact ⟨_, rfl⟩
      · exact ih (fun d hd => hcs d (List.mem_cons_of_mem c hd)) hline

/-- The lines of a listing heap are legible if all links lead into the region. -/
theorem legible_cellLinks {links : Nat → Links} (hcs : ∀ c ∈ cs, c.offset ≤ r.size)
    (hlinks : ∀ c ∈ cs, c.used = false →
      (∀ x ∈ (links c.offset).prev, x ≤ r.size) ∧ ∀ x ∈ (links c.offset).next, x ≤ r.size)
    (hline : line ∈ cellLinks r links index cs) : line.Legible := by
  induction cs generalizing index with
  | nil =>
    rw [List.mem_singleton.mp hline]
    exact legible_finish
  | cons c cs ih =>
    rcases List.mem_cons.mp hline with rfl | hline
    · refine legible_block (hcs c List.mem_cons_self) ?_
      cases hu : c.used with
      | true => exact ⟨_, rfl⟩
      | false =>
        obtain ⟨hprev, hnext⟩ := hlinks c List.mem_cons_self hu
        obtain ⟨text, htext⟩ := linksText_ok (fun x hx => r.address_lt (hprev x hx))
          fun x hx => r.address_lt (hnext x hx)
        exact ⟨_, by simp only [Bool.false_eq_true, if_false, noteText, htext]; rfl⟩
    · exact ih (fun d hd => hcs d (List.mem_cons_of_mem c hd))
        (fun d hd => hlinks d (List.mem_cons_of_mem c hd)) hline

/-- **A writer takes what it has room for** when all pieces have a text. -/
theorem write_ok (h : ∀ piece ∈ pieces, ∃ text, piece = .ok text) (room : Option Nat)
    (taken : String) : ∃ w, write room taken pieces = .ok w := by
  induction pieces generalizing room taken with
  | nil => exact ⟨_, rfl⟩
  | cons piece rest ih =>
    obtain ⟨text, rfl⟩ := h piece List.mem_cons_self
    have ih := ih fun p hp => h p (List.mem_cons_of_mem _ hp)
    cases room with
    | none => exact ih none (taken ++ text)
    | some n =>
      by_cases hfit : text.length ≤ n
      · obtain ⟨w, hw⟩ := ih (some (n - text.length)) (taken ++ text)
        exact ⟨w, (if_pos hfit).trans hw⟩
      · exact ⟨_, if_neg hfit⟩

/-- A snapshot with legible lines is written. -/
theorem dump_ok {h : Heap a} {lines : List (Line a)} (hlines : h.snapshot m = .ok lines)
    (hlegible : ∀ line ∈ lines, line.Legible) (room : Option Nat) : ∃ w, h.dump m room = .ok w := by
  have hpieces : ∀ piece ∈ lines.flatMap Line.pieces, ∃ text, piece = .ok text := by
    intro piece hp
    obtain ⟨line, hline, hp⟩ := List.mem_flatMap.mp hp
    exact hlegible line hline piece hp
  obtain ⟨w, hw⟩ := write_ok hpieces room ""
  refine ⟨w, ?_⟩
  simp only [Heap.dump, hlines, bind, Except.bind]
  exact hw

end Snapshot

open Snapshot

variable {a : Alignment} {r : Region a} {m : Memory} {p : Plan}

/-- No cell begins behind the end of the region. -/
theorem Region.Laid.offset_le {s : Strategy} {cs : List Cell} {c : Cell} (h : r.Laid s m cs)
    (hc : c ∈ cs) : c.offset ≤ r.size :=
  Nat.le_trans (Nat.le_add_right _ _) (h.isHeaderOffset hc).2

/-! ## 3. The two heaps -/

theorem ScanHeap.Shows.dump {h : ScanHeap a} (hs : ScanHeap.Shows r h m p) (room : Option Nat) :
    ∃ w, (Heap.scan h).dump m room = .ok w := by
  have hlines : (Heap.scan h).snapshot m = .ok (.banner r :: cellPreviews r m 0 p.cells) := by
    show h.snapshot m = _
    unfold ScanHeap.snapshot
    simp only [hs.region_eq, hs.laid.blocks_eq, scanLines_eq hs.laid fun _ hc => hc, bind,
      Except.bind]
    rfl
  refine dump_ok hlines (fun line hline => ?_) room
  rcases List.mem_cons.mp hline with rfl | hline
  · exact legible_banner
  · exact legible_cellPreviews (fun c hc => hs.laid.offset_le hc) hline

/-- The snapshot of a listing heap shows its cells, the free ones with their links. -/
theorem ListHeap.Shows.snapshot_eq {h : ListHeap a} (hs : ListHeap.Shows r h m p) :
    (Heap.list h).snapshot m =
      .ok (.banner r :: .freeHead r h.head :: cellLinks r (r.linksAt m) 0 p.cells) := by
  show h.snapshot m = _
  unfold ListHeap.snapshot
  simp only [hs.region_eq, hs.drawn.laid.blocks_eq, listLines_eq hs.drawn.laid fun _ hc => hc, bind,
    Except.bind]
  rfl

/-- The links of a free cell are its neighbours in the list. -/
theorem ListHeap.Shows.linksAt_eq {h : ListHeap a} {c : Cell} (hs : ListHeap.Shows r h m p)
    (hc : c ∈ p.cells) (hfree : c.used = false) :
    ∃ pre post, p.order = pre ++ c.offset :: post ∧
      r.linksAt m c.offset = ⟨pre.getLast?, post.head?⟩ := by
  obtain ⟨pre, post, horder⟩ := List.append_of_mem (hs.settled.mem_order hc hfree)
  have hlinked := hs.drawn.linked
  rw [horder] at hlinked
  exact ⟨pre, post, horder, hlinked.links_eq⟩

theorem ListHeap.Shows.dump {h : ListHeap a} (hs : ListHeap.Shows r h m p) (room : Option Nat) :
    ∃ w, (Heap.list h).dump m room = .ok w := by
  have hlaid := hs.drawn.laid
  have hin : ∀ x ∈ p.order, x ≤ r.size := by
    intro x hx
    obtain ⟨c, hc, -, rfl⟩ := mem_vacant.mp (hs.drawn.listed x hx)
    exact hlaid.offset_le hc
  refine dump_ok hs.snapshot_eq (fun line hline => ?_) room
  rcases List.mem_cons.mp hline with rfl | hline
  · exact legible_banner
  · rcases List.mem_cons.mp hline with rfl | hline
    · exact legible_freeHead fun x hx =>
        r.address_lt (hin x (List.mem_of_mem_head? (hs.drawn.head_eq ▸ hx)))
    · refine legible_cellLinks (fun c hc => hlaid.offset_le hc) (fun c hc hfree => ?_) hline
      obtain ⟨pre, post, horder, hlinks⟩ := hs.linksAt_eq hc hfree
      rw [horder] at hin
      rw [hlinks]
      refine ⟨fun x hx => hin x ?_, fun x hx => hin x ?_⟩
      · exact List.mem_append_left _ (List.mem_of_mem_getLast? hx)
      · exact List.mem_append_right _ (List.mem_cons_of_mem _ (List.mem_of_mem_head? hx))

end RegionHeap
