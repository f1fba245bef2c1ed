import RegionHeap.Proofs.Heap.Accepted
import RegionHeap.Proofs.Heap.Untrusted

/-!
# Where a snapshot breaks off

A snapshot and the audit look at the same walk, each with a test of its own for the blocks that
cannot be walked past. On any memory the two agree: the lines of a snapshot come to the last line if
the audit goes through, and else break off at the block that the audit names.

* `Line.block?`, `StopsAt` -- the blocks that lines describe, and where lines break off;
* `Tells` -- lines that come past the blocks of a walk, whatever they say of each;
* `linesOver`, `ListHeap.snapshot_eq_ok` -- the lines of a listing heap over any memory;
* `MatchesAudit` -- what lines and the audit of the same memory have to do with one another.
-/

namespace RegionHeap

/-- The blocks up to the first one that cannot be walked past, that one included. -/
def Region.upToBroken {a : Alignment} (r : Region a) (min : Nat) :
    List (Block a) → List (Block a)
  | [] => []
  | b :: bs => if r.Broken min b then [b] else b :: r.upToBroken min bs

namespace Snapshot

variable {a : Alignment} {r : Region a} {m : Memory} {min index off off' : Nat}
  {bs : List (Block a)} {lines : List (Line a)}

/-! ## 1. What lines describe -/

/-- The block that a line describes, with its number. -/
def Line.block? : Line a → Option (Block a × Nat)
  | block _ index b _ => some (b, index)
  | _ => none

/-- The line of a preview, if there is one. -/
def previews : Option (List UInt8 × Bool) → List (Line a)
  | none => []
  | some (bytes, more) => [.preview bytes more]

/-- The last lines describe the block at this offset, perhaps show its payload, and say that it is
    corrupt. -/
def StopsAt (r : Region a) (lines : List (Line a)) (off : Nat) : Prop :=
  ∃ before index b note shown,
    lines = before ++ .block r index b note :: (previews shown ++ [.corrupt]) ∧ b.offset = off

/-- An entry describes one block. -/
theorem filterMap_entry (index : Nat) (b : Block a) (note : Note)
    (shown : Option (List UInt8 × Bool)) (lines : List (Line a)) :
    (.block r index b note :: (previews shown ++ lines)).filterMap Line.block? =
      (b, index) :: lines.filterMap Line.block? := by
  cases shown <;> rfl

theorem StopsAt.getLast? (hstop : StopsAt r lines off) : lines.getLast? = some .corrupt := by
  obtain ⟨before, index, b, note, shown, rfl, -⟩ := hstop
  rw [← List.cons_append, ← List.append_assoc, List.getLast?_concat]

/-- The block where lines break off is the last one that they describe. -/
theorem StopsAt.last_block (hstop : StopsAt r lines off) :
    ((lines.filterMap Line.block?).map fun p => p.1.offset).getLast? = some off := by
  obtain ⟨before, index, b, note, shown, rfl, rfl⟩ := hstop
  rw [List.filterMap_append, filterMap_entry, List.map_append]
  exact List.getLast?_concat

theorem StopsAt.unique (hstop : StopsAt r lines off) (hstop' : StopsAt r lines off') :
    off = off' :=
  Option.some.inj (hstop.last_block.symm.trans hstop'.last_block)

/-! ## 2. Lines that come past the blocks of a walk -/

/-- The lines have an entry for each block of the list, from the given number on, up to the first that
    cannot be walked past. -/
inductive Tells (r : Region a) (min : Nat) : (index : Nat) → List (Block a) → List (Line a) → Prop
  | finish {index : Nat} : Tells r min index [] [.finish]
  | stop {index : Nat} {b : Block a} {bs : List (Block a)} (note : Note)
      (shown : Option (List UInt8 × Bool)) (hb : r.Broken min b) :
      Tells r min index (b :: bs) (.block r index b note :: (previews shown ++ [.corrupt]))
  | next {index : Nat} {b : Block a} {bs : List (Block a)} {lines : List (Line a)} (note : Note)
      (shown : Option (List UInt8 × Bool)) (hb : ¬ r.Broken min b)
      (hrest : Tells r min (index + 1) bs lines) :
      Tells r min index (b :: bs) (.block r index b note :: (previews shown ++ lines))

/-- **One line for each block of the walk**, in order, up to the first that is corrupt. -/
theorem Tells.blocks (htells : Tells r min index bs lines) :
    lines.filterMap Line.block? = (r.upToBroken min bs).zipIdx index := by
  induction htells with
  | finish => rfl
  | stop note shown hb =>
    rw [Region.upToBroken, if_pos hb, filterMap_entry]
    rfl
  | next note shown hb hrest ih =>
    rw [Region.upToBroken, if_neg hb, filterMap_entry, ih, List.zipIdx_cons]

theorem Tells.finishes (htells : Tells r min index bs lines)
    (hsound : ∀ b ∈ bs, ¬ r.Broken min b) : ∃ before, lines = before ++ [.finish] := by
  induction htells with
  | finish => exact ⟨[], rfl⟩
  | stop note shown hb => exact absurd hb (hsound _ List.mem_cons_self)
  | next note shown hb hrest ih =>
    obtain ⟨before, rfl⟩ := ih fun c hc => hsound c (List.mem_cons_of_mem _ hc)
    exact ⟨.block r _ _ note :: (previews shown ++ before), by rw [List.cons_append,
      List.append_assoc]⟩

theorem Tells.stops (htells : Tells r min index bs lines) (hbreak : r.BreaksAt min bs off) :
    StopsAt r lines off := by
  obtain ⟨pre, b, post, rfl, hpre, hb, rfl⟩ := hbreak
  induction pre generalizing index lines with
  | nil =>
    cases htells with
    | stop note shown _ => exact ⟨[], index, b, note, shown, rfl, rfl⟩
    | next note shown hsound _ => exact absurd hb hsound
  | cons c pre ih =>
    have hc := hpre c List.mem_cons_self
    cases htells with
    | stop note shown hbroken => exact absurd hbroken hc
    | next note shown _ hrest =>
      obtain ⟨before, i, b', note', shown', rfl, hoff⟩ :=
        ih hrest fun d hd => hpre d (List.mem_cons_of_mem c hd)
      exact ⟨.block r index c note :: (previews shown ++ before), i, b', note', shown',
        by rw [List.cons_append, List.append_assoc], hoff⟩

/-! ## 3. The lines of the two heaps -/

/-- A preview is one line or none. -/
theorem preview_previews {b : Block a} {lines : List (Line a)}
    (hlines : preview r m b = .ok lines) : ∃ shown, lines = previews shown := by
  unfold preview at hlines
  by_cases hsize : b.size ≤ a.bytes
  · rw [if_pos hsize] at hlines
    obtain rfl : [] = lines := Except.ok.inj hlines
    exact ⟨none, rfl⟩
  · rw [if_neg hsize] at hlines
    simp only [bind, Except.bind, pure, Except.pure] at hlines
    split at hlines
    · cases hlines
    · split at hlines
      · cases hlines
      · obtain rfl := Except.ok.inj hlines
        exact ⟨some (_, _), rfl⟩

/-- The lines of a scanning heap come past the blocks. -/
theorem scanLines_tells (hbs : ∀ b ∈ bs, r.IsHeaderOffset b.offset)
    (hlines : scanLines r m index bs = .ok lines) :
    Tells r (Strategy.scan.minBlock a) index bs lines := by
  induction bs generalizing index lines with
  | nil =>
    obtain rfl := Except.ok.inj hlines
    exact .finish
  | cons b bs ih =>
    have hoff := hbs b List.mem_cons_self
    obtain ⟨shown, hpreview, -⟩ := @ScanHeap.preview_ok a r m b hoff
    obtain ⟨shown?, rfl⟩ := preview_previews hpreview
    unfold scanLines at hlines
    by_cases hbroken : r.Broken (Strategy.scan.minBlock a) b
    · simp only [hpreview, isCorrupt_eq hoff, hbroken, bind, Except.bind, pure, Except.pure,
        decide_true, if_true] at hlines
      obtain rfl := Except.ok.inj hlines
      exact .stop .extent shown? hbroken
    · have hrests := fun c hc => hbs c (List.mem_cons_of_mem b hc)
      obtain ⟨rest, hrest, -⟩ := @ScanHeap.scanLines_ok a r m bs (index + 1) hrests
      simp only [hpreview, isCorrupt_eq hoff, hbroken, hrest, bind, Except.bind, pure, Except.pure,
        decide_false, Bool.false_eq_true, if_false] at hlines
      obtain rfl := Except.ok.inj hlines
      exact .next .extent shown? hbroken (ih hrests hrest)

/-- The lines of a listing heap from the block with the given number on: a free block has its links. -/
def linesOver (r : Region a) (m : Memory) : (index : Nat) → List (Block a) → List (Line a)
  | _, [] => [.finish]
  | index, b :: bs =>
    if r.Broken (Strategy.list.minBlock a) b then [.block r index b .bare, .corrupt]
    else
      .block r index b (if b.header.Allocated then .bare else .links (r.linksAt m b.offset)) ::
        linesOver r m (index + 1) bs

/-- **The lines of a listing heap can be made of any memory.** -/
theorem listLines_eq_ok (hbs : ∀ b ∈ bs, r.IsHeaderOffset b.offset) :
    listLines r m index bs = .ok (linesOver r m index bs) := by
  induction bs generalizing index with
  | nil => rfl
  | cons b bs ih =>
    have hoff := hbs b List.mem_cons_self
    unfold listLines linesOver
    by_cases hbroken : r.Broken (Strategy.list.minBlock a) b
    · simp only [isCorrupt_eq hoff, hbroken, bind, Except.bind, pure, Except.pure, decide_true,
        if_true]
    · have hrest := @ih (index + 1) fun c hc => hbs c (List.mem_cons_of_mem b hc)
      by_cases hall : b.header.Allocated
      · simp only [isCorrupt_eq hoff, hbroken, hall, hrest, bind, Except.bind, pure, Except.pure,
          decide_false, Bool.false_eq_true, if_true, if_false]
      · -- a free block that is not broken has room for its links
        have hnode : r.IsNode b.offset := by
          obtain ⟨hsize, hover⟩ := not_or.mp (not_or.mp hbroken).2
          unfold Block.next at hover
          exact ⟨hoff, by omega⟩
        simp only [isCorrupt_eq hoff, hbroken, hall, hnode.links_eq, hrest, Functor.map, Except.map,
          bind, Except.bind, pure, Except.pure, decide_false, Bool.false_eq_true, if_false]

/-- The lines of a listing heap come past the blocks. -/
theorem linesOver_tells (r : Region a) (m : Memory) (index : Nat) (bs : List (Block a)) :
    Tells r (Strategy.list.minBlock a) index bs (linesOver r m index bs) := by
  induction bs generalizing index with
  | nil => exact .finish
  | cons b bs ih =>
    unfold linesOver
    by_cases hbroken : r.Broken (Strategy.list.minBlock a) b
    · rw [if_pos hbroken]
      exact .stop .bare none hbroken
    · rw [if_neg hbroken]
      exact .next _ none hbroken (ih (index + 1))

/-! ## 4. Lines and audits -/

/-- What the lines of a snapshot have to do with the audit of the same memory: they describe the
    blocks of the walk up to the first broken one, they come to the last line if the audit goes
    through, and they break off at the block that it names. -/
structure MatchesAudit (r : Region a) (m : Memory) (min : Nat) (lines : List (Line a)) : Prop where
  blocks : ∃ bs, r.blocks m = .ok bs ∧
    lines.filterMap Line.block? = (r.upToBroken min bs).zipIdx
  finish : lines.getLast? = some .finish ↔ ∃ k, r.audit m min false = .ok (.ok k)
  stop : ∀ off, StopsAt r lines off ↔
    ∃ d, r.audit m min false = .ok (.error d) ∧ d.brokenAt? = some off
  ends : lines.getLast? = some .finish ∨ ∃ off, StopsAt r lines off

/-- **Lines that come past the blocks of the walk match the audit.** -/
theorem Tells.matchesAudit (htells : Tells r min 0 bs lines) (hbs : r.blocks m = .ok bs)
    (hmin : 0 < min) : MatchesAudit r m min lines := by
  have hblocks : ∃ bs, r.blocks m = .ok bs ∧
      lines.filterMap Line.block? = (r.upToBroken min bs).zipIdx := ⟨bs, hbs, htells.blocks⟩
  obtain ⟨bs', hbs', hverdict⟩ := r.audit_breaks m hmin
  obtain rfl : bs = bs' := Except.ok.inj (hbs.symm.trans hbs')
  rcases hverdict with ⟨⟨k, haudit⟩, hsound⟩ | ⟨d, off, haudit, hat, hbreak⟩
  · obtain ⟨before, rfl⟩ := htells.finishes hsound
    have hlast : (before ++ [.finish] : List (Line a)).getLast? = some .finish :=
      List.getLast?_concat
    refine ⟨hblocks, ⟨fun _ => ⟨k, haudit⟩, fun _ => hlast⟩, fun off => ⟨fun hstop => ?_,
      fun hd => ?_⟩, .inl hlast⟩
    · cases hlast.symm.trans hstop.getLast?
    · obtain ⟨d, hd, -⟩ := hd
      cases haudit.symm.trans hd
  · have hstop := htells.stops hbreak
    refine ⟨hblocks, ⟨fun hlast => ?_, fun hk => ?_⟩, fun off' => ⟨fun hstop' => ?_, fun hd => ?_⟩,
      .inr ⟨off, hstop⟩⟩
    · cases hlast.symm.trans hstop.getLast?
    · obtain ⟨k, hk⟩ := hk
      cases haudit.symm.trans hk
    · obtain rfl := hstop.unique hstop'
      exact ⟨d, haudit, hat⟩
    · obtain ⟨e, he, hat'⟩ := hd
      obtain rfl : d = e := Except.error.inj (Except.ok.inj (haudit.symm.trans he))
      obtain rfl : off = off' := Option.some.inj (hat.symm.trans hat')
      exact hstop

end Snapshot

open Snapshot

/-- The snapshot of a listing heap over any memory. -/
theorem ListHeap.snapshot_eq_ok {a : Alignment} {r : Region a} {m : Memory} {bs : List (Block a)}
    (hblocks : r.blocks m = .ok bs) (head : Option Nat) :
    ListHeap.snapshot ⟨some r, head⟩ m =
      .ok (.banner r :: .freeHead r head :: linesOver r m 0 bs) := by
  obtain ⟨bs', hbs', htrail⟩ := r.blocksFrom_trail m 0
  obtain rfl : bs = bs' := Except.ok.inj (hblocks.symm.trans hbs')
  have hlines := @listLines_eq_ok a r m 0 bs fun b hb => (htrail.bounds hb).2
  unfold ListHeap.snapshot
  simp only [hblocks, hlines, bind, Except.bind]
  rfl

end RegionHeap
