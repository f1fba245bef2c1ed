import RegionHeap.Proofs.Client.World
import RegionHeap.Proofs.Heap.Inspection

/-!
# Looking at a damaged heap

A client that suspects damage can look at a listing heap without making it worse. Whatever lies in the
region and wherever the list begins, the three looks come to an end with every access checked, every
difference exact and nothing changed. Only the sum that is to be shown as the address of a link can
overflow, in a snapshot.

* `Request.Looks` -- the requests that only look;
* `World.Inspected` -- what is known of them on any memory;
* `World.inspected` -- it is known of every memory and every head of the list.
-/

namespace RegionHeap

/-- The request only looks at the heap. -/
inductive Request.Looks : Request → Prop
  | usableSize (addr : Nat) : Looks (.usableSize addr)
  | validate : Looks .validate
  | dump (room : Option Nat) : Looks (.dump room)

namespace World

variable {a : Alignment}

/-- A listing heap over a region with anything in memory, whose list begins anywhere. -/
def listing (r : Region a) (m : Memory) (head : Option Nat) : World a :=
  ⟨.list ⟨some r, head⟩, m⟩

/-- What is known of the looks at a listing heap whose walk comes past the blocks `bs`. An access to a
    word off the grid or outside of the region is a fault, and so are a difference below zero and a
    loop without end; a look that is answered has come to none of them. -/
structure Inspected (r : Region a) (m : Memory) (head : Option Nat) (bs : List (Block a)) :
    Prop where
  /-- The walk ends and comes past these blocks. -/
  walk : r.blocks m = .ok bs
  /-- Their offsets increase. -/
  increasing : bs.Pairwise fun b c => b.offset < c.offset
  /-- There are no more of them than the region has places. -/
  length_le : bs.length ≤ r.size / a.bytes
  /-- Each begins with a word of the region, which holds its header. -/
  headers : ∀ b ∈ bs, r.HasWord b.offset ∧ r.header m b.offset = .ok b.header
  /-- Any address may be asked about, and nothing changes. -/
  usableSize : ∀ addr, ∃ n?,
    (listing r m head).serve (.usableSize addr) = .ok (listing r m head, .usable n?)
  /-- The validation comes to a verdict, and nothing changes. -/
  validate : ∃ v, (listing r m head).serve .validate = .ok (listing r m head, .verdict v)
  /-- All that a snapshot shows can be read. -/
  snapshot : ∃ lines, (listing r m head).heap.snapshot m = .ok lines
  /-- The snapshot is written and nothing changes, or the address of a link that it shows is no
      word. -/
  dump : ∀ room,
    (∃ text, (listing r m head).serve (.dump room) = .ok (listing r m head, .snapshot text)) ∨
      ∃ x ∈ r.shown m head bs, Word.limit ≤ r.base + x ∧
        (listing r m head).serve (.dump room) = .error (.overflow r.base x)
  /-- What lies outside of the region has no say. -/
  confined : ∀ q, q.Looks → ∀ m', r.Alike m m' →
    ((listing r m' head).serve q).map Prod.snd = ((listing r m head).serve q).map Prod.snd
  /-- The differences in the test for a payload are exact. -/
  offsetOf_iff : ∀ addr off,
    r.offsetOf? addr = some off ↔ r.IsHeaderOffset off ∧ addr = r.base + off + a.bytes
  /-- The difference in the test for a node is exact. -/
  isNode_iff : ∀ x, r.IsNode x ↔ x % a.bytes = 0 ∧ x + Strategy.list.minBlock a ≤ r.size

/-- A look gives the same answer on memories that agree on the region. -/
theorem serve_alike {r : Region a} {m m' : Memory} {head : Option Nat} {q : Request}
    (hq : q.Looks) (hm : r.Alike m m') :
    ((listing r m' head).serve q).map Prod.snd = ((listing r m head).serve q).map Prod.snd := by
  have hsnd : ∀ {α : Type} (w : World a) (f : α → Answer a) (x : Except Fault α),
      (x.map fun y => (w, f y)).map Prod.snd = x.map f := fun w f x => by
    cases x with
    | ok _ => rfl
    | error _ => rfl
  cases hq with
  | usableSize addr =>
    have heq : ListHeap.usableSize ⟨some r, head⟩ m' addr =
        ListHeap.usableSize ⟨some r, head⟩ m addr := hm.listUsableSize_eq addr
    exact (hsnd _ _ _).trans ((congrArg _ heq).trans (hsnd _ _ _).symm)
  | validate =>
    have heq : ListHeap.validate ⟨some r, head⟩ m' = ListHeap.validate ⟨some r, head⟩ m :=
      hm.listValidate_eq
    exact (hsnd _ _ _).trans ((congrArg _ heq).trans (hsnd _ _ _).symm)
  | dump room =>
    have heq : (Heap.list ⟨some r, head⟩).dump m' room = (Heap.list ⟨some r, head⟩).dump m room :=
      hm.listDump_eq room
    exact (hsnd _ _ _).trans ((congrArg _ heq).trans (hsnd _ _ _).symm)

/-- A snapshot is written, or a link leads too far. -/
theorem dump_ok_or_overflow {r : Region a} {m : Memory} {bs : List (Block a)}
    (hblocks : r.blocks m = .ok bs) (head room : Option Nat) :
    (∃ text, (listing r m head).serve (.dump room) = .ok (listing r m head, .snapshot text)) ∨
      ∃ x ∈ r.shown m head bs, Word.limit ≤ r.base + x ∧
        (listing r m head).serve (.dump room) = .error (.overflow r.base x) := by
  cases hdump : (Heap.list ⟨some r, head⟩).dump m room with
  | ok text => exact .inl ⟨text, serve_dump hdump⟩
  | error e =>
    obtain ⟨x, hx, rfl⟩ := Option.map_eq_some_iff.mp (ListHeap.dump_eq_error hblocks hdump)
    refine .inr ⟨x, List.mem_of_find?_eq_some hx, by simpa using List.find?_some hx, ?_⟩
    show ((Heap.list ⟨some r, head⟩).dump m room).map _ = _
    rw [hdump]
    rfl

/-- **A listing heap can be looked at whatever has happened to it**: on any memory and with any head
    of the list the walk is in order and short, the looks are answered and change nothing, and all of
    their accesses are in bounds, as far as the addresses of links go that a snapshot shows. -/
theorem inspected (r : Region a) (m : Memory) (head : Option Nat) :
    ∃ bs, Inspected r m head bs := by
  obtain ⟨bs, hblocks, htrail⟩ := r.blocksFrom_trail m 0
  refine ⟨bs, hblocks, htrail.pairwise_offset, htrail.length_le, fun b hb => ?_, fun addr => ?_, ?_,
    ?_, dump_ok_or_overflow hblocks head, fun q hq m' hm => serve_alike hq hm,
    fun _ _ => Region.offsetOf?_eq_some_iff, fun _ => Region.isNode_iff⟩
  · have hword := (htrail.bounds hb).2.hasWord
    rw [htrail.header_eq hb]
    exact ⟨hword, Region.header_eq_ok hword⟩
  · obtain ⟨n?, hn⟩ := ListHeap.usableSize_ok r m head addr
    exact ⟨n?, serve_usableSize hn⟩
  · obtain ⟨v, hv⟩ := (listing r m head).heap.exists_judged m
    exact ⟨v, serve_validate hv.answers⟩
  · obtain ⟨lines, hlines, -⟩ := ListHeap.exists_pieces hblocks head
    exact ⟨lines, hlines⟩

end World

end RegionHeap
