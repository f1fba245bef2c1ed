import RegionHeap.Proofs.Heap.Intact

/-!
# Accepted listing heaps

What the validation of a listing heap accepts, on any memory and with any head of the list. The walk
is checked in full. Of the list it is checked that every node could be a free block and names the
node before it, and the nodes are counted; that a node is a block of the walk is not.

* `Region.Accepted` -- the walk is tidy, and a list of nodes that pass has its length;
* `Accepted.intact_iff` -- what is accepted is intact exactly if each node is a block;
* `ListHeap.validate_eq_ok_iff` -- the validation accepts what is called accepted here;
* `ListHeap.Shows.validate` -- an intact heap passes.
-/

namespace RegionHeap

/-- Every node is the offset of a block. -/
def Block.Names {a : Alignment} (bs : List (Block a)) (nodes : List Nat) : Prop :=
  ∀ x ∈ nodes, ∃ b ∈ bs, b.offset = x

instance {a : Alignment} (bs : List (Block a)) (nodes : List Nat) :
    Decidable (Block.Names bs nodes) :=
  inferInstanceAs (Decidable (∀ x ∈ nodes, ∃ b ∈ bs, b.offset = x))

namespace Region

variable {a : Alignment} {r : Region a} {m : Memory} {head : Option Nat} {bs : List (Block a)}
  {nodes : List Nat} {cs : List Cell}

/-- The walk is tidy, and the list has as many nodes as there are free blocks, each of them once. -/
structure Accepted (r : Region a) (m : Memory) (head : Option Nat) (bs : List (Block a))
    (nodes : List Nat) : Prop extends r.Tidy m bs where
  listed : r.Listed m none head nodes
  nodup : nodes.Nodup
  length_eq : nodes.length = bs.countP fun b => ¬ b.header.Allocated

theorem length_vacant_blocks :
    (vacant (bs.map Block.cell)).length = bs.countP fun b => ¬ b.header.Allocated := by
  rw [length_vacant, List.countP_map]
  refine List.countP_congr fun b _ => ?_
  simp [Block.cell]

theorem Tidy.laid (h : r.Tidy m bs) : r.Laid .list m (bs.map Block.cell) :=
  laid_of_walk h.walk h.contiguous h.wellFormed

/-- What is intact is accepted. -/
theorem Intact.accepted (h : r.Intact m head bs nodes) : r.Accepted m head bs nodes := by
  refine ⟨h.toTidy, h.listed, h.nodup, ?_⟩
  rw [h.drawn.2.2.length_eq, length_vacant_blocks]

/-- A listed node that is a block is a free one. -/
theorem Accepted.subset_vacant (h : r.Accepted m head bs nodes) (hnames : Block.Names bs nodes) :
    nodes ⊆ vacant (bs.map Block.cell) := by
  intro x hx
  obtain ⟨b, hb, rfl⟩ := hnames x hx
  have hfree : r.IsFree m b.offset := (h.listed.isNode hx).2
  refine mem_vacant_blocks.mpr ⟨b, hb, rfl, ?_⟩
  rw [walk_header_eq h.walk hb]
  exact hfree

/-- **What is accepted is intact exactly if each node is a block.** As many different nodes as there
    are free blocks, all of them free blocks, leave none out. -/
theorem Accepted.intact_iff (h : r.Accepted m head bs nodes) :
    r.Intact m head bs nodes ↔ Block.Names bs nodes := by
  constructor
  · intro hi x hx
    obtain ⟨b, hb, ho, -⟩ := (hi.mem_nodes x).mp hx
    exact ⟨b, hb, ho⟩
  · intro hnames
    have hsub := List.subperm_of_subset h.nodup (h.subset_vacant hnames)
    have hlen : (vacant (bs.map Block.cell)).length ≤ nodes.length := by
      rw [length_vacant_blocks, h.length_eq]
    have hperm := hsub.perm_of_length_le hlen
    refine ⟨h.toTidy, h.listed, h.nodup, fun x => ?_⟩
    exact hperm.mem_iff.trans mem_vacant_blocks

end Region

namespace ListHeap

open Region

variable {a : Alignment} {r : Region a} {h : ListHeap a} {m : Memory} {p : Plan}

/-- **What the audit of a listing heap accepts**, on any memory: a layout without free neighbours, and
    a list that ends and has as many nodes as there are free blocks. -/
theorem audit_eq_ok_iff :
    h.audit r m = .ok (.ok ()) ↔ ∃ cs nodes, r.Laid .list m cs ∧ Separated cs ∧
      r.Listed m none h.head nodes ∧ nodes.length = cs.countP fun c => !c.used := by
  constructor
  · intro haudit
    unfold ListHeap.audit at haudit
    cases hblocks : r.audit m (Strategy.list.minBlock a) true with
    | error e =>
      rw [hblocks] at haudit
      cases haudit
    | ok v =>
      rw [hblocks] at haudit
      cases v with
      | error d => cases haudit
      | ok linear =>
        obtain ⟨cs, hlaid, hsep, hlinear⟩ := Region.audit_eq_ok_iff.mp hblocks
        cases hlist : FreeList.audit r ⟨h.head, m⟩ with
        | error e =>
          simp only [bind, Except.bind, hlist] at haudit
          cases haudit
        | ok v =>
          simp only [bind, Except.bind, hlist] at haudit
          cases v with
          | error d => cases haudit
          | ok listed =>
            obtain ⟨nodes, hlisted, hlen⟩ := FreeList.audit_eq_ok_iff.mp hlist
            by_cases heq : linear = listed
            · exact ⟨cs, nodes, hlaid, hsep rfl, hlisted, by rw [hlen, ← heq, hlinear]⟩
            · simp only [if_neg heq] at haudit
              cases haudit
  · intro hex
    obtain ⟨cs, nodes, hlaid, hsep, hlisted, hlen⟩ := hex
    have hblocks := hlaid.audit_eq true fun _ => hsep
    have hlist : FreeList.audit r ⟨h.head, m⟩ = .ok (.ok nodes.length) :=
      FreeList.audit_eq_ok_iff.mpr ⟨nodes, hlisted, rfl⟩
    unfold ListHeap.audit
    simp only [hblocks, hlist, hlen, bind, Except.bind, if_true]
    rfl

theorem audit_eq_ok_iff_accepted :
    h.audit r m = .ok (.ok ()) ↔ ∃ bs nodes, r.Accepted m h.head bs nodes := by
  refine audit_eq_ok_iff.trans ⟨?_, ?_⟩
  · intro hex
    obtain ⟨cs, nodes, hlaid, hsep, hlisted, hlen⟩ := hex
    refine ⟨cs.map (Cell.block a), nodes, hlaid.tidy hsep, hlisted, hlisted.nodup, ?_⟩
    rw [hlen, List.countP_map]
    refine List.countP_congr fun c _ => ?_
    simp [Cell.block]
  · intro hex
    obtain ⟨bs, nodes, h⟩ := hex
    refine ⟨bs.map Block.cell, nodes, h.toTidy.laid, separated_of_blocks h.separated, h.listed, ?_⟩
    rw [h.length_eq, ← length_vacant_blocks, length_vacant]

/-- The validation of an initialized heap gives the verdict of its audit. -/
theorem validate_eq_ofAudit {result : Except Defect Unit} (hr : h.region = some r)
    (haudit : h.audit r m = .ok result) : h.validate m = .ok (.ofAudit result) := by
  unfold ListHeap.validate
  simp only [hr, haudit, bind, Except.bind]
  rfl

/-- A heap that passes the audit passes the validation, and nothing is trapped or logged. -/
theorem validate_of_audit (hr : h.region = some r) (haudit : h.audit r m = .ok (.ok ())) :
    h.validate m = .ok ⟨.ok (), [], []⟩ :=
  validate_eq_ofAudit hr haudit

/-- A defect that the audit finds goes to the log, the trap and the caller. -/
theorem validate_of_defect {d : Defect} (hr : h.region = some r)
    (haudit : h.audit r m = .ok (.error d)) : h.validate m = .ok ⟨.error d, [d], [.corrupt d]⟩ :=
  validate_eq_ofAudit hr haudit

/-- A defect of the blocks is found before the list is looked at. -/
theorem audit_of_blocks {d : Defect}
    (hblocks : r.audit m (Strategy.list.minBlock a) true = .ok (.error d)) :
    h.audit r m = .ok (.error d) := by
  unfold ListHeap.audit
  simp only [hblocks, bind, Except.bind]
  rfl

/-- A defect of the list is found when the blocks have none. -/
theorem audit_of_list {d : Defect} {k : Nat}
    (hblocks : r.audit m (Strategy.list.minBlock a) true = .ok (.ok k))
    (hlist : FreeList.audit r ⟨h.head, m⟩ = .ok (.error d)) : h.audit r m = .ok (.error d) := by
  unfold ListHeap.audit
  simp only [hblocks, hlist, bind, Except.bind]
  rfl

/-- The numbers of free blocks are compared last. -/
theorem audit_of_counts {k n : Nat}
    (hblocks : r.audit m (Strategy.list.minBlock a) true = .ok (.ok k))
    (hlist : FreeList.audit r ⟨h.head, m⟩ = .ok (.ok n)) (hne : k ≠ n) :
    h.audit r m = .ok (.error (.freeCountMismatch k n)) := by
  unfold ListHeap.audit
  simp only [hblocks, hlist, hne, bind, Except.bind, if_false]
  rfl

/-- **The validation accepts what is called accepted here**, on any memory and with any head. -/
theorem validate_eq_ok_iff :
    (∃ v, h.validate m = .ok v ∧ v.result = .ok ()) ↔
      ∃ r bs nodes, h.region = some r ∧ r.Accepted m h.head bs nodes := by
  constructor
  · intro hex
    obtain ⟨v, hv, hok⟩ := hex
    unfold ListHeap.validate at hv
    cases hr : h.region with
    | none =>
      rw [hr] at hv
      cases hv
      cases hok
    | some r =>
      cases haudit : h.audit r m with
      | error e =>
        simp only [hr, haudit, bind, Except.bind] at hv
        cases hv
      | ok result =>
        simp only [hr, haudit, bind, Except.bind] at hv
        cases hv
        cases result with
        | error d => cases hok
        | ok _ =>
          obtain ⟨bs, nodes, haccepted⟩ := audit_eq_ok_iff_accepted.mp haudit
          exact ⟨r, bs, nodes, rfl, haccepted⟩
  · intro hex
    obtain ⟨r, bs, nodes, hr, haccepted⟩ := hex
    have haudit := audit_eq_ok_iff_accepted.mpr ⟨bs, nodes, haccepted⟩
    exact ⟨_, validate_of_audit hr haudit, rfl⟩

/-- **An intact heap passes the validation.** -/
theorem Shows.validate (hs : Shows r h m p) : h.validate m = .ok ⟨.ok (), [], []⟩ :=
  validate_of_audit hs.region_eq (audit_eq_ok_iff_accepted.mpr ⟨_, _, hs.intact.accepted⟩)

end ListHeap

end RegionHeap
