import RegionHeap.Proofs.FreeList.Chase

/-!
# Lists that pass the audit

What the audit of the free list accepts, on any memory. The nodes are those that the forward links
lead to from the head; they are listed if each has room for a free block, is free, and names the node
before it. Nothing says that a node is a block of the walk.

* `Region.Listed` -- the nodes that the links lead to, with what the audit checks of each;
* `Listed.unique`, `Listed.nodup` -- links determine the nodes, so no node comes twice;
* `Region.exists_listed_iff` -- nodes are listed if and only if their places are sound;
* `FreeList.audit_eq_ok_iff` -- the audit accepts a list exactly if its nodes are listed, and counts
  them.
-/

namespace RegionHeap

namespace Region

variable {a : Alignment} {r : Region a} {m : Memory} {prev node? : Option Nat} {x : Nat}
  {nodes rest pre : List Nat}

/-- The nodes that the links lead to from a place on, where `prev` stands before it: each one has
    room for a free block, is free, and names the node before it. -/
def Listed (r : Region a) (m : Memory) : (prev node? : Option Nat) → List Nat → Prop
  | _, node?, [] => node? = none
  | prev, node?, x :: xs =>
    node? = some x ∧ r.IsNode x ∧ (∃ h, r.header m x = .ok h ∧ ¬ h.Allocated) ∧
      ∃ next, r.links m x = .ok ⟨prev, next⟩ ∧ r.Listed m (some x) next xs

namespace Listed

theorem head?_eq (h : r.Listed m prev node? nodes) : nodes.head? = node? := by
  cases nodes with
  | nil => exact (show node? = none from h).symm
  | cons x xs => exact h.1.symm

/-- The links of a node lead on to the rest of the list. -/
theorem of_append (h : r.Listed m prev node? (pre ++ rest)) :
    ∃ prev', r.Listed m prev' rest.head? rest := by
  induction pre generalizing prev node? with
  | nil =>
    have h : r.Listed m prev node? rest := h
    refine ⟨prev, ?_⟩
    rwa [head?_eq h]
  | cons y pre ih =>
    obtain ⟨-, -, -, next, -, h⟩ := h
    exact ih h

/-- **Links determine the nodes**, whatever stands before the first one. -/
theorem unique {prev' : Option Nat} {nodes' : List Nat} (h : r.Listed m prev node? nodes)
    (h' : r.Listed m prev' node? nodes') : nodes = nodes' := by
  induction nodes generalizing prev prev' node? nodes' with
  | nil =>
    cases nodes' with
    | nil => rfl
    | cons y ys =>
      rw [show node? = none from h] at h'
      cases h'.1
  | cons x xs ih =>
    cases nodes' with
    | nil =>
      rw [show node? = none from h'] at h
      cases h.1
    | cons y ys =>
      obtain ⟨rfl, -, -, next, hlinks, h⟩ := h
      obtain ⟨hxy, -, -, next', hlinks', h'⟩ := h'
      cases hxy
      rw [hlinks] at hlinks'
      cases hlinks'
      rw [ih h h']

/-- **No node comes twice** in a list that ends. -/
theorem nodup (h : r.Listed m prev node? nodes) : nodes.Nodup := by
  induction nodes generalizing prev node? with
  | nil => exact List.nodup_nil
  | cons x xs ih =>
    have hcons := h
    obtain ⟨rfl, -, -, next, -, h⟩ := h
    refine List.nodup_cons.mpr ⟨fun hx => ?_, ih h⟩
    -- from the second place on the list would go on as from the first
    obtain ⟨pre, post, rfl⟩ := List.append_of_mem hx
    have hsplit : r.Listed m prev (some x) ((x :: pre) ++ x :: post) := hcons
    obtain ⟨prev', hagain⟩ := of_append hsplit
    have hlen := congrArg List.length (hcons.unique hagain)
    simp only [List.length_cons, List.length_append] at hlen
    omega

/-- Every node has room for a free block and is free. -/
theorem isNode (h : r.Listed m prev node? nodes) (hx : x ∈ nodes) : r.IsNode x ∧ r.IsFree m x := by
  obtain ⟨pre, post, rfl⟩ := List.append_of_mem hx
  obtain ⟨-, -, hnode, ⟨head, hhead, hfree⟩, -⟩ := of_append h
  rw [header_eq_ok hnode.1.hasWord] at hhead
  rw [← Except.ok.inj hhead] at hfree
  exact ⟨hnode, hfree⟩

end Listed

variable {head : Option Nat} {i : Nat} {xs : List Nat}

/-- At a sound place a node is listed, and the others are listed from the next place on. -/
theorem listed_cons_iff :
    r.Listed m (r.before m head i) (r.place m head i) (x :: xs) ↔ r.place m head i = some x ∧
      r.Sound m head i ∧ r.Listed m (r.before m head (i + 1)) (r.place m head (i + 1)) xs := by
  constructor
  · rintro ⟨hplace, hnode, ⟨h, hhead, hfree⟩, next, hlinks, hrest⟩
    rw [header_eq_ok hnode.1.hasWord] at hhead
    rw [hnode.links_eq] at hlinks
    have hlinks := Except.ok.inj hlinks
    refine ⟨hplace, ⟨x, hplace, hnode, ?_, by rw [hlinks]⟩, ?_⟩
    · rw [← Except.ok.inj hhead] at hfree
      exact hfree
    · rw [before, hplace, place_succ_of_isNode hplace hnode, hlinks]
      exact hrest
  · rintro ⟨hplace, ⟨y, hy, hnode, hfree, hprev⟩, hrest⟩
    obtain rfl := Option.some.inj (hplace.symm.trans hy)
    rw [before, hplace, place_succ_of_isNode hplace hnode] at hrest
    refine ⟨hplace, hnode, ⟨_, header_eq_ok hnode.1.hasWord, hfree⟩, _, ?_, hrest⟩
    rw [hnode.links_eq, ← hprev]

/-- **Nodes are listed if and only if their places are sound** and the row ends behind them. -/
theorem exists_listed_iff (r : Region a) (m : Memory) (head : Option Nat) (i n : Nat) :
    (∃ nodes, r.Listed m (r.before m head i) (r.place m head i) nodes ∧ nodes.length = n) ↔
      r.place m head (i + n) = none ∧ ∀ j < n, r.Sound m head (i + j) := by
  induction n generalizing i with
  | zero =>
    constructor
    · rintro ⟨nodes, h, hlen⟩
      obtain rfl := List.length_eq_zero_iff.mp hlen
      exact ⟨h, fun j hj => absurd hj (Nat.not_lt_zero j)⟩
    · rintro ⟨hend, -⟩
      exact ⟨[], hend, rfl⟩
  | succ n ih =>
    have ih := ih (i + 1)
    constructor
    · rintro ⟨nodes, h, hlen⟩
      obtain ⟨x, xs, rfl⟩ := List.exists_cons_of_length_eq_add_one hlen
      obtain ⟨-, hsound, hrest⟩ := listed_cons_iff.mp h
      obtain ⟨hend, hall⟩ := ih.mp ⟨xs, hrest, Nat.succ.inj hlen⟩
      refine ⟨Nat.add_right_comm i 1 n ▸ hend, fun j hj => ?_⟩
      cases j with
      | zero => exact hsound
      | succ j => exact Nat.add_right_comm i 1 j ▸ hall j (Nat.lt_of_succ_lt_succ hj)
    · rintro ⟨hend, hall⟩
      have hsound := hall 0 n.succ_pos
      have ⟨x, hx, _⟩ := hsound
      obtain ⟨xs, hrest, hlen⟩ := ih.mpr ⟨Nat.add_right_comm i 1 n ▸ hend, fun j hj =>
        Nat.add_right_comm i 1 j ▸ hall (j + 1) (Nat.succ_lt_succ hj)⟩
      exact ⟨x :: xs, listed_cons_iff.mpr ⟨hx, hsound, hrest⟩, congrArg Nat.succ hlen⟩

/-- The places of a list are its nodes. -/
theorem Listed.place_eq (h : r.Listed m prev node? nodes) (i : Nat) :
    r.place m node? i = nodes[i]? := by
  induction nodes generalizing prev node? i with
  | nil =>
    have hend : r.place m node? 0 = none := h
    rw [place_eq_none_of_le hend (Nat.zero_le i), List.getElem?_nil]
  | cons x xs ih =>
    obtain ⟨rfl, hnode, -, next, hlinks, hrest⟩ := h
    cases i with
    | zero => rw [place_zero, List.getElem?_cons_zero]
    | succ i =>
      rw [hnode.links_eq] at hlinks
      have hnext : r.place m (some x) (0 + 1) = next := by
        rw [place_succ_of_isNode rfl hnode, Except.ok.inj hlinks]
      rw [Nat.add_comm, ← Nat.zero_add 1, place_add, hnext, ih hrest, Nat.zero_add, Nat.add_comm,
        List.getElem?_cons_succ]

/-- The places stay as long as the links of the nodes do. -/
theorem Listed.place_congr {m' : Memory} (h : r.Listed m prev node? nodes)
    (hlinks : ∀ x ∈ nodes, r.linksAt m' x = r.linksAt m x) (i : Nat) :
    r.place m' node? i = r.place m node? i := by
  induction i with
  | zero => rw [place_zero, place_zero]
  | succ i ih =>
    rw [place_succ, place_succ, ih]
    cases hplace : r.place m node? i with
    | none => rfl
    | some x =>
      have hx : x ∈ nodes := List.mem_of_getElem? ((h.place_eq i).symm.trans hplace)
      rw [after, after, hlinks x hx]

end Region

/-- **The audit accepts a list exactly if its nodes are listed**, on any memory, and counts them. -/
theorem FreeList.audit_eq_ok_iff {a : Alignment} {r : Region a} {l : FreeList} {k : Nat} :
    FreeList.audit r l = .ok (.ok k) ↔
      ∃ nodes, r.Listed l.memory none l.head nodes ∧ nodes.length = k := by
  obtain ⟨i, v, hle, hpass, hstop⟩ := exists_stops r l.memory l.head
  have hlisted := r.exists_listed_iff l.memory l.head 0 k
  rw [audit_eq_of_stops hle hpass hstop, Except.ok.injEq, hstop.eq_ok_iff hpass]
  simp only [Nat.zero_add] at hlisted
  exact hlisted.symm

/-- **A list with a node that has become allocated** is refused at that node, as long as the links
    and the nodes in front of it are as they were. -/
theorem FreeList.audit_of_used {a : Alignment} {r : Region a} {m m' : Memory} {head : Option Nat}
    {pre post : List Nat} {x : Nat} (h : r.Listed m none head (pre ++ x :: post))
    (hlinks : ∀ y ∈ pre ++ x :: post, r.linksAt m' y = r.linksAt m y)
    (hpre : ∀ y ∈ pre, r.IsFree m' y) (hx : ¬ r.IsFree m' x) :
    FreeList.audit r ⟨head, m'⟩ = .ok (.error (.usedBlockInFreeList x)) := by
  have hplace := h.place_congr hlinks
  obtain ⟨-, hsound⟩ := (r.exists_listed_iff m head 0 _).mp ⟨_, h, rfl⟩
  have hend : r.place m' head (pre ++ x :: post).length = none := by
    rw [hplace, h.place_eq, List.getElem?_eq_none (Nat.le_refl _)]
  have hpass : ∀ k < pre.length, r.Passes m' head k := by
    intro k hk
    obtain ⟨y, hy, hnode, -, hprev⟩ := hsound k (by rw [List.length_append]; omega)
    rw [Nat.zero_add] at hy hprev
    have hmem := hy
    rw [h.place_eq, List.getElem?_append_left hk] at hmem
    have hlink := hlinks y (List.mem_append_left _ (List.mem_of_getElem? hmem))
    have hbefore : r.before m' head k = r.before m head k := by
      cases k with
      | zero => rfl
      | succ k => exact hplace k
    exact ⟨⟨y, (hplace k).trans hy, hnode, hpre y (List.mem_of_getElem? hmem), by
      rw [hlink, hprev, hbefore]⟩, Region.not_meets_of_end hend k⟩
  have hat : r.place m' head pre.length = some x := by
    rw [hplace, h.place_eq, List.getElem?_append_right (Nat.le_refl _), Nat.sub_self]
    rfl
  have hnode := (h.isNode (List.mem_append_right pre List.mem_cons_self)).1
  exact audit_eq_of_stops (Region.passes_le hpass) hpass (.used hat hnode hx)

end RegionHeap
