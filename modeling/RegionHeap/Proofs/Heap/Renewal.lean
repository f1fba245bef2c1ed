import RegionHeap.Proofs.Heap.Shows

/-!
# New regions

Which ranges of memory a heap takes over, and what it makes of them. What it held before has no part
in either.

* `Region.Claimed`, `Region.claimed` -- a range is refused for one of three reasons, or it is accepted;
* `Region.renew`, `Region.Renewed` -- the memory after a heap was laid out, write by write and byte by
  byte;
* `Heap.init_renewed` -- the heaps make these writes.
-/

namespace RegionHeap

namespace Region

variable {a : Alignment} {r : Region a} {m : Memory} {s : Strategy} {x : Nat}

/-! ## 1. Ranges -/

/-- Whether a range of memory becomes a region: it is refused if it is off the grid, or else if it is
    too small, or else if it ends past the last address. -/
structure Claimed (a : Alignment) (min addr len : Nat) (result : Except ClaimError Unit) : Prop where
  misaligned_iff : result = .error (.misaligned addr) ↔ addr % a.bytes ≠ 0
  tooSmall_iff : result = .error (.tooSmall len min) ↔ addr % a.bytes = 0 ∧ a.alignDown len < min
  overflow_iff : result = .error (.overflow addr (a.alignDown len)) ↔
    addr % a.bytes = 0 ∧ min ≤ a.alignDown len ∧ Word.limit ≤ addr + a.alignDown len
  ok_iff : result = .ok () ↔
    addr % a.bytes = 0 ∧ min ≤ a.alignDown len ∧ addr + a.alignDown len < Word.limit

/-- **Every range is decided**, and by its address and its length alone. -/
theorem claimed (a : Alignment) (min addr len : Nat) :
    Claimed a min addr len ((ofRange? a min addr len).map fun _ => ()) := by
  unfold ofRange?
  split
  · rename_i haddr
    split
    · rename_i hmin
      constructor <;> simp [Except.map, haddr, hmin]
    · rename_i hmin
      split
      · rename_i hend
        constructor <;> simp [Except.map, haddr, hend, Nat.not_lt.mp hmin, hmin]
      · rename_i hend
        constructor <;> simp [Except.map, haddr, hend, Nat.not_lt.mp hmin, hmin, Nat.not_lt.mp hend]
  · rename_i haddr
    constructor <;> simp [Except.map, haddr]

/-! ## 2. Memory -/

/-- Zeros behind the header of a free block. -/
def layFree (r : Region a) (m : Memory) : Memory :=
  (r.clear m).writeWord r.base r.size

/-- Two links that name nothing, behind the first header. -/
def layLinks (r : Region a) (m : Memory) : Memory :=
  (m.writeWord (r.base + a.bytes) Links.nil).writeWord (r.base + a.bytes + Word.size) Links.nil

/-- The memory after a heap was laid out over the region. -/
def renew (r : Region a) (m : Memory) : Strategy → Memory
  | .scan => r.layFree m
  | .list => r.layLinks (r.layFree m)

/-- Memory is as a heap leaves it that was just laid out over the region. -/
structure Renewed (r : Region a) (s : Strategy) (m m' : Memory) : Prop where
  /-- No other byte has changed. -/
  outside : Memory.AgreeOutside (Memory.Between r.base (r.base + r.size)) m m'
  /-- The region begins with the header of a free block of its size. -/
  header : r.header m' 0 = .ok (.ofSize r.size false)
  /-- If free blocks are listed, this one has no neighbours in the list. -/
  links : s = .list → r.links m' 0 = .ok ⟨none, none⟩
  /-- All other bytes of the region are zero. -/
  zero : ∀ x, Memory.Between r.base (r.base + r.size) x →
    ¬ Memory.Between r.base (r.base + Word.size) x →
    ¬ (s = .list ∧ Memory.Between (r.base + a.bytes) (r.base + a.bytes + 2 * Word.size) x) →
    m'.get x = 0

/-- A cleared region holds zeros. -/
theorem get_clear (m : Memory) (hx : Memory.Between r.base (r.base + r.size) x) :
    (r.clear m).get x = 0 := by
  have hlt : x - r.base < r.size := Nat.sub_lt_left_of_lt_add hx.1 hx.2
  rw [clear, Memory.fill, Memory.get_writeBytes, if_pos hx.1, List.getElem?_replicate, if_pos hlt]
  rfl

/-- A region with room for a block has its words for the header and the links. -/
theorem words_fit (hmin : s.minBlock a ≤ r.size) : r.HasWord 0 ∧
    (s = .list → r.HasWord (0 + a.bytes) ∧ r.HasWord (0 + a.bytes + Word.size)) := by
  have hbytes := Nat.le_trans s.bytes_le_minBlock hmin
  refine ⟨IsHeaderOffset.hasWord ⟨Nat.zero_mod _, by omega⟩, fun hs => ?_⟩
  subst hs
  rw [minBlock_list] at hmin
  have hmod : a.bytes % Word.size = 0 := Nat.mod_eq_zero_of_dvd Alignment.wordSize_dvd_bytes
  rw [Nat.zero_add]
  refine ⟨⟨hmod, by omega⟩, ?_, by omega⟩
  rw [Nat.add_mod_right, hmod]

/-- A free header is its size. -/
theorem raw_ofSize_free (r : Region a) : (Header.ofSize r.size false : Header a).raw = r.size := by
  show a.alignDown r.size + 0 = r.size
  rw [Nat.add_zero, Alignment.alignDown_eq_self r.size_mod]

/-- **A scanning heap leaves a header over zeros.** -/
theorem renewed_scan (hmin : Strategy.scan.minBlock a ≤ r.size) (m : Memory) :
    r.Renewed .scan m (r.layFree m) := by
  have hword := (words_fit hmin).1
  have hlimit := r.base_add_size_lt
  constructor
  case outside =>
    refine (agreeOutside_clear r m).trans ((Memory.agreeOutside_writeWord _ _ _).mono fun x hx => ?_)
    have hfits := hword.2
    unfold Memory.Between at hx ⊢
    omega
  case header =>
    have hread : (r.layFree m).readWord (r.base + 0) = r.size :=
      Memory.readWord_writeWord (by omega)
    rw [header_eq_ok hword, hread]
    exact congrArg (fun raw => Except.ok (Header.mk raw)) (raw_ofSize_free r).symm
  case links =>
    intro h
    cases h
  case zero =>
    intro x hx hheader _
    unfold Memory.Between at hheader
    rw [layFree, Memory.get_writeWord_of_outside (by omega), get_clear m hx]

/-- The two links lie behind the first header, and nothing else is written. -/
theorem agreeOutside_layLinks (r : Region a) (m : Memory) : Memory.AgreeOutside
    (Memory.Between (r.base + a.bytes) (r.base + a.bytes + 2 * Word.size)) m (r.layLinks m) := by
  refine ((Memory.agreeOutside_writeWord _ _ _).mono fun x hx => ?_).trans
    ((Memory.agreeOutside_writeWord _ _ _).mono fun x hx => ?_)
  · unfold Memory.Between at hx ⊢
    omega
  · unfold Memory.Between at hx ⊢
    omega

/-- They name nothing. -/
theorem links_layLinks (hmin : Strategy.list.minBlock a ≤ r.size) (m : Memory) :
    r.links (r.layLinks m) 0 = .ok ⟨none, none⟩ := by
  have hwords := (words_fit hmin).2 rfl
  have hprev : (r.layLinks m).readWord (r.base + a.bytes) = Links.nil := by
    rw [layLinks, Memory.readWord_writeWord_of_disjoint (by omega)]
    exact Memory.readWord_writeWord (by decide)
  have hnext : (r.layLinks m).readWord (r.base + (a.bytes + Word.size)) = Links.nil := by
    rw [← Nat.add_assoc]
    exact Memory.readWord_writeWord (by decide)
  rw [Nat.zero_add] at hwords
  simp only [links, Nat.zero_add, word_eq_ok hwords.1, word_eq_ok hwords.2, hprev, hnext, bind,
    Except.bind]
  rfl

/-- **A listing heap leaves two links behind the header.** -/
theorem renewed_list (hmin : Strategy.list.minBlock a ≤ r.size) (m : Memory) :
    r.Renewed .list m (r.layLinks (r.layFree m)) := by
  have hscan : r.Renewed .scan m (r.layFree m) :=
    renewed_scan (Nat.le_trans (by cases a <;> decide) hmin) m
  have hword := (words_fit hmin).1
  have hagree := r.agreeOutside_layLinks (r.layFree m)
  have hbytes := a.wordSize_le_bytes
  constructor
  case outside =>
    refine hscan.outside.trans (hagree.mono fun x hx => ?_)
    rw [minBlock_list] at hmin
    unfold Memory.Between at hx ⊢
    omega
  case header =>
    have hread : (r.layLinks (r.layFree m)).readWord (r.base + 0) =
        (r.layFree m).readWord (r.base + 0) := hagree.readWord fun x h1 h2 hx => by
      unfold Memory.Between at hx
      omega
    have hheader := hscan.header
    rw [header_eq_ok hword] at hheader ⊢
    rw [hread, hheader]
  case links => exact fun _ => links_layLinks hmin _
  case zero =>
    intro x hx hheader hlinks
    rw [hagree x fun h => hlinks ⟨rfl, h⟩]
    refine hscan.zero x hx hheader fun h => ?_
    cases h.1

/-- **What a heap makes of a region**, for both strategies. -/
theorem renewed_renew (hmin : s.minBlock a ≤ r.size) (m : Memory) :
    r.Renewed s m (r.renew m s) := by
  cases s with
  | scan => exact renewed_scan hmin m
  | list => exact renewed_list hmin m

end Region

/-! ## 3. Heaps -/

open Region

variable {a : Alignment} {r : Region a} {addr len : Nat}

theorem ScanHeap.init_eq (m : Memory)
    (hr : ofRange? a (Strategy.scan.minBlock a) addr len = .ok r) :
    ScanHeap.init m addr len = .ok ⟨⟨some r⟩, r.renew m .scan, .ok (), [.claimed r]⟩ := by
  obtain ⟨-, -, hmin⟩ := ofRange?_eq_ok hr
  unfold ScanHeap.init
  simp only [hr, setHeader_eq_ok (words_fit hmin).1, raw_ofSize_free, bind, Except.bind]
  rfl

theorem ListHeap.init_eq (m : Memory)
    (hr : ofRange? a (Strategy.list.minBlock a) addr len = .ok r) :
    ListHeap.init m addr len = .ok ⟨⟨some r, some 0⟩, r.renew m .list, .ok (), [.claimed r]⟩ := by
  obtain ⟨-, -, hmin⟩ := ofRange?_eq_ok hr
  obtain ⟨hword, hlinks⟩ := words_fit hmin
  obtain ⟨hprev, hnext⟩ := hlinks rfl
  unfold ListHeap.init
  simp only [hr, setHeader_eq_ok hword, raw_ofSize_free, FreeList.push, setPrev, setNext,
    setWord_eq_ok hprev, setWord_eq_ok hnext, FreeList.linkBack, bind, Except.bind, pure, Except.pure]
  rw [renew, layLinks, layFree, Nat.zero_add, Nat.add_zero, Nat.add_assoc r.base]
  rfl

/-- The heaps make these writes, and no other. -/
theorem Heap.init_memory (h : Heap a) (m : Memory)
    (hr : ofRange? a (h.strategy.minBlock a) addr len = .ok r) :
    (h.init m addr len).map Outcome.memory = .ok (r.renew m h.strategy) := by
  cases h with
  | scan h => simp only [init, ScanHeap.init_eq m hr, Except.map, Outcome.lift, strategy]
  | list h => simp only [init, ListHeap.init_eq m hr, Except.map, Outcome.lift, strategy]

/-- **A heap that was laid out leaves the region renewed.** -/
theorem Heap.init_renewed (h : Heap a) (m : Memory)
    (hr : ofRange? a (h.strategy.minBlock a) addr len = .ok r) :
    ∃ o, h.init m addr len = .ok o ∧ o.value = .ok () ∧
      Shows r h.strategy o.heap o.memory (.fresh r h.strategy) ∧
      r.Renewed h.strategy m o.memory := by
  obtain ⟨o, ho, hvalue, hshows, -⟩ := h.init_ok m hr
  obtain ⟨-, -, hmin⟩ := ofRange?_eq_ok hr
  have hmemory := h.init_memory m hr
  rw [ho] at hmemory
  have hmemory : o.memory = r.renew m h.strategy := Except.ok.inj hmemory
  exact ⟨o, ho, hvalue, hshows, hmemory ▸ renewed_renew hmin m⟩

end RegionHeap
