import Mathlib.Data.List.FinRange
import Mathlib.Data.List.Nodup
import Mathlib.Data.List.Perm.Subperm
import Mathlib.Logic.Function.Iterate
import RegionHeap.Proofs.FreeList.Confined
import RegionHeap.Proofs.FreeList.Threaded

/-!
# The audit on any list

Whatever lies in the region, the forward links lead from the head through a row of places, which
ends or goes round for ever. In each round the audit tests one place, and the cursor that runs ahead
is at the place with twice the number. A row that comes back to a place is found out before the
audit does.

* `Region.place` -- the places that the links lead to, by their number;
* `Region.Sound`, `Region.Meets` -- what the audit tests of a place, and where the cursors meet;
* `Region.exists_meets` -- on a row that comes back they meet, before any place is tested twice;
* `FreeList.Stops`, `FreeList.exists_stops` -- the round in which the audit ends, and with what;
* `FreeList.audit_exact` -- the audit ends on any memory, and what its verdicts mean.
-/

namespace RegionHeap

namespace Region

variable {a : Alignment} {r : Region a} {m m' : Memory} {head : Option Nat} {i j k n x : Nat}
  {nodes : List Nat}

/-! ## 1. Nodes -/

/-- A place with room for a free block makes a list of its own. -/
theorem IsNode.single (h : r.IsNode x) : r.Nodes [x] := by
  refine ⟨fun y hy => ?_, fun y hy z hz => .inl ?_⟩
  · rwa [List.mem_singleton.mp hy]
  · rw [List.mem_singleton.mp hy, List.mem_singleton.mp hz]

theorem IsNode.links_eq (h : r.IsNode x) : r.links m x = .ok (r.linksAt m x) :=
  h.single.links_eq (List.mem_singleton_self x)

/-- A region has a place for every step of the grid, and nodes fit at no others. -/
theorem length_le_of_nodup (h : nodes.Nodup) (hnodes : ∀ x ∈ nodes, r.IsNode x) :
    nodes.length ≤ r.size / a.bytes := by
  have hplace : ∀ x ∈ nodes, x / a.bytes * a.bytes = x ∧ x / a.bytes < r.size / a.bytes := by
    intro x hx
    obtain ⟨⟨hmod, hend⟩, -⟩ := hnodes x hx
    have hdiv : x / a.bytes * a.bytes = x := Nat.div_mul_cancel (Nat.dvd_of_mod_eq_zero hmod)
    refine ⟨hdiv, (Nat.le_div_iff_mul_le a.bytes_pos).mpr ?_⟩
    rw [Nat.succ_mul, hdiv]
    exact hend
  have hnodup : (nodes.map (· / a.bytes)).Nodup := by
    refine h.map_on fun x hx y hy e => ?_
    rw [← (hplace x hx).1, ← (hplace y hy).1, e]
  have hsub : nodes.map (· / a.bytes) ⊆ List.range (r.size / a.bytes) := by
    intro q hq
    obtain ⟨x, hx, rfl⟩ := List.mem_map.mp hq
    exact List.mem_range.mpr (hplace x hx).2
  have hlen := (List.subperm_of_subset hnodup hsub).length_le
  rwa [List.length_map, List.length_range] at hlen

/-! ## 2. The places of a list -/

/-- The place that the forward link leads to, or the end if no node fits at the place before. -/
def after (r : Region a) (m : Memory) : Option Nat → Option Nat
  | none => none
  | some x => if r.IsNode x then (r.linksAt m x).next else none

/-- The place that the forward links lead to from the head in `i` steps. -/
def place (r : Region a) (m : Memory) (head : Option Nat) (i : Nat) : Option Nat :=
  (r.after m)^[i] head

/-- The place in front of another one. -/
def before (r : Region a) (m : Memory) (head : Option Nat) : Nat → Option Nat
  | 0 => none
  | i + 1 => r.place m head i

/-- A free block fits at the place and is there, and its backward link names the place before. -/
def Sound (r : Region a) (m : Memory) (head : Option Nat) (i : Nat) : Prop :=
  ∃ x, r.place m head i = some x ∧ r.IsNode x ∧ r.IsFree m x ∧
    (r.linksAt m x).prev = r.before m head i

/-- The place is the same as the one with twice the number. -/
def Meets (r : Region a) (m : Memory) (head : Option Nat) (i : Nat) : Prop :=
  ∃ x, r.place m head i = some x ∧ r.place m head (2 * i) = some x

/-- The cursor that runs ahead moves from place to place. -/
theorem advance_eq_after (r : Region a) (m : Memory) (node? : Option Nat) :
    r.advance m node? = .ok (r.after m node?) := by
  cases node? with
  | none => rfl
  | some x =>
    by_cases h : r.IsNode x
    · have hword := word_eq_ok (m := m) (h.single.hasWord_next (List.mem_singleton_self x))
      simp only [advance, after, if_pos h, hword, bind, Except.bind, pure, Except.pure, linksAt_next]
    · simp only [advance, after, if_neg h]
      rfl

theorem Alike.advance_eq (hm : r.Alike m m') (node? : Option Nat) :
    r.advance m' node? = r.advance m node? := by
  cases node? with
  | none => rfl
  | some x => simp only [advance, hm.word_eq]

theorem place_zero : r.place m head 0 = head := rfl

theorem place_succ (i : Nat) : r.place m head (i + 1) = r.after m (r.place m head i) :=
  Function.iterate_succ_apply' ..

/-- Where a node fits, its forward link leads on. -/
theorem place_succ_of_isNode (h : r.place m head i = some x) (hnode : r.IsNode x) :
    r.place m head (i + 1) = (r.linksAt m x).next := by
  rw [place_succ, h, after, if_pos hnode]

theorem place_add (i j : Nat) : r.place m head (i + j) = r.place m (r.place m head i) j := by
  rw [place, Nat.add_comm, Function.iterate_add_apply]
  rfl

/-- The end is followed by nothing. -/
theorem place_eq_none_of_le (h : r.place m head i = none) (hij : i ≤ j) :
    r.place m head j = none := by
  obtain ⟨t, rfl⟩ := Nat.exists_eq_add_of_le hij
  induction t with
  | zero => exact h
  | succ t ih => rw [← Nat.add_assoc, place_succ, ih (Nat.le_add_right _ _), after]

/-- From a place that comes again, the row repeats itself. -/
theorem place_add_mul (h : r.place m head (i + n) = r.place m head i) (hij : i ≤ j) (q : Nat) :
    r.place m head (j + n * q) = r.place m head j := by
  have honce : ∀ t, i ≤ t → r.place m head (t + n) = r.place m head t := by
    intro t ht
    obtain ⟨s, rfl⟩ := Nat.exists_eq_add_of_le ht
    rw [Nat.add_right_comm, place_add, h, ← place_add]
  induction q with
  | zero => rfl
  | succ q ih => rw [Nat.mul_succ, ← Nat.add_assoc, honce _ (by omega), ih]

/-- A row that repeats itself does not end. -/
theorem place_ne_none_of_round (h : r.place m head (i + n) = r.place m head i)
    (hi : r.place m head i ≠ none) (hn : 0 < n) (j : Nat) : r.place m head j ≠ none := by
  intro hj
  refine hi ((place_add_mul h (Nat.le_refl i) j).symm.trans (place_eq_none_of_le hj ?_))
  exact Nat.le_add_left_of_le (Nat.le_mul_of_pos_left j hn)

/-- **On a row that comes back to a place the cursors meet** there or before: at the first number
    from the place on that is a multiple of the length of the circle. -/
theorem exists_meets (hij : i < j) (h : r.place m head i = r.place m head j)
    (hj : r.place m head j ≠ none) : ∃ k, k < j ∧ r.Meets m head (k + 1) := by
  obtain ⟨n, rfl⟩ := Nat.exists_eq_add_of_lt hij
  -- the circle has length `n + 1`, and one of so many numbers in a row is a multiple of it
  obtain ⟨q, hlo, hhi⟩ : ∃ q, max i 1 ≤ (n + 1) * q ∧ (n + 1) * q ≤ max i 1 + n := by
    have hdiv := Nat.div_add_mod (max i 1 + n) (n + 1)
    have hmod : (max i 1 + n) % (n + 1) < n + 1 := Nat.mod_lt _ n.succ_pos
    exact ⟨(max i 1 + n) / (n + 1), by omega, by omega⟩
  obtain ⟨k, hk⟩ : ∃ k, (n + 1) * q = k + 1 := Nat.exists_eq_add_of_le' (by omega)
  have hagain : r.place m head (k + 1 + (n + 1) * q) = r.place m head (k + 1) :=
    place_add_mul h.symm (by omega) q
  obtain ⟨x, hx⟩ : ∃ x, r.place m head (k + 1) = some x := by
    refine Option.ne_none_iff_exists'.mp fun hnone => hj ?_
    exact place_eq_none_of_le hnone (by omega)
  refine ⟨k, by omega, x, hx, ?_⟩
  rw [hk, hx] at hagain
  rwa [Nat.two_mul]

/-- The cursors never meet on a row that ends. -/
theorem not_meets_of_end (hend : r.place m head n = none) (i : Nat) : ¬ r.Meets m head (i + 1) := by
  intro hmeets
  obtain ⟨x, hslow, hfast⟩ := hmeets
  have hround : r.place m head (i + 1 + (i + 1)) = r.place m head (i + 1) := by
    rw [← Nat.two_mul, hfast, hslow]
  exact place_ne_none_of_round hround (by simp [hslow]) (Nat.succ_pos i) n hend

/-! ## 3. Rounds that pass -/

/-- The audit goes on after the round. -/
def Passes (r : Region a) (m : Memory) (head : Option Nat) (i : Nat) : Prop :=
  r.Sound m head i ∧ ¬ r.Meets m head (i + 1)

theorem Sound.ne_none (h : r.Sound m head i) : r.place m head i ≠ none := by
  obtain ⟨x, hx, -⟩ := h
  rw [hx]
  exact Option.some_ne_none x

/-- **No place is tested twice.** -/
theorem place_ne_of_passes (h : ∀ k < i, r.Passes m head k) (hjk : j < k) (hki : k ≤ i)
    (hk : r.place m head k ≠ none) : r.place m head j ≠ r.place m head k := by
  intro e
  obtain ⟨t, ht, hmeets⟩ := exists_meets hjk e hk
  exact (h t (by omega)).2 hmeets

/-- Nodes fit at no more places than the region has. -/
theorem passes_le (h : ∀ k < i, r.Passes m head k) : i ≤ r.size / a.bytes := by
  have hnode : ∀ k : Fin i, ∃ x, r.place m head k = some x ∧ r.IsNode x := by
    intro k
    obtain ⟨x, hx, hnode, -⟩ := (h k k.isLt).1
    exact ⟨x, hx, hnode⟩
  choose node hplace hnode using hnode
  have hinj : Function.Injective node := by
    intro j k e
    have hsame : r.place m head j = r.place m head k := by rw [hplace, hplace, e]
    rcases Nat.lt_trichotomy j k with hlt | heq | hlt
    · refine absurd hsame (place_ne_of_passes h hlt k.isLt.le ?_)
      exact (h k k.isLt).1.ne_none
    · exact Fin.ext heq
    · refine absurd hsame.symm (place_ne_of_passes h hlt j.isLt.le ?_)
      exact (h j j.isLt).1.ne_none
  have hlen := length_le_of_nodup (List.nodup_ofFn.mpr hinj) fun x hx => by
    obtain ⟨k, rfl⟩ := List.mem_ofFn.mp hx
    exact hnode k
  rwa [List.length_ofFn] at hlen

end Region

namespace FreeList

open Region

variable {a : Alignment} {r : Region a} {l : FreeList} {m m' : Memory} {head : Option Nat}
  {prev fast : Option Nat} {steps count i : Nat} {v : Except Defect Nat}

/-! ## 4. The rounds of the audit -/

/-- In this round the audit ends, with the verdict. -/
inductive Stops (r : Region a) (m : Memory) (head : Option Nat) (i : Nat) :
    Except Defect Nat → Prop where
  | ended (hplace : r.place m head i = none) : Stops r m head i (.ok i)
  | stray {x : Nat} (hplace : r.place m head i = some x) (hnode : ¬ r.IsNode x) :
      Stops r m head i (.error (.strayFreeNode x))
  | used {x : Nat} (hplace : r.place m head i = some x) (hnode : r.IsNode x)
      (hfree : ¬ r.IsFree m x) : Stops r m head i (.error (.usedBlockInFreeList x))
  | broken {x : Nat} (hplace : r.place m head i = some x) (hnode : r.IsNode x)
      (hfree : r.IsFree m x) (hprev : (r.linksAt m x).prev ≠ r.before m head i) :
      Stops r m head i (.error (.brokenFreeLink x))
  | cycle {x : Nat} (hsound : r.Sound m head i) (hslow : r.place m head (i + 1) = some x)
      (hfast : r.place m head (2 * (i + 1)) = some x) :
      Stops r m head i (.error (.freeListCycle x))

/-- The audit goes on after a round, or it ends in it. -/
theorem passes_or_stops (r : Region a) (m : Memory) (head : Option Nat) (i : Nat) :
    r.Passes m head i ∨ ∃ v, Stops r m head i v := by
  cases hplace : r.place m head i with
  | none => exact .inr ⟨_, .ended hplace⟩
  | some x =>
    by_cases hnode : r.IsNode x
    · by_cases hfree : r.IsFree m x
      · by_cases hprev : (r.linksAt m x).prev = r.before m head i
        · have hsound : r.Sound m head i := ⟨x, hplace, hnode, hfree, hprev⟩
          by_cases hmeets : r.Meets m head (i + 1)
          · obtain ⟨y, hslow, hfast⟩ := hmeets
            exact .inr ⟨_, .cycle hsound hslow hfast⟩
          · exact .inl ⟨hsound, hmeets⟩
        · exact .inr ⟨_, .broken hplace hnode hfree hprev⟩
      · exact .inr ⟨_, .used hplace hnode hfree⟩
    · exact .inr ⟨_, .stray hplace hnode⟩

/-- The audit before round `i`: the two cursors are at the places with the number and twice the
    number. -/
def auditAt (r : Region a) (m : Memory) (head : Option Nat) (steps i : Nat) :
    Except Fault (Except Defect Nat) :=
  auditFrom r m steps i (r.before m head i) (r.place m head i) (r.place m head (2 * i))

theorem advance_twice (r : Region a) (m : Memory) (head : Option Nat) (i : Nat) :
    r.advance m (r.place m head (2 * i)) = .ok (r.place m head (2 * i + 1)) ∧
      r.advance m (r.place m head (2 * i + 1)) = .ok (r.place m head (2 * (i + 1))) := by
  rw [advance_eq_after, advance_eq_after, ← place_succ, ← place_succ]
  exact ⟨rfl, rfl⟩

/-- One step of the audit at a node that passes the tests, when the two cursors do not meet. -/
theorem auditFrom_node {x : Nat} {next fast1 fast2 : Option Nat} (hnode : r.IsNode x)
    (hfree : r.IsFree m x) (hlinks : r.links m x = .ok ⟨prev, next⟩)
    (h1 : r.advance m fast = .ok fast1) (h2 : r.advance m fast1 = .ok fast2)
    (hmeet : ∀ y, next = some y → fast2 ≠ some y) :
    auditFrom r m (steps + 1) count prev (some x) fast =
      auditFrom r m steps (count + 1) (some x) next fast2 := by
  have hhead := header_eq_ok (m := m) hnode.1.hasWord
  rw [auditFrom]
  simp only [hnode, hhead, hlinks, h1, h2, bind, Except.bind, if_true]
  rw [if_neg hfree]
  cases next with
  | none => rfl
  | some y =>
    cases fast2 with
    | none => rfl
    | some z => exact if_neg fun e => hmeet y rfl (congrArg some e.symm)

/-- A round that passes leads to the next one. -/
theorem auditAt_of_passes (h : r.Passes m head i) :
    auditAt r m head (steps + 1) i = auditAt r m head steps (i + 1) := by
  obtain ⟨⟨x, hplace, hnode, hfree, hprev⟩, hmeets⟩ := h
  obtain ⟨h1, h2⟩ := advance_twice r m head i
  have hnext := place_succ_of_isNode hplace hnode
  have hlinks : r.links m x = .ok ⟨r.before m head i, (r.linksAt m x).next⟩ := by
    rw [hnode.links_eq, ← hprev]
  rw [auditAt, hplace, auditFrom_node hnode hfree hlinks h1 h2 fun y hy hfast => ?_]
  · rw [auditAt, hnext, before, hplace]
  · exact hmeets ⟨y, hnext.trans hy, hfast⟩

/-- A round that stops gives the verdict. -/
theorem auditAt_of_stops (h : Stops r m head i v) : auditAt r m head (steps + 1) i = .ok v := by
  obtain ⟨h1, h2⟩ := advance_twice r m head i
  cases h with
  | ended hplace =>
    rw [auditAt, hplace]
    unfold auditFrom
    rfl
  | stray hplace hnode =>
    rw [auditAt, hplace, auditFrom]
    simp only [hnode, bind, Except.bind, if_false]
    rfl
  | used hplace hnode hfree =>
    have hhead := header_eq_ok (m := m) hnode.1.hasWord
    rw [auditAt, hplace, auditFrom]
    simp only [hnode, hhead, bind, Except.bind, if_true]
    exact if_pos (Classical.not_not.mp hfree)
  | broken hplace hnode hfree hprev =>
    have hhead := header_eq_ok (m := m) hnode.1.hasWord
    rw [auditAt, hplace, auditFrom]
    simp only [hnode, hhead, hnode.links_eq, hprev, bind, Except.bind, if_true, if_false]
    exact if_neg hfree
  | cycle hsound hslow hfast =>
    obtain ⟨x, hplace, hnode, hfree, hprev⟩ := hsound
    have hhead := header_eq_ok (m := m) hnode.1.hasWord
    have hnext := (place_succ_of_isNode hplace hnode).symm
    rw [auditAt, hplace, auditFrom]
    simp only [hnode, hhead, hnode.links_eq, hprev, h1, h2, hnext, hslow, hfast, bind, Except.bind,
      if_true]
    exact if_neg hfree

/-- As long as rounds pass, each of them tests the next place. -/
theorem auditFrom_eq_auditAt (h : ∀ k < i, r.Passes m head k) (steps : Nat) :
    auditFrom r m (steps + i) 0 none head head = auditAt r m head steps i := by
  induction i generalizing steps with
  | zero => rfl
  | succ i ih =>
    have hbefore := ih (fun k hk => h k (Nat.lt_succ_of_lt hk)) (steps + 1)
    rw [Nat.add_right_comm] at hbefore
    rw [← Nat.add_assoc, hbefore, auditAt_of_passes (h i (Nat.lt_succ_self i))]

/-- **Not all rounds pass**, since the region has too few places. -/
theorem exists_stops (r : Region a) (m : Memory) (head : Option Nat) :
    ∃ i v, i ≤ r.size / a.bytes ∧ (∀ k < i, r.Passes m head k) ∧ Stops r m head i v := by
  classical
  have hex : ∃ i, ¬ r.Passes m head i := by
    by_contra hall
    have hpass : ∀ k < r.size / a.bytes + 1, r.Passes m head k := fun k _ =>
      Classical.not_not.mp fun hk => hall ⟨k, hk⟩
    exact Nat.not_succ_le_self _ (passes_le hpass)
  have hpass : ∀ k < Nat.find hex, r.Passes m head k := fun k hk =>
    Classical.not_not.mp (Nat.find_min hex hk)
  obtain ⟨v, hv⟩ := (passes_or_stops r m head (Nat.find hex)).resolve_left (Nat.find_spec hex)
  exact ⟨Nat.find hex, v, passes_le hpass, hpass, hv⟩

/-! ## 5. What a verdict means -/

/-- At the end of the row the audit accepts it. -/
theorem Stops.of_end (h : Stops r m head i v) (hend : r.place m head i = none) : v = .ok i := by
  cases h with
  | ended _ => rfl
  | cycle hsound _ _ => exact absurd hend hsound.ne_none
  | stray hplace _ => simp [hplace] at hend
  | used hplace _ _ => simp [hplace] at hend
  | broken hplace _ _ _ => simp [hplace] at hend

/-- At a sound place the audit stops only because the cursors meet. -/
theorem Stops.of_sound (h : Stops r m head i v) (hsound : r.Sound m head i) :
    ∃ x, v = .error (.freeListCycle x) ∧ r.place m head (i + 1) = some x ∧
      r.place m head (2 * (i + 1)) = some x := by
  obtain ⟨y, hy, hnode, hfree, hprev⟩ := hsound
  cases h with
  | cycle _ hslow hfast => exact ⟨_, rfl, hslow, hfast⟩
  | ended hplace => simp [hplace] at hy
  | stray hplace hstray =>
    obtain rfl := Option.some.inj (hplace.symm.trans hy)
    exact absurd hnode hstray
  | used hplace _ hused =>
    obtain rfl := Option.some.inj (hplace.symm.trans hy)
    exact absurd hfree hused
  | broken hplace _ _ hbroken =>
    obtain rfl := Option.some.inj (hplace.symm.trans hy)
    exact absurd hprev hbroken

/-- **The audit accepts a row that ends and whose places are all sound, and no other.** -/
theorem Stops.eq_ok_iff {n : Nat} (h : Stops r m head i v) (hpass : ∀ k < i, r.Passes m head k) :
    v = .ok n ↔ r.place m head n = none ∧ ∀ k < n, r.Sound m head k := by
  constructor
  · rintro rfl
    cases h with
    | ended hplace => exact ⟨hplace, fun k hk => (hpass k hk).1⟩
  · rintro ⟨hend, hsound⟩
    rcases Nat.lt_trichotomy i n with hin | rfl | hin
    · obtain ⟨x, -, hslow, hfast⟩ := h.of_sound (hsound i hin)
      exact absurd ⟨x, hslow, hfast⟩ (not_meets_of_end hend i)
    · exact h.of_end hend
    · exact absurd hend (hpass n hin).1.ne_none

/-- A circle that is reported is one. -/
theorem Stops.of_cycle {x : Nat} (h : Stops r m head i (.error (.freeListCycle x))) :
    ∃ n, 1 ≤ n ∧ r.place m (some x) n = some x := by
  cases h with
  | cycle _ hslow hfast =>
    refine ⟨i + 1, Nat.le_add_left 1 i, ?_⟩
    rw [← hslow, ← place_add, ← Nat.two_mul, hfast, hslow]

/-- What lies outside of the region has no say. -/
theorem auditFrom_congr (hm : r.Alike m m') (count : Nat) (prev node? fast : Option Nat) :
    auditFrom r m' steps count prev node? fast = auditFrom r m steps count prev node? fast := by
  induction steps generalizing count prev node? fast with
  | zero => rfl
  | succ steps ih =>
    unfold auditFrom
    simp only [hm.header_eq, hm.links_eq, hm.advance_eq, ih]

/-! ## 6. The audit -/

/-- The audit has steps enough, and more of them change nothing. -/
theorem auditFrom_of_stops (hpass : ∀ k < i, r.Passes m head k) (hstop : Stops r m head i v)
    (steps : Nat) : auditFrom r m (steps + 1 + i) 0 none head head = .ok v :=
  (auditFrom_eq_auditAt hpass _).trans (auditAt_of_stops hstop)

theorem audit_eq_of_stops (hle : i ≤ r.size / a.bytes)
    (hpass : ∀ k < i, r.Passes l.memory l.head k) (hstop : Stops r l.memory l.head i v) :
    FreeList.audit r l = .ok v := by
  have hsteps : r.size / a.bytes + 1 = r.size / a.bytes - i + 1 + i := by omega
  rw [FreeList.audit, hsteps]
  exact auditFrom_of_stops hpass hstop _

/-- What is known of an audit that makes rounds up to number `i` and comes to a verdict in the last
    one. -/
structure Exact (r : Region a) (l : FreeList) (i : Nat) (verdict : Except Defect Nat) : Prop where
  /-- There are no more rounds than the region has places, and one. -/
  rounds_le : i ≤ r.size / a.bytes
  /-- It has the verdict. -/
  answers : FreeList.audit r l = .ok verdict
  /-- It has it with any number of steps that is large enough, so it ends by itself. -/
  ends : ∀ steps, auditFrom r l.memory (steps + 1 + i) 0 none l.head l.head = .ok verdict
  /-- Round `j` tests the place with the number `j`: after `j` steps the audit has come there, knows
      the place before, and the other cursor is at the place with twice the number. -/
  tests : ∀ j ≤ i, ∀ steps, auditFrom r l.memory (steps + j) 0 none l.head l.head =
    auditFrom r l.memory steps j (r.before l.memory l.head j) (r.place l.memory l.head j)
      (r.place l.memory l.head (2 * j))
  /-- No node is tested twice. -/
  once : ∀ j k, j < k → k ≤ i → r.place l.memory l.head k ≠ none →
    r.place l.memory l.head j ≠ r.place l.memory l.head k
  /-- What lies outside of the region has no say. -/
  confined : ∀ m', r.Alike l.memory m' → FreeList.audit r ⟨l.head, m'⟩ = .ok verdict
  /-- A list is accepted, with the number of its nodes, exactly if it ends and all its nodes are
      sound. -/
  ok_iff : ∀ n, verdict = .ok n ↔
    r.place l.memory l.head n = none ∧ ∀ j < n, r.Sound l.memory l.head j
  /-- A node that is reported to lie on a circle is reached from itself. -/
  circle : ∀ x, verdict = .error (.freeListCycle x) →
    ∃ n, 1 ≤ n ∧ r.place l.memory (some x) n = some x
  /-- A list that comes back to a node is reported as a circle, unless a node that was tested is not
      sound. -/
  reported : ∀ j k, j < k → r.place l.memory l.head j = r.place l.memory l.head k →
    r.place l.memory l.head k ≠ none →
    (∀ n ≤ i, r.place l.memory l.head n ≠ none → r.Sound l.memory l.head n) →
    ∃ x, verdict = .error (.freeListCycle x)

/-- **The audit is exact on any memory and from any head.** It ends, without a look at anything
    outside of the region and without testing a node twice, and accepts exactly the lists that end
    and whose nodes are all sound. What it reports as a circle is one, and a list that goes round is
    reported as a circle if no node that it tests has a defect of its own. -/
theorem audit_exact (r : Region a) (l : FreeList) : ∃ i verdict, Exact r l i verdict := by
  obtain ⟨i, v, hle, hpass, hstop⟩ := exists_stops r l.memory l.head
  have hanswers := audit_eq_of_stops hle hpass hstop
  refine ⟨i, v, hle, hanswers, auditFrom_of_stops hpass hstop, fun j hj steps => ?_, ?_, fun m' hm => ?_, ?_, ?_, ?_⟩
  · exact auditFrom_eq_auditAt (fun k hk => hpass k (Nat.lt_of_lt_of_le hk hj)) steps
  · exact fun j k hjk hki hk => place_ne_of_passes hpass hjk hki hk
  · rw [FreeList.audit, auditFrom_congr hm]
    exact hanswers
  · exact fun n => hstop.eq_ok_iff hpass
  · rintro x rfl
    exact hstop.of_cycle
  · intro j k hjk hsame hk hsound
    obtain ⟨n, rfl⟩ := Nat.exists_eq_add_of_lt hjk
    have hround : r.place l.memory l.head (j + (n + 1)) = r.place l.memory l.head j := hsame.symm
    have hi := place_ne_none_of_round hround (hsame ▸ hk) (Nat.succ_pos n) i
    obtain ⟨x, hx, -⟩ := hstop.of_sound (hsound i (Nat.le_refl i) hi)
    exact ⟨x, hx⟩

end FreeList

end RegionHeap
