import RegionHeap.Heap.Basic
import RegionHeap.Proofs.FreeList.Chase
import RegionHeap.Proofs.Heap.Accepted
import RegionHeap.Proofs.Layout.Offence

/-!
# Verdicts

What a validation can come to, on any memory and with any head of the free list. Each way to fail is
one constructor of a relation, and the validation fails with a defect exactly if one of them leads to
it. An initialized heap tells the trap and the log whatever it returns; a heap without a region
returns its defect without a word to either.

* `Verdict.Reported` -- the trap and the log are told of the defect that is returned, once;
* `Region.ListAils`, `Heap.Ails` -- the ways to fail;
* `ListHeap.audit_eq_error_iff` -- the audit of a listing heap fails in these ways and no other;
* `Heap.Judged`, `Heap.exists_judged` -- the verdict on either heap.
-/

namespace RegionHeap

variable {a : Alignment}

/-! ## 1. Reports -/

/-- The trap and the log are told of the defect that is returned, once, and of nothing else. -/
def Verdict.Reported (v : Verdict a) : Prop :=
  match v.result with
  | .ok () => v.trapped = [] ∧ v.log = []
  | .error d => v.trapped = [d] ∧ v.log = [.corrupt d]

/-- What an audit finds is reported. -/
theorem Verdict.ofAudit_reported (result : Except Defect Unit) :
    (Verdict.ofAudit result : Verdict a).Reported := by
  cases result with
  | ok _ => exact ⟨rfl, rfl⟩
  | error _ => exact ⟨rfl, rfl⟩

theorem Verdict.result_ofAudit (result : Except Defect Unit) :
    (Verdict.ofAudit result : Verdict a).result = result := by
  cases result with
  | ok _ => rfl
  | error _ => rfl

theorem Verdict.not_reported_uninitialized : ¬ (Verdict.uninitialized : Verdict a).Reported :=
  fun h => absurd h.1 (List.cons_ne_nil _ _).symm

/-! ## 2. Ways to fail -/

section

variable {r : Region a} {m : Memory} {head : Option Nat} {d : Defect}

/-- What can be wrong with a listing heap: its blocks; if they are in order, its list; and if both
    are, the numbers of free blocks. -/
inductive Region.ListAils (r : Region a) (m : Memory) (head : Option Nat) : Defect → Prop
  | blocks {d : Defect} (hd : r.FirstOffence m (Strategy.list.minBlock a) true d) :
      ListAils r m head d
  | list {d : Defect} {k i : Nat} (htiled : r.TiledBy m (Strategy.list.minBlock a) true k)
      (hpass : ∀ j < i, r.Passes m head j) (hstop : FreeList.Stops r m head i (.error d)) :
      ListAils r m head d
  | counts {k n : Nat} (htiled : r.TiledBy m (Strategy.list.minBlock a) true k)
      (hpass : ∀ j < n, r.Passes m head j) (hstop : FreeList.Stops r m head n (.ok n))
      (hne : k ≠ n) : ListAils r m head (.freeCountMismatch k n)

/-- What can be wrong with a heap. -/
inductive Heap.Ails (m : Memory) : Heap a → Defect → Prop
  | noRegion {h : Heap a} (hr : h.region = none) : Ails m h .uninitialized
  | scan {r : Region a} {d : Defect} (hd : r.FirstOffence m (Strategy.scan.minBlock a) false d) :
      Ails m (.scan ⟨some r⟩) d
  | list {r : Region a} {head : Option Nat} {d : Defect} (hd : r.ListAils m head d) :
      Ails m (.list ⟨some r, head⟩) d

/-- A list audit that stops does so within the number of its steps. -/
theorem FreeList.Stops.audit_eq {i : Nat} {v : Except Defect Nat}
    (hstop : FreeList.Stops r m head i v) (hpass : ∀ j < i, r.Passes m head j) :
    FreeList.audit r ⟨head, m⟩ = .ok v :=
  FreeList.audit_eq_of_stops (l := ⟨head, m⟩) (Region.passes_le hpass) hpass hstop

/-- What is wrong is found. -/
theorem Region.ListAils.audit_eq (hd : r.ListAils m head d) :
    ListHeap.audit ⟨some r, head⟩ r m = .ok (.error d) := by
  have hmin : 0 < Strategy.list.minBlock a := Strategy.list.minBlock_pos
  cases hd with
  | blocks hd => exact ListHeap.audit_of_blocks (hd.audit_eq hmin)
  | list htiled hpass hstop =>
    exact ListHeap.audit_of_list (htiled.audit_eq hmin) (hstop.audit_eq hpass)
  | counts htiled hpass hstop hne =>
    exact ListHeap.audit_of_counts (htiled.audit_eq hmin) (hstop.audit_eq hpass) hne

/-- The audit of a listing heap passes, or something is wrong. -/
theorem ListHeap.audit_ok_or_ails (r : Region a) (m : Memory) (head : Option Nat) :
    ListHeap.audit ⟨some r, head⟩ r m = .ok (.ok ()) ∨ ∃ d, r.ListAils m head d := by
  have hmin : 0 < Strategy.list.minBlock a := Strategy.list.minBlock_pos
  rcases r.exists_verdict m hmin true with ⟨k, htiled⟩ | ⟨d, hd⟩
  · obtain ⟨i, v, -, hpass, hstop⟩ := FreeList.exists_stops r m head
    cases v with
    | error d => exact .inr ⟨d, .list htiled hpass hstop⟩
    | ok n =>
      cases hstop with
      | ended hplace =>
        by_cases heq : k = i
        · have hblocks := htiled.audit_eq hmin
          have hlist := (FreeList.Stops.ended hplace).audit_eq hpass
          refine .inl ?_
          unfold ListHeap.audit
          simp only [hblocks, hlist, heq, bind, Except.bind, if_true]
          rfl
        · exact .inr ⟨_, .counts htiled hpass (.ended hplace) heq⟩
  · exact .inr ⟨d, .blocks hd⟩

/-- **The audit of a listing heap fails in these ways and no other**, and always comes to an end. -/
theorem ListHeap.exists_audit (r : Region a) (m : Memory) (head : Option Nat) :
    ∃ result, ListHeap.audit ⟨some r, head⟩ r m = .ok result ∧
      ∀ d, result = .error d ↔ r.ListAils m head d := by
  rcases ListHeap.audit_ok_or_ails r m head with hok | ⟨d, hd⟩
  · refine ⟨.ok (), hok, fun d => ⟨fun e => (nomatch e), fun hd => ?_⟩⟩
    exact Except.ok.inj (hok.symm.trans hd.audit_eq)
  · refine ⟨.error d, hd.audit_eq, fun e => ⟨fun he => ?_, fun he => ?_⟩⟩
    · obtain rfl := Except.error.inj he
      exact hd
    · exact Except.ok.inj (hd.audit_eq.symm.trans he.audit_eq)

/-- **The audit of a scanning heap** fails at the first block that breaks a rule. -/
theorem ScanHeap.exists_audit (r : Region a) (m : Memory) :
    ∃ result, ScanHeap.validate ⟨some r⟩ m = .ok (.ofAudit result) ∧
      ∀ d, result = .error d ↔ r.FirstOffence m (Strategy.scan.minBlock a) false d := by
  have hmin : 0 < Strategy.scan.minBlock a := Strategy.scan.minBlock_pos
  obtain ⟨v, hv⟩ := r.exists_audit m hmin false
  refine ⟨v.map fun _ => (), ?_, fun d => ?_⟩
  · unfold ScanHeap.validate
    simp only [hv, bind, Except.bind]
    rfl
  · rw [Region.firstOffence_iff hmin, hv, Except.ok.injEq]
    cases v with
    | ok k => exact ⟨fun e => (nomatch e), fun e => (nomatch e)⟩
    | error e =>
      exact ⟨fun h => congrArg _ (Except.error.inj h), fun h => congrArg _ (Except.error.inj h)⟩

end

/-! ## 3. The verdict of a heap -/

/-- What is known of the verdict on a heap: it fails with what is wrong, and is reported if there is a
    region. -/
structure Heap.Judged (h : Heap a) (m : Memory) (v : Verdict a) : Prop where
  answers : h.validate m = .ok v
  result_iff : ∀ d, v.result = .error d ↔ h.Ails m d
  unreported : h.region = none → v = .uninitialized
  reported : h.region ≠ none → v.Reported

theorem Heap.judged_of_none {h : Heap a} {m : Memory} (hr : h.region = none)
    (hv : h.validate m = .ok .uninitialized) : h.Judged m .uninitialized := by
  refine ⟨hv, fun d => ⟨fun hd => ?_, fun hd => ?_⟩, fun _ => rfl, fun hne => absurd hr hne⟩
  · obtain rfl := Except.error.inj hd
    exact .noRegion hr
  · cases hd with
    | noRegion _ => rfl
    | scan _ => cases hr
    | list _ => cases hr

theorem Heap.judged_of_audit {h : Heap a} {m : Memory} {r : Region a} {result : Except Defect Unit}
    (hr : h.region = some r) (hv : h.validate m = .ok (.ofAudit result))
    (hresult : ∀ d, result = .error d ↔ h.Ails m d) : h.Judged m (.ofAudit result) := by
  refine ⟨hv, fun d => ?_, fun hn => (nomatch hr.symm.trans hn),
    fun _ => Verdict.ofAudit_reported result⟩
  rw [Verdict.result_ofAudit]
  exact hresult d

/-- **The validation comes to a verdict on any memory**, and this is what it is. -/
theorem Heap.exists_judged (h : Heap a) (m : Memory) : ∃ v, h.Judged m v := by
  cases h with
  | scan h =>
    obtain ⟨_ | r⟩ := h
    · exact ⟨_, Heap.judged_of_none rfl rfl⟩
    · obtain ⟨result, hv, hresult⟩ := ScanHeap.exists_audit r m
      refine ⟨_, Heap.judged_of_audit rfl hv fun d => (hresult d).trans ⟨.scan, fun hd => ?_⟩⟩
      cases hd with
      | noRegion hr => cases hr
      | scan hd => exact hd
  | list h =>
    obtain ⟨_ | r, head⟩ := h
    · exact ⟨_, Heap.judged_of_none rfl rfl⟩
    · obtain ⟨result, haudit, hresult⟩ := ListHeap.exists_audit r m head
      have hv : ListHeap.validate ⟨some r, head⟩ m = .ok (.ofAudit result) :=
        ListHeap.validate_eq_ofAudit rfl haudit
      refine ⟨_, Heap.judged_of_audit rfl hv fun d => (hresult d).trans ⟨.list, fun hd => ?_⟩⟩
      cases hd with
      | noRegion hr => cases hr
      | list hd => exact hd

end RegionHeap
