import RegionHeap.Proofs.Client.Exclusivity

/-!
# Allocations fit the bytes last asked for

However a block has come by its size -- cut from a free one or taken whole, cut down, grown in place
or moved -- it serves the bytes last asked for, and what it has besides could not be a block. So it
is as a change to the same size would leave it, and such a change does nothing.

* `World.Fitted` -- the block at an address fits a number of bytes, and to ask for them changes
  nothing;
* `World.Matches.fitted` -- every allocation fits the bytes that the ledger has for it;
* `Action.Spares` -- an action lets an address alone;
* `Ledger.note_answered`, `Ledger.note_of_spared` -- the ledger has the bytes last asked for, as
  long as the address is let alone;
* `World.fits_last_request` -- so it is after every run, and stays so as long as the address is let
  alone.
-/

namespace RegionHeap

variable {a : Alignment} {s : Strategy} {w : World a} {d : Draft a} {r : Region a} {p : Plan}
  {addr n new : Nat} {answered : Option Nat} {act : Action} {L : Ledger}

namespace World

/-- The allocation at an address fits `n` bytes, and to ask for them, or for all that it has,
    changes neither the heap nor any byte. -/
structure Fitted (w : World a) (addr n : Nat) : Prop where
  /-- Header and payload are a block for `n` bytes, with less besides than a block of its own. -/
  tight : ∃ u, w.Grants addr u ∧ w.heap.strategy.blockFor a n ≤ u + a.bytes ∧
    u + a.bytes < w.heap.strategy.blockFor a n + w.heap.strategy.minBlock a
  /-- The same bytes are already there. -/
  again : w.serve (.resize (some addr) n) = .ok (w, .address (some addr))
  /-- So are all bytes that the client may use. -/
  full : ∀ u, w.Grants addr u → w.serve (.resize (some addr) u) = .ok (w, .address (some addr))

end World

/-- An action leaves an allocation to itself: it is no new region, and it neither releases the
    address nor asks for another size there. -/
def Action.Spares (addr : Nat) : Action → Prop
  | init .. => False
  | request q => q.subject? ≠ some addr
  | _ => True

/-! ## 1. Worlds -/

namespace World

/-- To ask for bytes that a block fits changes nothing. -/
theorem serve_resize_fits {f : Focus} (hs : w.heap.Shows r s w.memory p)
    (hf : p.live? r addr = some f) (hfit : s.Fits a n f.cell.size) :
    w.serve (.resize (some addr) n) = .ok (w, .address (some addr)) :=
  serve_resize (hs.resize_fits hf hfit)

/-- **Every allocation fits the bytes that the ledger has for it.** -/
theorem Matches.fitted (h : Matches s d w) (hL : L.Agrees s d) (hn : L addr = some n) :
    w.Fitted addr n := by
  cases d with
  | blank => exact nomatch (hL addr).symm.trans hn
  | planned r p =>
    have hs : w.heap.Shows r s w.memory p := h
    obtain ⟨c, hc, rfl, hfit⟩ := hL.1 addr n hn
    obtain ⟨f, hf, rfl⟩ := Plan.exists_live? hs.tiled hc
    have hb := hs.laid.bounds (mem_inUse.mp hc).1
    have hbytes : f.cell.size - a.bytes + a.bytes = f.cell.size :=
      Nat.sub_add_cancel (Nat.le_trans s.bytes_le_minBlock hb.min_le)
    constructor
    case tight =>
      refine ⟨f.cell.size - a.bytes, (grants_iff hs).mpr ⟨f.cell, hc, rfl, rfl⟩, ?_⟩
      rw [hbytes, hs.strategy_eq]
      exact ⟨hfit.blockFor_le, hfit.lt_blockFor⟩
    case again => exact serve_resize_fits hs hf hfit
    case full =>
      intro u hu
      have husable : p.usable r (f.cell.payload r) = some u :=
        Except.ok.inj ((hs.usableSize _).symm.trans hu)
      rw [Plan.usable, hf] at husable
      obtain rfl := Option.some.inj husable
      refine serve_resize_fits hs hf ?_
      exact Strategy.fits_usable hb.size_mod hb.min_le (Cell.size_lt hb.next_le)

end World

/-! ## 2. Ledgers -/

namespace Ledger

/-- The ledger has the bytes asked for at the address that is answered. -/
theorem note_answered {q : Request} (hnew : d.address? s q = some new) :
    L.note (.request q) (d.address? s q) new = some q.bytes := by
  rw [hnew]
  cases q with
  | allocate n => exact enter_self
  | resize addr? n => exact enter_self
  | _ => cases d <;> cases hnew

/-- An entry stays as it is while its address is let alone. -/
theorem note_of_spared (hn : L addr = some n) (hspared : act.Spares addr)
    (hnew : ∀ q, act = .request q → answered ≠ some addr) : L.note act answered addr = some n := by
  cases act with
  | init start len => exact hspared.elim
  | request q =>
    have hstrike : L.strike q.subject? addr = some n := strike_eq_some_iff.mpr ⟨hspared, hn⟩
    cases q with
    | allocate k =>
      cases answered with
      | none => exact hn
      | some new => exact (enter_of_ne fun e => hnew _ rfl (congrArg some e)).trans hn
    | release other => exact hstrike
    | resize other? k =>
      cases answered with
      | some new => exact (enter_of_ne fun e => hnew _ rfl (congrArg some e)).trans hstrike
      | none =>
        rw [note_resize_none]
        split
        · exact hstrike
        · exact hn
    | _ => exact hn
  | _ => exact hn

end Ledger

/-! ## 3. Runs -/

namespace World

/-- **An allocation that is let alone fits the bytes last asked for**, along every run. -/
theorem Matches.fitted_of_spared (hw : Matches s d w) (hL : L.Agrees s d) (hn : L addr = some n)
    {acts : List Action} (hacts : ∀ act ∈ acts, act.Spares addr) :
    ∃ w' trace, w.run acts = .ok (w', trace) ∧ w'.Fitted addr n := by
  obtain ⟨w', trace, hrun, hw', hafter⟩ := hw.run_of_step
    (I := fun L d => L.Agrees s d ∧ L addr = some n) acts <| by
      intro act hmem L d w answered hw hL hanswer
      obtain ⟨hL, hn⟩ := hL
      refine ⟨hL.note hw act hanswer, Ledger.note_of_spared hn (hacts act hmem) fun q hq hnew => ?_⟩
      subst hq
      -- a live address is answered to a request for it only, and there is none
      rcases hw.address?_not_live hL ((hanswer q rfl).symm.trans hnew) with hdead | hsubject
      · exact nomatch hn.symm.trans hdead
      · exact hacts _ hmem hsubject
  obtain ⟨hL', hn'⟩ := hafter L ⟨hL, hn⟩
  exact ⟨w', trace, hrun, hw'.fitted hL' hn'⟩

/-- **Every allocation fits the bytes last asked for**, in every state that a run leads to and for
    both strategies: it has a block for them, with less besides than a block of its own, and to ask
    for them again, or for all that it has, is answered with the same address and changes neither the
    heap nor any byte of memory. What a request has been answered with fits the bytes of the request
    from then on, whatever else is done, as long as the address itself is let alone. -/
theorem fits_last_request (s : Strategy) (m : Memory) (acts : List Action) :
    ∃ (w : World a) (trace : List (Action × Answer a)), (fresh s m).run acts = .ok (w, trace) ∧
      w.heap.strategy = s ∧ w.Honors (Ledger.blank.after trace) ∧
      (∀ addr n, Ledger.blank.after trace addr = some n → w.Fitted addr n) ∧
      ∀ q, ∃ w' answer, w.serve q = .ok (w', answer) ∧
        ∀ new, answer.address? = some new → ∀ acts', (∀ act ∈ acts', act.Spares new) →
          ∃ w'' trace', w'.run acts' = .ok (w'', trace') ∧ w''.Fitted new q.bytes := by
  obtain ⟨w, trace, hrun, hw, hafter⟩ := (matches_fresh (a := a) s m).run acts
  have hL := hafter Ledger.blank Ledger.agrees_blank
  refine ⟨w, trace, hrun, hw.strategy_eq, hw.honors hL, fun addr n => hw.fitted hL, fun q => ?_⟩
  obtain ⟨w', answer, hserve, hw', hanswer, -⟩ := hw.serve q
  refine ⟨w', answer, hserve, fun new hnew acts' hacts => ?_⟩
  rw [hanswer] at hnew
  exact hw'.fitted_of_spared (hL.note_request hw q) (Ledger.note_answered hnew) hacts

end World

end RegionHeap
