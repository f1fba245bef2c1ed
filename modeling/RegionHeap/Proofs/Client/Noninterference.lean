import RegionHeap.Proofs.Client.Determined

/-!
# Payloads have no say

A heap reads the word in front of any address that a client hands in, and its links lie where payloads
have been. Still nothing that it decides depends on a byte that is the client's: two clients that ask
for the same are told the same, whatever they write to their payloads, how often they do so, and
whatever was in memory before.

* `Action.Decided` -- the actions whose answer is the heap's own decision;
* `World.Resembles` -- two worlds that differ in payloads and other memory only;
* `World.Matches.run_decided` -- the decided actions of a run make a run of their own, with the same
  answers;
* `World.payloads_have_no_say` -- runs with the same decided actions are answered alike and end in
  worlds that resemble each other.
-/

namespace RegionHeap

/-- The answer to the action is the heap's own decision. A write of the client is answered too, and
    the snapshot of a scanning heap shows payloads. -/
def Action.Decided (s : Strategy) : Action → Bool
  | init .. => true
  | request (.dump _) => decide (s = .list)
  | request _ => true
  | store .. => false
  | elsewhere .. => false

/-- What was asked for in a run and decided by the heap, in order. -/
def decisions {a : Alignment} (s : Strategy) (trace : List (Action × Answer a)) :
    List (Action × Answer a) :=
  trace.filter fun entry => entry.1.Decided s

section

variable {a : Alignment} {s : Strategy} {act : Action} {answer : Answer a}
  {trace : List (Action × Answer a)}

theorem decisions_cons_of_decided (h : act.Decided s = true) :
    decisions s ((act, answer) :: trace) = (act, answer) :: decisions s trace :=
  List.filter_cons_of_pos h

theorem decisions_cons_of_not_decided (h : act.Decided s = false) :
    decisions s ((act, answer) :: trace) = decisions s trace :=
  List.filter_cons_of_neg (ne_true_of_eq_false h)

end

namespace Action

variable {s : Strategy} {act : Action}

/-- A decided action is no look at payloads. -/
theorem no_look_of_decided (h : act.Decided s = true) :
    s = .list ∨ ∀ room, act ≠ request (.dump room) := by
  refine or_iff_not_imp_right.mpr fun hdump => ?_
  obtain ⟨room, rfl⟩ := not_forall_not.mp hdump
  exact of_decide_eq_true h

end Action

namespace Draft

variable {a : Alignment} {s : Strategy} {act : Action}

/-- What the heap does not decide about leaves the draft as it is. -/
theorem after_of_not_decided (d : Draft a) (h : act.Decided s = false) : d.after s act = d := by
  cases act with
  | init addr len => cases h
  | request q =>
    cases q with
    | dump room => cases d <;> rfl
    | _ => cases h
  | store addr skip bytes => rfl
  | elsewhere addr bytes => rfl

/-- The draft follows from the decided actions alone. -/
theorem foldl_decided (d : Draft a) (acts : List Action) :
    (acts.filter (Action.Decided s)).foldl (Draft.after s) d = acts.foldl (Draft.after s) d := by
  induction acts generalizing d with
  | nil => rfl
  | cons act acts ih =>
    cases hact : act.Decided s with
    | true =>
      rw [List.filter_cons_of_pos hact]
      exact ih _
    | false =>
      rw [List.filter_cons_of_neg (ne_true_of_eq_false hact), List.foldl_cons,
        d.after_of_not_decided hact]
      exact ih d

end Draft

namespace Heap.Shows

variable {a : Alignment} {r : Region a} {h : Heap a} {m : Memory} {p : Plan}

/-- The links of a listing heap lead to the nodes of its plan. -/
theorem listed_order (hs : Shows r .list h m p) : r.Listed m none h.head p.order := by
  cases hs with
  | list hs => exact hs.intact.listed

end Heap.Shows

namespace World

variable {a : Alignment} {s : Strategy} {w w' : World a} {d : Draft a}

/-- The worlds differ in payloads and in memory outside of the region only: heap, blocks and list are
    the same, and so is the snapshot of a listing heap. -/
structure Resembles (w w' : World a) : Prop where
  /-- The region and the first block of the list are the same. -/
  heap_eq : w'.heap = w.heap
  /-- The walk finds the same blocks, with the same headers. -/
  blocks : ∀ r, w.heap.region = some r →
    ∃ bs, r.blocks w.memory = .ok bs ∧ r.blocks w'.memory = .ok bs
  /-- The links of a listing heap lead to the same nodes in the same order. -/
  nodes : ∀ r, w.heap.region = some r → w.heap.strategy = .list → ∃ nodes,
    r.Listed w.memory none w.heap.head nodes ∧ r.Listed w'.memory none w'.heap.head nodes
  /-- Every writer takes the same text of a listing heap. -/
  snapshot : w.heap.strategy = .list → ∀ room, ∃ text,
    w.heap.dump w.memory room = .ok text ∧ w'.heap.dump w'.memory room = .ok text

/-! ## 1. Worlds that match the same draft -/

/-- **Worlds that match the same draft resemble each other.** -/
theorem Matches.resembles (h : Matches s d w) (h' : Matches s d w') : w.Resembles w' := by
  have hlisting : w.heap.strategy = .list → s = .list := fun hlist =>
    h.strategy_eq.symm.trans hlist
  constructor
  case heap_eq => exact h.heap_congr h'
  case blocks =>
    intro r hr
    obtain ⟨p, rfl⟩ := h.exists_plan hr
    have hs : w.heap.Shows r s w.memory p := h
    have hs' : w'.heap.Shows r s w'.memory p := h'
    exact ⟨_, hs.laid.blocks_eq, hs'.laid.blocks_eq⟩
  case nodes =>
    intro r hr hlist
    obtain rfl := hlisting hlist
    obtain ⟨p, rfl⟩ := h.exists_plan hr
    exact ⟨p.order, Heap.Shows.listed_order h, Heap.Shows.listed_order h'⟩
  case snapshot =>
    intro hlist room
    obtain rfl := hlisting hlist
    exact h.dump_congr h' room

/-! ## 2. Runs -/

/-- **The decided actions of a run make a run of their own**, with the same answers, from every world
    that matches the same draft. -/
theorem Matches.run_decided (h : Matches s d w) (h' : Matches s d w') (acts : List Action) :
    ∃ w1 trace w1', w.run acts = .ok (w1, trace) ∧
      w'.run (acts.filter (Action.Decided s)) = .ok (w1', decisions s trace) ∧
      Matches s (acts.foldl (Draft.after s) d) w1 := by
  induction acts generalizing w w' d with
  | nil => exact ⟨w, [], w', rfl, rfl, h⟩
  | cons act acts ih =>
    cases hact : act.Decided s with
    | true =>
      obtain ⟨w1, w1', answer, hstep, hstep', hw1, hw1'⟩ :=
        h.perform_congr h' act (Action.no_look_of_decided hact)
      obtain ⟨w2, trace, w2', hrun, hrun', hw2⟩ := ih hw1 hw1'
      refine ⟨w2, (act, answer) :: trace, w2', run_cons hstep hrun, ?_, hw2⟩
      rw [List.filter_cons_of_pos hact, decisions_cons_of_decided hact]
      exact run_cons hstep' hrun'
    | false =>
      -- the run of the decided actions stays where it is
      obtain ⟨w1, answer, hstep, hw1, -⟩ := h.perform act
      rw [d.after_of_not_decided hact] at hw1
      obtain ⟨w2, trace, w2', hrun, hrun', hw2⟩ := ih hw1 h'
      refine ⟨w2, (act, answer) :: trace, w2', run_cons hstep hrun, ?_, ?_⟩
      · rw [List.filter_cons_of_neg (ne_true_of_eq_false hact),
          decisions_cons_of_not_decided hact]
        exact hrun'
      · rw [List.foldl_cons, d.after_of_not_decided hact]
        exact hw2

/-- **Payloads have no say in what a heap decides**, for both strategies. Take two runs that start over
    any memories and in which the clients ask for the same, with the same arguments; they may write
    what they like to their payloads and outside of the region, as often as they like. Then all
    decisions are answered alike, and in the end, so after every number of steps, the heaps have the
    same blocks and the same list. -/
theorem payloads_have_no_say (s : Strategy) (m : Memory) (acts : List Action) :
    ∃ (w : World a) (trace : List (Action × Answer a)), (fresh s m).run acts = .ok (w, trace) ∧
      ∀ m' acts', acts'.filter (Action.Decided s) = acts.filter (Action.Decided s) →
        ∃ w' trace', (fresh s m').run acts' = .ok (w', trace') ∧
          decisions s trace' = decisions s trace ∧ w.Resembles w' := by
  obtain ⟨w, trace, w1, hrun, hdecided, hw⟩ :=
    (matches_fresh (a := a) s m).run_decided (matches_fresh s m) acts
  refine ⟨w, trace, hrun, fun m' acts' hsame => ?_⟩
  obtain ⟨w', trace', w1', hrun', hdecided', hw'⟩ :=
    (matches_fresh (a := a) s m').run_decided (matches_fresh s m) acts'
  refine ⟨w', trace', hrun', ?_, hw.resembles ?_⟩
  · rw [hsame, hdecided] at hdecided'
    exact (congrArg Prod.snd (Except.ok.inj hdecided')).symm
  · rw [← Draft.foldl_decided, hsame, Draft.foldl_decided] at hw'
    exact hw'

end World

end RegionHeap
