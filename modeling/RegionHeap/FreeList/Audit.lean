import RegionHeap.Defect
import RegionHeap.FreeList.Basic

/-!
# Audit of the free list

The audit follows the list from its head and checks each node before it trusts its links: a header
and two links fit there, it is free, and its backward link names the node before it. A second
cursor runs ahead two nodes at a time. On a list that returns to a node the two cursors meet before
the audit comes to a node twice; the second cursor trusts nothing but that a node fits.
-/

namespace RegionHeap

namespace Region

variable {a : Alignment}

/-- A free block fits at the offset, header and links included. -/
def IsNode (r : Region a) (off : Nat) : Prop :=
  r.IsHeaderOffset off ∧ Strategy.list.minBlock a ≤ r.size - off

instance (r : Region a) (off : Nat) : Decidable (r.IsNode off) :=
  inferInstanceAs (Decidable (_ ∧ _))

/-- The place in the list after a place, or the end if no node fits there. -/
def advance (r : Region a) (m : Memory) : Option Nat → Except Fault (Option Nat)
  | none => return none
  | some node => do
    if r.IsNode node then
      return Links.decode (← r.word m (node + a.bytes + Word.size))
    else
      return none

end Region

namespace FreeList

variable {a : Alignment}

/-- Audits the list from `node?` on, where `prev` is the node before it, `count` the number of nodes
    before it and `fast` the cursor that runs ahead. -/
def auditFrom (r : Region a) (m : Memory) : (steps count : Nat) → (prev node? fast : Option Nat) →
    Except Fault (Except Defect Nat)
  | 0, _, _, _, _ => throw .endless
  | steps + 1, count, prev, node?, fast => do
    let some node := node? | return .ok count
    unless r.IsNode node do return .error (.strayFreeNode node)
    let h ← r.header m node
    if h.Allocated then return .error (.usedBlockInFreeList node)
    let links ← r.links m node
    unless links.prev = prev do return .error (.brokenFreeLink node)
    -- this cursor moves one node, the other two; they meet only on a circle
    let fast ← r.advance m (← r.advance m fast)
    match links.next, fast with
    | some next, some ahead =>
      if next = ahead then return .error (.freeListCycle next)
      auditFrom r m steps (count + 1) (some node) links.next fast
    | _, _ => auditFrom r m steps (count + 1) (some node) links.next fast

/-- Audits the list and counts its nodes. The audit passes each node at most once, and nodes lie
    on the grid, so there are not more steps than the region has places. -/
def audit (r : Region a) (l : FreeList) : Except Fault (Except Defect Nat) :=
  auditFrom r l.memory (r.size / a.bytes + 1) 0 none l.head l.head

end FreeList

end RegionHeap
