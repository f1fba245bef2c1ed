import RegionHeap.Event

/-!
# Outcomes of operations

An operation turns a heap and a memory into new ones, gives an answer and writes to the log. A
validation leaves both as they are. It gives a verdict: what it found, and what it told the log and
the client's trap.
-/

namespace RegionHeap

/-- What an operation leads to. -/
structure Outcome (a : Alignment) (H V : Type) where
  /-- The heap afterwards. -/
  heap : H
  /-- The memory afterwards. -/
  memory : Memory
  /-- The answer. -/
  value : V
  /-- What was logged, in order. -/
  log : List (Event a)

/-- The same outcome for a heap that contains the given one. -/
def Outcome.lift {a : Alignment} {H H' V : Type} (f : H → H') (o : Outcome a H V) :
    Outcome a H' V :=
  { o with heap := f o.heap }

/-- What a validation finds. -/
structure Verdict (a : Alignment) where
  /-- Nothing, or a defect. -/
  result : Except Defect Unit
  /-- What the trap was told, in order. -/
  trapped : List Defect
  /-- What was logged, in order. -/
  log : List (Event a)

namespace Verdict

/-- The verdict on a heap without a region: the defect goes to the caller, the trap and the log are
    told nothing. -/
def uninitialized {a : Alignment} : Verdict a :=
  ⟨.error .uninitialized, [], []⟩

/-- The verdict on an initialized heap: a defect goes to the log, the trap and the caller. -/
def ofAudit {a : Alignment} : Except Defect Unit → Verdict a
  | .ok () => ⟨.ok (), [], []⟩
  | .error d => ⟨.error d, [d], [.corrupt d]⟩

end Verdict

end RegionHeap
