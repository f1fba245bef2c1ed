import RegionHeap.Defect
import RegionHeap.Region.Live
import RegionHeap.Strategy

/-!
# Events

What a heap tells its log. An address that names no live allocation is a curiosity to a heap that
scans and a warning to one that lists its free blocks.
-/

namespace RegionHeap

/-- How much an event matters. -/
inductive Level where
  | trace
  | debug
  | warn
  | error
  deriving DecidableEq, Repr

/-- The name of a level in the log. -/
def Level.name : Level → String
  | trace => "TRACE"
  | debug => "DEBUG"
  | warn => "WARN"
  | error => "ERROR"

/-- Something a heap has done or noticed. -/
inductive Event (a : Alignment) where
  /-- A region became the heap's. -/
  | claimed (r : Region a)
  /-- A request for `n` bytes was served at an address. -/
  | allocated (n addr : Nat)
  /-- The allocation at an address was given back. -/
  | released (addr : Nat) (live : Live)
  /-- The allocation at an address was cut down to `n` bytes. -/
  | shrunk (addr n : Nat)
  /-- The allocation at an address was extended to `n` bytes. -/
  | grown (addr n : Nat)
  /-- The allocation at an address moved to another one to hold `n` bytes. -/
  | moved (addr n new : Nat)
  /-- The address to release names no live allocation. -/
  | releaseIgnored (s : Strategy) (addr : Nat)
  /-- The address to resize names no live allocation. -/
  | resizeIgnored (s : Strategy) (addr n : Nat)
  /-- A validation found a defect. -/
  | corrupt (d : Defect)
  deriving DecidableEq, Repr

namespace Event

variable {a : Alignment}

/-- How much it matters that an address names no live allocation. -/
def ignoredLevel : Strategy → Level
  | .scan => .debug
  | .list => .warn

/-- The level of an event. -/
def level : Event a → Level
  | claimed .. | allocated .. | released .. | shrunk .. | grown .. | moved .. => .trace
  | releaseIgnored s .. | resizeIgnored s .. => ignoredLevel s
  | corrupt .. => .error

/-- The block of a released allocation as a record. -/
def blockText (live : Live) : String :=
  Text.record "UsedBlock" [("offset", toString live.offset), ("size", toString live.size)]

/-- What a reader of the log is told. -/
def message : Event a → String
  | claimed r => "init: " ++ r.text
  | allocated n addr => s!"allocate({n}) = {Text.address addr}"
  | released addr live => s!"release({Text.address addr}): " ++ blockText live
  | shrunk addr n => s!"resize({Text.address addr}, {n}): shrink in place"
  | grown addr n => s!"resize({Text.address addr}, {n}): grow in place"
  | moved addr n new => s!"resize({Text.address addr}, {n}) = {Text.address new}"
  | releaseIgnored _ addr => s!"release({Text.address addr}): not a live allocation; ignored"
  | resizeIgnored _ addr n => s!"resize({Text.address addr}, {n}): not a live allocation"
  | corrupt d => "heap corruption: " ++ d.message

/-- The line of the log. -/
def line (e : Event a) : String :=
  e.level.name ++ " " ++ e.message

end Event

end RegionHeap
