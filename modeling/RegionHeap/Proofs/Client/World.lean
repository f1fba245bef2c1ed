import Mathlib.Logic.Function.Basic
import RegionHeap.Snapshot.Basic

/-!
# Clients

A client owns a heap and shares memory with it. It may ask the heap for anything, with any arguments;
it may write to the payloads of its live allocations and to memory outside the region, and a write
that would go elsewhere is refused.

* `World` -- a heap and the memory around it;
* `Request`, `World.serve` -- what a heap can be asked for, and what it does;
* `Action`, `World.perform`, `World.run` -- what a client can do, and any number of actions in a row;
* `World.serve_allocate` and the like, `World.run_cons` -- the step that an operation makes;
* `Ledger` -- what a client that notes down its requests takes to be live.
-/

namespace RegionHeap

/-! ## 1. Requests -/

/-- A heap and the memory around it. -/
structure World (a : Alignment) where
  /-- The heap. -/
  heap : Heap a
  /-- The memory that the heap and its client share. -/
  memory : Memory

/-- What a heap can be asked for. -/
inductive Request where
  /-- An allocation of `n` bytes. -/
  | allocate (n : Nat)
  /-- The release of an allocation. -/
  | release (addr : Nat)
  /-- Another size for an allocation, or a new one. -/
  | resize (addr? : Option Nat) (n : Nat)
  /-- The number of usable bytes of an allocation. -/
  | usableSize (addr : Nat)
  /-- A check of the heap's structure. -/
  | validate
  /-- The snapshot, for a writer with so much room. -/
  | dump (room : Option Nat)
  deriving DecidableEq, Repr

/-- The address that the heap is to release or to resize. -/
def Request.subject? : Request → Option Nat
  | release addr => some addr
  | resize addr? _ => addr?
  | _ => none

/-- The number of bytes that a request asks for. -/
def Request.bytes : Request → Nat
  | allocate n => n
  | resize _ n => n
  | _ => 0

/-- What a client is told. -/
inductive Answer (a : Alignment) where
  /-- A range has become the region, or it has not. -/
  | claim (result : Except ClaimError Unit)
  /-- The address of a payload, or none. -/
  | address (addr? : Option Nat)
  /-- The number of usable bytes, if the address names a live allocation. -/
  | usable (n? : Option Nat)
  /-- What a validation has found. -/
  | verdict (v : Verdict a)
  /-- What a writer took of a snapshot. -/
  | snapshot (w : Snapshot.Written)
  /-- It is done. -/
  | done
  /-- The client may not write there. -/
  | refused

/-- The address that is answered. -/
def Answer.address? {a : Alignment} : Answer a → Option Nat
  | address addr? => addr?
  | _ => none

namespace World

variable {a : Alignment}

/-- A world before the first region, with anything in memory. -/
def fresh (s : Strategy) (m : Memory) : World a :=
  ⟨.empty s, m⟩

/-- The heap serves a request. -/
def serve (w : World a) : Request → Except Fault (World a × Answer a)
  | .allocate n => (w.heap.allocate w.memory n).map fun o => (⟨o.heap, o.memory⟩, .address o.value)
  | .release addr => (w.heap.release w.memory addr).map fun o => (⟨o.heap, o.memory⟩, .done)
  | .resize addr? n =>
    (w.heap.resize w.memory addr? n).map fun o => (⟨o.heap, o.memory⟩, .address o.value)
  | .usableSize addr => (w.heap.usableSize w.memory addr).map fun n? => (w, .usable n?)
  | .validate => (w.heap.validate w.memory).map fun v => (w, .verdict v)
  | .dump room => (w.heap.dump w.memory room).map fun text => (w, .snapshot text)

end World

/-! ## 2. Actions -/

/-- What a client can do. -/
inductive Action where
  /-- Hand a range of memory to the heap, as its first region or as another one. -/
  | init (addr len : Nat)
  /-- Ask the heap for something. -/
  | request (q : Request)
  /-- Write to the allocation at an address, behind its first bytes. -/
  | store (addr skip : Nat) (bytes : List UInt8)
  /-- Write to memory that is not the heap's. -/
  | elsewhere (addr : Nat) (bytes : List UInt8)
  deriving DecidableEq, Repr

namespace World

variable {a : Alignment}

/-- The client may write the bytes at an address without touching the region. -/
def Outside (w : World a) (addr len : Nat) : Prop :=
  ∀ r ∈ w.heap.region, addr + len ≤ r.base ∨ r.base + r.size ≤ addr

instance (w : World a) (addr len : Nat) : Decidable (w.Outside addr len) :=
  inferInstanceAs (Decidable (∀ r ∈ w.heap.region, _))

/-- The client writes bytes. -/
def write (w : World a) (addr : Nat) (bytes : List UInt8) : World a :=
  { w with memory := w.memory.writeBytes addr bytes }

/-- The client acts. -/
def perform (w : World a) : Action → Except Fault (World a × Answer a)
  | .init addr len =>
    (w.heap.init w.memory addr len).map fun o => (⟨o.heap, o.memory⟩, .claim o.value)
  | .request q => w.serve q
  | .store addr skip bytes => do
    let some usable ← w.heap.usableSize w.memory addr | return (w, .refused)
    if skip + bytes.length ≤ usable then
      return (w.write (addr + skip) bytes, .done)
    else
      return (w, .refused)
  | .elsewhere addr bytes =>
    if w.Outside addr bytes.length then
      return (w.write addr bytes, .done)
    else
      return (w, .refused)

/-- The client acts as often as it likes. What it did and was told is the trace of the run. -/
def run (w : World a) : List Action → Except Fault (World a × List (Action × Answer a))
  | [] => return (w, [])
  | act :: acts => do
    let (w', answer) ← w.perform act
    let (w'', trace) ← w'.run acts
    return (w'', (act, answer) :: trace)

/-! ## 3. Steps whose parts are known -/

section

variable {w w' w'' : World a} {addr len skip n : Nat} {addr? usable? : Option Nat}
  {bytes : List UInt8}

theorem serve_allocate {o : Outcome a (Heap a) (Option Nat)}
    (h : w.heap.allocate w.memory n = .ok o) :
    w.serve (.allocate n) = .ok (⟨o.heap, o.memory⟩, .address o.value) := by
  rw [serve, h]
  rfl

theorem serve_release {o : Outcome a (Heap a) Unit} (h : w.heap.release w.memory addr = .ok o) :
    w.serve (.release addr) = .ok (⟨o.heap, o.memory⟩, .done) := by
  rw [serve, h]
  rfl

theorem serve_resize {o : Outcome a (Heap a) (Option Nat)}
    (h : w.heap.resize w.memory addr? n = .ok o) :
    w.serve (.resize addr? n) = .ok (⟨o.heap, o.memory⟩, .address o.value) := by
  rw [serve, h]
  rfl

theorem serve_usableSize (h : w.heap.usableSize w.memory addr = .ok usable?) :
    w.serve (.usableSize addr) = .ok (w, .usable usable?) := by
  rw [serve, h]
  rfl

theorem serve_validate {v : Verdict a} (h : w.heap.validate w.memory = .ok v) :
    w.serve .validate = .ok (w, .verdict v) := by
  rw [serve, h]
  rfl

theorem serve_dump {room : Option Nat} {text : Snapshot.Written}
    (h : w.heap.dump w.memory room = .ok text) :
    w.serve (.dump room) = .ok (w, .snapshot text) := by
  rw [serve, h]
  rfl

theorem perform_init {o : Outcome a (Heap a) (Except ClaimError Unit)}
    (h : w.heap.init w.memory addr len = .ok o) :
    w.perform (.init addr len) = .ok (⟨o.heap, o.memory⟩, .claim o.value) := by
  rw [perform, h]
  rfl

/-- A write to an allocation is done if there is room for it. -/
theorem perform_store (h : w.heap.usableSize w.memory addr = .ok usable?) :
    w.perform (.store addr skip bytes) =
      if ∃ u ∈ usable?, skip + bytes.length ≤ u then .ok (w.write (addr + skip) bytes, .done)
      else .ok (w, .refused) := by
  rw [perform, h]
  cases usable? <;> simp [bind, Except.bind, pure, Except.pure]

theorem run_cons {act : Action} {acts : List Action} {answer : Answer a}
    {trace : List (Action × Answer a)} (hstep : w.perform act = .ok (w', answer))
    (hrun : w'.run acts = .ok (w'', trace)) :
    w.run (act :: acts) = .ok (w'', (act, answer) :: trace) := by
  simp only [run, hstep, hrun, bind, Except.bind]
  rfl

end

end World

/-! ## 4. Ledgers -/

/-- The number of bytes last asked for at each live address, as the client has noted it down. -/
abbrev Ledger := Nat → Option Nat

namespace Ledger

variable {a : Alignment}

/-- Nothing is live. -/
def blank : Ledger := fun _ => none

/-- `n` bytes are live at an address. -/
def enter (L : Ledger) (addr n : Nat) : Ledger := Function.update L addr (some n)

/-- Nothing is live at the address any more, if there was one. -/
def strike (L : Ledger) : Option Nat → Ledger
  | none => L
  | some addr => Function.update L addr none

/-- What a client notes down of an action and the address that was answered. A new region empties the
    ledger, even when it was refused. -/
def note (L : Ledger) : Action → (answered : Option Nat) → Ledger
  | .init .., _ => blank
  | .request (.allocate n), some new => L.enter new n
  | .request (.resize addr? n), some new => (L.strike addr?).enter new n
  | .request (.resize (some addr) 0), none => L.strike (some addr)
  | .request (.release addr), _ => L.strike (some addr)
  | _, _ => L

/-- The ledger after a run. -/
def after (L : Ledger) (trace : List (Action × Answer a)) : Ledger :=
  trace.foldl (fun L entry => L.note entry.1 entry.2.address?) L

end Ledger

end RegionHeap
