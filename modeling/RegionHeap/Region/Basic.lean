import RegionHeap.Header
import RegionHeap.Memory

/-!
# Regions

A region is the range of memory that a heap may use. Everything in it is named by its offset from
the start, and memory is reached through a region only by checked accesses: an aligned word, a
range of payload bytes to move or to look at.

A region ends below the last address, so an offset that passes the check of an access stands for
an exact address. A sum of offsets that no access checks goes through `Word.add`.

* `word_eq_ok`, `setWord_eq_ok` -- an access to a word of the region is the access to memory;
* `IsHeaderOffset.hasWord` -- where a header can start there is a word to hold it.
-/

namespace RegionHeap

/-- A range of memory on the grid, short of the last address. -/
structure Region (a : Alignment) where
  /-- The address of the first byte. -/
  base : Nat
  /-- The number of bytes. -/
  size : Nat
  base_mod : base % a.bytes = 0
  size_mod : size % a.bytes = 0
  base_add_size_lt : base + size < Word.limit
  deriving DecidableEq, Repr

namespace Region

variable {a : Alignment} {r : Region a} {m : Memory} {off : Nat}

/-! ## 1. Offsets -/

/-- A header fits at the offset. -/
def IsHeaderOffset (r : Region a) (off : Nat) : Prop :=
  off % a.bytes = 0 ∧ off + a.bytes ≤ r.size

/-- An aligned word of the region lies at the offset. -/
def HasWord (r : Region a) (off : Nat) : Prop :=
  off % Word.size = 0 ∧ off + Word.size ≤ r.size

instance (r : Region a) (off : Nat) : Decidable (r.IsHeaderOffset off) :=
  inferInstanceAs (Decidable (_ ∧ _))

instance (r : Region a) (off : Nat) : Decidable (r.HasWord off) :=
  inferInstanceAs (Decidable (_ ∧ _))

theorem IsHeaderOffset.hasWord (h : r.IsHeaderOffset off) : r.HasWord off :=
  ⟨Nat.mod_eq_zero_of_dvd
      (Nat.dvd_trans Alignment.wordSize_dvd_bytes (Nat.dvd_of_mod_eq_zero h.1)),
    Nat.le_trans (Nat.add_le_add_left Alignment.wordSize_le_bytes off) h.2⟩

/-- The address of the byte at an offset. -/
def address (r : Region a) (off : Nat) : Except Fault Nat :=
  Word.add r.base off

/-- The number of bytes from an offset to the end. -/
def room (r : Region a) (off : Nat) : Except Fault Nat :=
  Word.sub r.size off

/-- The address of the payload of the block at an offset. -/
def payload (r : Region a) (off : Nat) : Except Fault Nat :=
  if r.IsHeaderOffset off then .ok (r.base + off + a.bytes) else .error (.badHeaderOffset off)

/-- The offset of the block whose payload would start at an address. -/
def offsetOf? (r : Region a) (addr : Nat) : Option Nat :=
  if r.base + a.bytes ≤ addr ∧ r.IsHeaderOffset (addr - r.base - a.bytes) then
    some (addr - r.base - a.bytes)
  else
    none

theorem room_eq_ok (h : r.IsHeaderOffset off) : r.room off = .ok (r.size - off) :=
  Word.sub_eq_ok (Nat.le_trans (Nat.le_add_right off a.bytes) h.2)

theorem payload_eq_ok (h : r.IsHeaderOffset off) :
    r.payload off = .ok (r.base + off + a.bytes) :=
  if_pos h

/-- The address of a payload leads back to its block. -/
theorem offsetOf?_payload (h : r.IsHeaderOffset off) :
    r.offsetOf? (r.base + off + a.bytes) = some off := by
  have e : r.base + off + a.bytes - r.base - a.bytes = off := by omega
  rw [offsetOf?, e, if_pos ⟨by omega, h⟩]

/-! ## 2. Words -/

/-- The word at an offset. -/
def word (r : Region a) (m : Memory) (off : Nat) : Except Fault Nat :=
  if r.HasWord off then .ok (m.readWord (r.base + off)) else .error (.badWord off)

/-- Writes the word at an offset. -/
def setWord (r : Region a) (m : Memory) (off v : Nat) : Except Fault Memory :=
  if r.HasWord off then .ok (m.writeWord (r.base + off) v) else .error (.badWord off)

/-- The header at an offset. -/
def header (r : Region a) (m : Memory) (off : Nat) : Except Fault (Header a) :=
  (r.word m off).map Header.mk

/-- Writes the header at an offset. -/
def setHeader (r : Region a) (m : Memory) (off : Nat) (h : Header a) : Except Fault Memory :=
  r.setWord m off h.raw

theorem word_eq_ok (h : r.HasWord off) : r.word m off = .ok (m.readWord (r.base + off)) :=
  if_pos h

theorem setWord_eq_ok {v : Nat} (h : r.HasWord off) :
    r.setWord m off v = .ok (m.writeWord (r.base + off) v) :=
  if_pos h

theorem header_eq_ok (h : r.HasWord off) :
    r.header m off = .ok ⟨m.readWord (r.base + off)⟩ := by
  rw [header, word_eq_ok h]; rfl

theorem setHeader_eq_ok {x : Header a} (h : r.HasWord off) :
    r.setHeader m off x = .ok (m.writeWord (r.base + off) x.raw) :=
  setWord_eq_ok h

/-! ## 3. Ranges of bytes -/

/-- The bytes from an offset on. -/
def bytes (r : Region a) (m : Memory) (off len : Nat) : Except Fault (List UInt8) :=
  if off + len ≤ r.size then .ok (m.readBytes (r.base + off) len) else .error (.badRange off len)

/-- Copies the first `len` payload bytes of the block at `src` to the payload of the block at
    `dst`. -/
def copyPayload (r : Region a) (m : Memory) (src dst len : Nat) : Except Fault Memory := do
  unless src + a.bytes + len ≤ r.size do throw (.badRange src len)
  unless dst + a.bytes + len ≤ r.size do throw (.badRange dst len)
  return m.copy (← r.payload src) (← r.payload dst) len

/-- A copy between payloads that lie in the region. -/
theorem copyPayload_eq_ok {src dst len : Nat} (hsrc : r.IsHeaderOffset src)
    (hdst : r.IsHeaderOffset dst) (hsrcend : src + a.bytes + len ≤ r.size)
    (hdstend : dst + a.bytes + len ≤ r.size) :
    r.copyPayload m src dst len =
      .ok (m.copy (r.base + src + a.bytes) (r.base + dst + a.bytes) len) := by
  unfold copyPayload
  simp only [hsrcend, hdstend, payload_eq_ok hsrc, payload_eq_ok hdst, bind, Except.bind, pure,
    Except.pure, if_true]

/-- The region written out as a record. -/
def text (r : Region a) : String :=
  Text.record "Region" [("base", Text.address r.base), ("size", toString r.size)]

end Region

end RegionHeap
