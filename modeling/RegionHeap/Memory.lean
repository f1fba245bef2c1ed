import RegionHeap.Word

/-!
# Memory

A memory holds a byte at every address. The bytes of one window lie in an array, where reading and
writing take constant time; all others are given by a function. The window is a matter of speed
only: through `Memory.get` each operation has one law, whichever side the address lies on.

* `get_set`, `get_writeBytes` -- a write changes the written bytes and no other;
* `readBytes_writeBytes` -- what was written is read back;
* `readWord_writeWord`, `readWord_writeWord_of_disjoint` -- the same for words.
-/

namespace RegionHeap

/-- A byte for every address. -/
structure Memory where
  /-- The first address of the window. -/
  start : Nat
  /-- The bytes of the window. -/
  window : ByteArray
  /-- The bytes outside the window. -/
  elsewhere : Nat → UInt8

namespace Memory

/-! ## 1. Single bytes -/

/-- A memory that holds the same byte everywhere, with a window of `size` bytes at `start`. -/
def blank (start size : Nat) (b : UInt8) : Memory :=
  ⟨start, ⟨Array.replicate size b⟩, fun _ => b⟩

/-- The byte at an address. -/
def get (m : Memory) (addr : Nat) : UInt8 :=
  if h : m.start ≤ addr ∧ addr - m.start < m.window.size then
    m.window.get (addr - m.start) h.2
  else
    m.elsewhere addr

/-- Puts a byte at an address. -/
def set (m : Memory) (addr : Nat) (b : UInt8) : Memory :=
  if h : m.start ≤ addr ∧ addr - m.start < m.window.size then
    { m with window := m.window.set (addr - m.start) b h.2 }
  else
    { m with elsewhere := fun x => if x = addr then b else m.elsewhere x }

theorem window_get_set (w : ByteArray) {i j : Nat} (b : UInt8) (hi : i < w.size)
    (hj : j < w.size) (hj' : j < (w.set i b hi).size) :
    (w.set i b hi).get j hj' = if i = j then b else w.get j hj := by
  cases w with
  | mk bytes => exact Array.getElem_set ..

/-- A write of one byte shows at its address and nowhere else. -/
theorem get_set (m : Memory) (addr : Nat) (b : UInt8) (x : Nat) :
    (m.set addr b).get x = if x = addr then b else m.get x := by
  unfold set
  split
  · rename_i hs
    have hsize : (m.window.set (addr - m.start) b hs.2).size = m.window.size := by
      exact Array.size_set ..
    unfold get
    by_cases hx : m.start ≤ x ∧ x - m.start < m.window.size
    · rw [dif_pos (by rwa [hsize]), dif_pos hx]
      rw [window_get_set m.window b hs.2 hx.2]
      by_cases e : x = addr
      · rw [if_pos e, if_pos (by rw [e])]
      · rw [if_neg e, if_neg (by omega)]
    · rw [dif_neg (by rwa [hsize]), dif_neg hx, if_neg (by rintro rfl; exact hx hs)]
  · rename_i hs
    unfold get
    by_cases hx : m.start ≤ x ∧ x - m.start < m.window.size
    · rw [dif_pos hx, dif_pos hx, if_neg (by rintro rfl; exact hs hx)]
    · rw [dif_neg hx, dif_neg hx]

/-! ## 2. Ranges of bytes -/

/-- The `n` bytes from an address on. -/
def readBytes (m : Memory) (addr n : Nat) : List UInt8 :=
  (List.range' addr n).map m.get

/-- Writes bytes from an address on. -/
def writeBytes (m : Memory) (addr : Nat) : List UInt8 → Memory
  | [] => m
  | b :: bs => (m.set addr b).writeBytes (addr + 1) bs

/-- Sets `n` bytes from an address on to one value. -/
def fill (m : Memory) (addr n : Nat) (b : UInt8) : Memory :=
  m.writeBytes addr (List.replicate n b)

/-- Copies `n` bytes; all are read before the first is written, so the ranges may overlap. -/
def copy (m : Memory) (src dst n : Nat) : Memory :=
  m.writeBytes dst (m.readBytes src n)

@[simp] theorem length_readBytes (m : Memory) (addr n : Nat) :
    (m.readBytes addr n).length = n := by
  simp [readBytes]

/-- A write of bytes shows at exactly the addresses that it covers. -/
theorem get_writeBytes (m : Memory) (addr : Nat) (bs : List UInt8) (x : Nat) :
    (m.writeBytes addr bs).get x =
      if addr ≤ x then bs[x - addr]?.getD (m.get x) else m.get x := by
  induction bs generalizing m addr with
  | nil => simp [writeBytes]
  | cons b bs ih =>
    rw [writeBytes, ih, get_set]
    by_cases hx : addr ≤ x
    · by_cases e : x = addr
      · rw [if_neg (by omega), if_pos e, if_pos hx, e, Nat.sub_self]; rfl
      · have h1 : addr + 1 ≤ x := by omega
        have h2 : x - addr = (x - (addr + 1)) + 1 := by omega
        simp [hx, h1, e, h2]
    · have h1 : ¬ addr + 1 ≤ x := by omega
      have e : x ≠ addr := by omega
      simp [hx, h1, e]

theorem get_writeBytes_of_outside {m : Memory} {addr x : Nat} {bs : List UInt8}
    (h : x < addr ∨ addr + bs.length ≤ x) : (m.writeBytes addr bs).get x = m.get x := by
  rw [get_writeBytes]
  split
  · rw [List.getElem?_eq_none (by omega)]; rfl
  · rfl

/-- Two memories give the same bytes on a range if they agree there. -/
theorem readBytes_congr {m m' : Memory} {addr n : Nat}
    (h : ∀ x, addr ≤ x → x < addr + n → m'.get x = m.get x) :
    m'.readBytes addr n = m.readBytes addr n :=
  List.map_congr_left fun x hx => by
    rw [List.mem_range'_1] at hx
    exact h x hx.1 hx.2

/-- What was written is read back. -/
theorem readBytes_writeBytes (m : Memory) (addr : Nat) (bs : List UInt8) :
    (m.writeBytes addr bs).readBytes addr bs.length = bs := by
  apply List.ext_getElem
  · simp
  · intro i _ hi
    simp [readBytes, get_writeBytes, hi]

/-! ## 3. Words -/

/-- The word whose bytes start at an address. -/
def readWord (m : Memory) (addr : Nat) : Nat :=
  Word.ofBytes (m.readBytes addr Word.size)

/-- Writes a word; a number past the last word loses its high bits. -/
def writeWord (m : Memory) (addr v : Nat) : Memory :=
  m.writeBytes addr (Word.toBytes Word.size v)

theorem readWord_congr {m m' : Memory} {addr : Nat}
    (h : ∀ x, addr ≤ x → x < addr + Word.size → m'.get x = m.get x) :
    m'.readWord addr = m.readWord addr := by
  rw [readWord, readWord, readBytes_congr h]

/-- The word just written is read back. -/
theorem readWord_writeWord {m : Memory} {addr v : Nat} (h : v < Word.limit) :
    (m.writeWord addr v).readWord addr = v := by
  have hb := readBytes_writeBytes m addr (Word.toBytes Word.size v)
  rw [Word.length_toBytes] at hb
  rw [readWord, writeWord, hb, Word.ofBytes_toBytes]
  exact Nat.mod_eq_of_lt h

theorem get_writeWord_of_outside {m : Memory} {addr v x : Nat}
    (h : x < addr ∨ addr + Word.size ≤ x) : (m.writeWord addr v).get x = m.get x :=
  get_writeBytes_of_outside (by simpa using h)

/-- A word apart from the written one keeps its value. -/
theorem readWord_writeWord_of_disjoint {m : Memory} {addr addr' v : Nat}
    (h : addr' + Word.size ≤ addr ∨ addr + Word.size ≤ addr') :
    (m.writeWord addr v).readWord addr' = m.readWord addr' :=
  readWord_congr fun x h1 h2 => get_writeWord_of_outside (by omega)

end Memory

end RegionHeap
