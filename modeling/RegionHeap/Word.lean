import RegionHeap.Fault

/-!
# Machine words

Words are natural numbers below two to the power of 64, and arithmetic on them is that of the
natural numbers with a check on the result:

* `Word.add`, `Word.sub` -- sum and difference, or a fault when the result is no word;
* `Word.toBytes`, `Word.ofBytes` -- the little-endian bytes of a number and back; a number below
  `Word.span w` survives the trip through `w` bytes (`ofBytes_toBytes`), and bytes survive the trip
  through a number (`toBytes_ofBytes`).
-/

namespace RegionHeap.Word

/-! ## 1. Checked arithmetic -/

/-- The number of bytes in a word. -/
def size : Nat := 8

/-- How many numbers `w` bytes can tell apart. -/
def span : Nat → Nat
  | 0 => 1
  | w + 1 => 256 * span w

/-- The number of words: every word is below it. -/
def limit : Nat := 18446744073709551616

/-- The sum of two words, which must be a word again. -/
def add (m n : Nat) : Except Fault Nat :=
  if m + n < limit then .ok (m + n) else .error (.overflow m n)

/-- The difference of two words, the second of which must not exceed the first. -/
def sub (m n : Nat) : Except Fault Nat :=
  if n ≤ m then .ok (m - n) else .error (.underflow m n)

theorem add_eq_ok {m n : Nat} (h : m + n < limit) : add m n = .ok (m + n) := by
  simp [add, h]

theorem sub_eq_ok {m n : Nat} (h : n ≤ m) : sub m n = .ok (m - n) := by
  simp [sub, h]

/-! ## 2. Bytes -/

/-- The lowest `w` bytes of a number, the least significant one first. -/
def toBytes : Nat → Nat → List UInt8
  | 0, _ => []
  | w + 1, n => UInt8.ofNat n :: toBytes w (n / 256)

/-- The number with the given bytes, the least significant one first. -/
def ofBytes : List UInt8 → Nat
  | [] => 0
  | b :: bs => b.toNat + 256 * ofBytes bs

@[simp] theorem length_toBytes (w n : Nat) : (toBytes w n).length = w := by
  induction w generalizing n with
  | zero => rfl
  | succ w ih => simp [toBytes, ih]

/-- The lowest bytes keep a number up to what they can tell apart. -/
theorem ofBytes_toBytes (w n : Nat) : ofBytes (toBytes w n) = n % span w := by
  induction w generalizing n with
  | zero => rw [toBytes, ofBytes, span, Nat.mod_one]
  | succ w ih =>
    have hb : (UInt8.ofNat n).toNat = n % 256 := by simp
    rw [toBytes, ofBytes, ih, hb, span, Nat.mod_mul]

/-- Bytes survive the trip through a number. -/
theorem toBytes_ofBytes (bs : List UInt8) : toBytes bs.length (ofBytes bs) = bs := by
  induction bs with
  | nil => rfl
  | cons b bs ih =>
    have hb : b.toNat < 256 := b.toNat_lt
    have hlow : UInt8.ofNat (b.toNat + 256 * ofBytes bs) = b := by
      refine UInt8.toNat_inj.mp ?_
      rw [UInt8.toNat_ofNat']
      omega
    have hhigh : (b.toNat + 256 * ofBytes bs) / 256 = ofBytes bs := by omega
    rw [ofBytes, List.length_cons, toBytes, hlow, hhigh, ih]

/-- Numbers that differ in their lowest byte only share all other bytes. -/
theorem getElem?_toBytes_succ {w n n' : Nat} (k : Nat) (h : n / 256 = n' / 256) :
    (toBytes (w + 1) n)[k + 1]? = (toBytes (w + 1) n')[k + 1]? := by
  rw [toBytes, toBytes, h, List.getElem?_cons_succ, List.getElem?_cons_succ]

end RegionHeap.Word
