import RegionHeap.Word

/-!
# Alignment

A heap is laid out on a grid of eight or sixteen bytes. Headers start on the grid, a header takes
one step of it, and every block size is a multiple of the step, so payloads lie on the grid too.

* `Alignment.alignDown`, `Alignment.alignUp` -- the nearest multiples of the step; rounding up
  past the last word gives the last word, which is no multiple (`alignUp_mod_eq_zero_iff`);
* `Alignment.blockSize?` -- the size of a block for a request, if a word can hold it.
-/

namespace RegionHeap

/-- The grid that headers and payloads lie on. -/
inductive Alignment where
  | eight
  | sixteen
  deriving DecidableEq, Repr

namespace Alignment

/-- The step of the grid, which is also the number of bytes set aside for a header. -/
def bytes : Alignment → Nat
  | eight => 8
  | sixteen => 16

variable {a : Alignment}

theorem bytes_pos : 0 < a.bytes := by cases a <;> decide

theorem wordSize_dvd_bytes : Word.size ∣ a.bytes := by cases a <;> decide

theorem wordSize_le_bytes : Word.size ≤ a.bytes := by cases a <;> decide

/-! ## 1. Rounding -/

/-- The largest multiple of the step that is at most `n`. -/
def alignDown (a : Alignment) (n : Nat) : Nat :=
  n / a.bytes * a.bytes

/-- The least multiple of the step that is at least `n`, or the last word if no word is one. -/
def alignUp (a : Alignment) (n : Nat) : Nat :=
  if n + (a.bytes - 1) < Word.limit then a.alignDown (n + (a.bytes - 1)) else Word.limit - 1

theorem alignDown_le (n : Nat) : a.alignDown n ≤ n := Nat.div_mul_le_self n a.bytes

theorem alignDown_mod (n : Nat) : a.alignDown n % a.bytes = 0 := Nat.mul_mod_left _ _

theorem alignDown_eq_self {n : Nat} (h : n % a.bytes = 0) : a.alignDown n = n :=
  Nat.div_mul_cancel (Nat.dvd_of_mod_eq_zero h)

/-- Rounding up lands on the grid exactly if it did not run out of words. -/
theorem alignUp_mod_eq_zero_iff {n : Nat} :
    a.alignUp n % a.bytes = 0 ↔ n + (a.bytes - 1) < Word.limit := by
  unfold alignUp
  split
  · rename_i h; simp [h, alignDown_mod]
  · rename_i h; cases a <;> simp [bytes, Word.limit] at h ⊢ <;> omega

/-! ## 2. Block sizes -/

/-- The size of the block that serves a request, header included: the payload is at least
    `minPayload` bytes and lies on the grid. Nothing serves a request for no bytes, nor one whose
    block would be larger than a word can say. -/
def blockSize? (a : Alignment) (minPayload request : Nat) : Option Nat :=
  let payload := a.alignUp (max request minPayload)
  if request ≠ 0 ∧ payload % a.bytes = 0 ∧ payload + a.bytes < Word.limit then
    some (payload + a.bytes)
  else
    none

end Alignment

end RegionHeap
