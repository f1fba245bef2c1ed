import Mathlib.Algebra.Order.Floor.Div
import Mathlib.Order.Bounds.Basic
import RegionHeap.Alignment

/-!
# Rounding and block sizes, exactly

Sizes are computed in words, and near the last word there are three outcomes: the block of a request
fits into a word, or only its payload does, or not even that. A size that lost its high bits would
give a small block to a large request. Here it is said what the sizes are in the unbounded integers,
and that the arithmetic of a machine, whose sums wrap around and whose roundings clear bits, comes to
the same numbers.

* `isLeast_alignUp`, `alignUp_exact` -- rounding up gives the least word of the grid there is, from
  which it follows that it is monotone and changes nothing the second time;
* `blockSize?_eq_some_iff` -- a request is served by the block of its exact size, if that is a word;
* `toNat_alignUpBits`, `map_blockSizeBits?` -- the same in the bits of a machine word;
* `sizes_exact` -- all of it.
-/

namespace RegionHeap.Alignment

variable {a : Alignment} {n k minPayload size : Nat}

/-! ## 1. Rounding up -/

/-- Rounding up gives at least the number, unless it ran out of words. -/
theorem le_alignUp (h : a.alignUp n % a.bytes = 0) : n ≤ a.alignUp n := by
  have hword := alignUp_mod_eq_zero_iff.mp h
  rw [alignUp, if_pos hword]
  cases a <;> simp only [alignDown, bytes] <;> omega

/-- Rounding up gives at most any number of the grid that is large enough. -/
theorem alignUp_le (h : n ≤ k) (hk : k % a.bytes = 0)
    (hword : n + (a.bytes - 1) < Word.limit) : a.alignUp n ≤ k := by
  rw [alignUp, if_pos hword]
  cases a <;> simp only [alignDown, bytes] at hk ⊢ <;> omega

/-- The words of the grid that are at least `n`. -/
def atLeast (a : Alignment) (n : Nat) : Set Nat :=
  {k | k < Word.limit ∧ a.bytes ∣ k ∧ n ≤ k}

theorem alignUp_lt (a : Alignment) (n : Nat) : a.alignUp n < Word.limit := by
  unfold alignUp
  split
  · rename_i h
    exact Nat.lt_of_le_of_lt (alignDown_le _) h
  · decide

/-- Rounding up gives the least word of the grid, as long as it does not run out of words. -/
theorem isLeast_alignUp (hword : n + (a.bytes - 1) < Word.limit) :
    IsLeast (a.atLeast n) (a.alignUp n) := by
  have hmod := alignUp_mod_eq_zero_iff.mpr hword
  refine ⟨⟨a.alignUp_lt n, Nat.dvd_of_mod_eq_zero hmod, le_alignUp hmod⟩, fun k hk => ?_⟩
  obtain ⟨-, hdvd, hle⟩ := hk
  exact alignUp_le hle (Nat.mod_eq_zero_of_dvd hdvd) hword

/-- Where rounding up runs out of words there is no word of the grid left. -/
theorem atLeast_eq_empty (hword : ¬ n + (a.bytes - 1) < Word.limit) : a.atLeast n = ∅ := by
  refine Set.eq_empty_of_forall_notMem fun k hk => ?_
  obtain ⟨hlt, hdvd, hle⟩ := hk
  -- the number of words is on the grid, so the last word that is lies a whole step below it
  cases a <;> simp only [bytes, Word.limit] at hword hlt hdvd <;> omega

/-- **Rounding up gives the least word of the grid that is large enough**, and the last word if there
    is none. -/
theorem alignUp_exact (a : Alignment) (n : Nat) :
    IsLeast (a.atLeast n) (a.alignUp n) ∨
      a.atLeast n = ∅ ∧ a.alignUp n = Word.limit - 1 := by
  by_cases hword : n + (a.bytes - 1) < Word.limit
  · exact .inl (isLeast_alignUp hword)
  · exact .inr ⟨atLeast_eq_empty hword, if_neg hword⟩

theorem monotone_alignUp (a : Alignment) : Monotone a.alignUp := by
  intro n n' hle
  rcases a.alignUp_exact n' with hleast' | ⟨-, hlast'⟩
  · -- what is large enough for `n'` is so for `n`
    have hmem : a.alignUp n' ∈ a.atLeast n :=
      ⟨hleast'.1.1, hleast'.1.2.1, Nat.le_trans hle hleast'.1.2.2⟩
    rcases a.alignUp_exact n with hleast | ⟨hempty, -⟩
    · exact hleast.2 hmem
    · rw [hempty] at hmem
      exact absurd hmem (Set.notMem_empty _)
  · rw [hlast']
    exact Nat.le_pred_of_lt (a.alignUp_lt n)

/-- Rounding up twice is rounding up once. -/
theorem alignUp_alignUp (a : Alignment) (n : Nat) : a.alignUp (a.alignUp n) = a.alignUp n := by
  rcases a.alignUp_exact n with hleast | ⟨-, hlast⟩
  · have hself : IsLeast (a.atLeast (a.alignUp n)) (a.alignUp n) :=
      ⟨⟨hleast.1.1, hleast.1.2.1, Nat.le_refl _⟩, fun k hk => hk.2.2⟩
    rcases a.alignUp_exact (a.alignUp n) with hleast' | ⟨hempty, -⟩
    · exact hleast'.unique hself
    · rw [hempty] at hself
      exact absurd hself.1 (Set.notMem_empty _)
  · rw [hlast]
    exact if_neg (by cases a <;> decide)

/-! ## 2. Block sizes -/

/-- The size of the block for a request in the unbounded integers: a header, and as many steps of the
    grid as the payload takes up. -/
def exactSize (a : Alignment) (minPayload n : Nat) : Nat :=
  a.bytes + a.bytes * (max n minPayload ⌈/⌉ a.bytes)

theorem alignUp_eq_mul_ceilDiv (hword : n + (a.bytes - 1) < Word.limit) :
    a.alignUp n = a.bytes * (n ⌈/⌉ a.bytes) := by
  rw [alignUp, if_pos hword, alignDown, Nat.ceilDiv_eq_add_pred_div, Nat.mul_comm,
    Nat.add_sub_assoc a.bytes_pos]

/-- The exact size has room for the header, the smallest payload and the bytes asked for. -/
theorem le_exactSize (a : Alignment) (minPayload n : Nat) :
    a.bytes + max n minPayload ≤ a.exactSize minPayload n :=
  Nat.add_le_add_left ((ceilDiv_le_iff_le_mul a.bytes_pos).mp (Nat.le_refl _)) a.bytes

/-- A size on the grid that has room for all of it is at least the exact one. -/
theorem exactSize_le (hfit : a.bytes + max n minPayload ≤ size) (hmod : size % a.bytes = 0) :
    a.exactSize minPayload n ≤ size := by
  obtain ⟨q, hq⟩ := Nat.dvd_of_mod_eq_zero hmod
  have hrest : a.bytes * (q - 1) = size - a.bytes := by
    rw [Nat.mul_sub, Nat.mul_one, hq]
  have hceil : max n minPayload ⌈/⌉ a.bytes ≤ q - 1 := by
    refine (ceilDiv_le_iff_le_mul a.bytes_pos).mpr ?_
    omega
  have hle := Nat.mul_le_mul_left a.bytes hceil
  unfold exactSize
  omega

theorem exactSize_mod (a : Alignment) (minPayload n : Nat) :
    a.exactSize minPayload n % a.bytes = 0 := by
  rw [exactSize, Nat.add_mul_mod_self_left, Nat.mod_self]

/-- **A request is served by the block of its exact size**, if a word can say it; only a request for
    no bytes is refused besides. -/
theorem blockSize?_eq_some_iff :
    a.blockSize? minPayload n = some size ↔
      0 < n ∧ a.exactSize minPayload n < Word.limit ∧ size = a.exactSize minPayload n := by
  dsimp only [blockSize?]
  by_cases hword : max n minPayload + (a.bytes - 1) < Word.limit
  · have hexact : a.alignUp (max n minPayload) + a.bytes = a.exactSize minPayload n := by
      rw [alignUp_eq_mul_ceilDiv hword, Nat.add_comm, exactSize]
    have hmod := alignUp_mod_eq_zero_iff.mpr hword
    rw [hexact, Option.ite_none_right_eq_some, Option.some.injEq, eq_comm (a := size),
      Nat.pos_iff_ne_zero, and_assoc, and_assoc]
    exact and_congr_right fun _ => and_iff_right hmod
  · -- the payload ran out of words, which its low bits show, and the exact size is larger still
    have hmod := mt alignUp_mod_eq_zero_iff.mp hword
    have hle := a.le_exactSize minPayload n
    rw [if_neg fun h => hmod h.2.1]
    constructor
    · intro h
      cases h
    · intro h
      omega

/-- The last request that is served, the last one whose payload is a word, and one whose payload is
    none. -/
example : eight.blockSize? 8 (Word.limit - 16) = some (Word.limit - 8) ∧
    eight.blockSize? 8 (Word.limit - 8) = none ∧ eight.blockSize? 8 (Word.limit - 7) = none := by
  decide

/-- What is known of the size of a block that serves a request. -/
theorem blockSize?_bounds (h : a.blockSize? minPayload n = some size) :
    size % a.bytes = 0 ∧ a.bytes + minPayload ≤ size ∧ n ≤ size - a.bytes := by
  obtain ⟨-, -, rfl⟩ := blockSize?_eq_some_iff.mp h
  have hle := a.le_exactSize minPayload n
  exact ⟨a.exactSize_mod minPayload n, by omega, by omega⟩

/-! ## 3. Machine words -/

/-- The step of the grid as a machine word. -/
def stepBits : Alignment → UInt64
  | eight => 8
  | sixteen => 16

/-- The bits of a word that stand for less than a step. -/
def lowBits (a : Alignment) : UInt64 :=
  a.stepBits - 1

/-- Rounding up in machine words: the low bits are added where the sum cannot wrap around, and then
    cleared. -/
def alignUpBits (a : Alignment) (n : UInt64) : UInt64 :=
  if ~~~0 - a.lowBits < n then ~~~0 else (n + a.lowBits) &&& ~~~a.lowBits

/-- The size of a block in machine words: a payload that ran out of words shows in its low bits, and
    a sum that wrapped around in that it is smaller than what was added to. -/
def blockSizeBits? (a : Alignment) (minPayload n : UInt64) : Option UInt64 :=
  let payload := a.alignUpBits (max n minPayload)
  if n ≠ 0 ∧ payload &&& a.lowBits = 0 ∧ payload ≤ payload + a.stepBits then
    some (payload + a.stepBits)
  else
    none

theorem toNat_stepBits (a : Alignment) : a.stepBits.toNat = a.bytes := by
  cases a <;> rfl

theorem toNat_lowBits (a : Alignment) : a.lowBits.toNat = a.bytes - 1 := by
  cases a <;> rfl

/-- The bits that a mask keeps and the bits that it clears make up the word. -/
theorem toNat_and_add_toNat_and_not (w mask : UInt64) :
    (w &&& mask).toNat + (w &&& ~~~mask).toNat = w.toNat := by
  have hdisjoint : (w.toBitVec &&& mask.toBitVec) &&& (w.toBitVec &&& ~~~mask.toBitVec) = 0 := by
    ext i
    simp only [BitVec.getElem_and, BitVec.getElem_not]
    cases w.toBitVec[i] <;> cases mask.toBitVec[i] <;> simp
  have hjoin : (w.toBitVec &&& mask.toBitVec) ||| (w.toBitVec &&& ~~~mask.toBitVec) = w.toBitVec := by
    ext i
    simp only [BitVec.getElem_or, BitVec.getElem_and, BitVec.getElem_not]
    cases w.toBitVec[i] <;> cases mask.toBitVec[i] <;> rfl
  rw [← BitVec.add_eq_or_of_and_eq_zero _ _ hdisjoint] at hjoin
  have hsum := BitVec.toNat_add_of_and_eq_zero hdisjoint
  rw [hjoin] at hsum
  exact hsum.symm

theorem toNat_and_lowBits (a : Alignment) (w : UInt64) :
    (w &&& a.lowBits).toNat = w.toNat % a.bytes := by
  rw [UInt64.toNat_and]
  cases a with
  | eight => exact Nat.and_two_pow_sub_one_eq_mod w.toNat 3
  | sixteen => exact Nat.and_two_pow_sub_one_eq_mod w.toNat 4

/-- Clearing the low bits rounds down. -/
theorem toNat_and_not_lowBits (a : Alignment) (w : UInt64) :
    (w &&& ~~~a.lowBits).toNat = a.alignDown w.toNat := by
  have hparts := toNat_and_add_toNat_and_not w a.lowBits
  have hdiv := Nat.div_add_mod' w.toNat a.bytes
  rw [toNat_and_lowBits] at hparts
  unfold alignDown
  omega

/-- A sum that wraps around is smaller than what the step was added to. -/
theorem le_add_stepBits_iff {w : UInt64} :
    w ≤ w + a.stepBits ↔ w.toNat + a.bytes < Word.limit := by
  have hlt := w.toNat_lt
  rw [UInt64.le_iff_toNat_le, UInt64.toNat_add, toNat_stepBits]
  cases a <;> simp only [bytes, Word.limit] <;> omega

/-- **Rounding up in machine words does not wrap around.** -/
theorem toNat_alignUpBits (a : Alignment) (n : UInt64) :
    (a.alignUpBits n).toNat = a.alignUp n.toNat := by
  have hpos := a.bytes_pos
  have hbytes : a.bytes < Word.limit := by cases a <;> decide
  have hlt : n.toNat < Word.limit := n.toNat_lt
  have hroom : (~~~0 - a.lowBits).toNat = Word.limit - a.bytes := by cases a <;> rfl
  have hcheck : ~~~0 - a.lowBits < n ↔ ¬ n.toNat + (a.bytes - 1) < Word.limit := by
    rw [UInt64.lt_iff_toNat_lt, hroom]
    omega
  unfold alignUpBits alignUp
  by_cases hword : n.toNat + (a.bytes - 1) < Word.limit
  · have hsum : (n + a.lowBits).toNat = n.toNat + (a.bytes - 1) := by
      rw [UInt64.toNat_add, toNat_lowBits]
      exact Nat.mod_eq_of_lt hword
    rw [if_pos hword, if_neg (not_not.mpr hword ∘ hcheck.mp), toNat_and_not_lowBits, hsum]
  · rw [if_neg hword, if_pos (hcheck.mpr hword)]
    rfl

/-- **Block sizes in machine words do not wrap around.** -/
theorem map_blockSizeBits? (a : Alignment) (minPayload n : UInt64) :
    (a.blockSizeBits? minPayload n).map UInt64.toNat =
      a.blockSize? minPayload.toNat n.toNat := by
  have hpayload : (a.alignUpBits (max n minPayload)).toNat =
      a.alignUp (max n.toNat minPayload.toNat) := by
    rw [toNat_alignUpBits, UInt64.toNat_max]
  have hzero : n ≠ 0 ↔ n.toNat ≠ 0 := not_congr UInt64.toNat_inj.symm
  have hlow : a.alignUpBits (max n minPayload) &&& a.lowBits = 0 ↔
      a.alignUp (max n.toNat minPayload.toNat) % a.bytes = 0 := by
    rw [← UInt64.toNat_inj, toNat_and_lowBits, hpayload]
    rfl
  dsimp only [blockSizeBits?, blockSize?]
  simp only [hzero, hlow, le_add_stepBits_iff, hpayload]
  split
  · rename_i h
    rw [Option.map_some, UInt64.toNat_add, hpayload, toNat_stepBits]
    exact congrArg some (Nat.mod_eq_of_lt h.2.2)
  · rfl

/-! ## 4. Sizes -/

/-- **Sizes are exact and never wrap around.** Rounding up gives the least word of the grid that is
    large enough, and the last word if there is none; so it is monotone, and a second time it changes
    nothing. A request is served by the block of its exact size if and only if it is for some bytes
    and that size is a word; the size is on the grid and has room for a header, the smallest payload
    and the bytes asked for. A machine that adds with wrap-around and clears bits computes these
    numbers. -/
theorem sizes_exact (a : Alignment) :
    (∀ n, IsLeast (a.atLeast n) (a.alignUp n) ∨
        a.atLeast n = ∅ ∧ a.alignUp n = Word.limit - 1) ∧
      Monotone a.alignUp ∧ (∀ n, a.alignUp (a.alignUp n) = a.alignUp n) ∧
      (∀ minPayload n size, a.blockSize? minPayload n = some size ↔
        0 < n ∧ a.exactSize minPayload n < Word.limit ∧ size = a.exactSize minPayload n) ∧
      (∀ minPayload n, ∀ size ∈ a.blockSize? minPayload n,
        size % a.bytes = 0 ∧ a.bytes + minPayload ≤ size ∧ n ≤ size - a.bytes) ∧
      (∀ n : UInt64, (a.alignUpBits n).toNat = a.alignUp n.toNat) ∧
      ∀ minPayload n : UInt64, (a.blockSizeBits? minPayload n).map UInt64.toNat =
        a.blockSize? minPayload.toNat n.toNat :=
  ⟨a.alignUp_exact, a.monotone_alignUp, a.alignUp_alignUp,
    fun _ _ _ => blockSize?_eq_some_iff, fun _ _ _ h => blockSize?_bounds h,
    a.toNat_alignUpBits, a.map_blockSizeBits?⟩

end RegionHeap.Alignment
