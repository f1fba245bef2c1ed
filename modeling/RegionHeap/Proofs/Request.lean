import RegionHeap.Proofs.Rounding
import RegionHeap.Strategy

/-!
# Sizes of requests

The block that serves a request lies on the grid, and its payload holds both the bytes asked for and
the smallest payload.

* `Strategy.blockSize?_spec` -- what is known of the size of a block that serves a request;
* `Strategy.blockSize?_of_le` -- a block that has the bytes is large enough to serve the request;
* `Strategy.Fits` -- a block serves a request and was cut down to it; how large it then is, is said
  in numbers by `Strategy.blockFor` (`Fits.blockFor_le`, `Fits.lt_blockFor`).
-/

namespace RegionHeap

/-! ## 1. Requests -/

namespace Alignment

variable {a : Alignment} {n : Nat}

/-- Nothing serves a request for no bytes. -/
theorem ne_zero_of_blockSize? {minPayload need : Nat} (h : a.blockSize? minPayload n = some need) :
    n ≠ 0 :=
  Nat.pos_iff_ne_zero.mp (blockSize?_eq_some_iff.mp h).1

/-- A step of the grid can be added before rounding down or after. -/
theorem alignDown_add_bytes (a : Alignment) (n : Nat) :
    a.alignDown (n + a.bytes) = a.alignDown n + a.bytes := by
  unfold alignDown
  rw [Nat.add_div_right n a.bytes_pos, Nat.succ_mul]

end Alignment

/-! ## 2. Sizes of blocks -/

namespace Strategy

variable {a : Alignment} {s : Strategy} {n need : Nat}

/-- What is known of the size of a block for a request. -/
structure Serves (a : Alignment) (s : Strategy) (n need : Nat) : Prop where
  mod : need % a.bytes = 0
  minBlock_le : s.minBlock a ≤ need
  payload_le : n + a.bytes ≤ need

theorem blockSize?_spec (h : a.blockSize? (s.minPayload a) n = some need) : s.Serves a n need := by
  have hpos := a.bytes_pos
  obtain ⟨hmod, hmin, hle⟩ := Alignment.blockSize?_bounds h
  exact ⟨hmod, hmin, by omega⟩

/-- **A block that has the bytes asked for serves the request**, or a smaller one does. -/
theorem blockSize?_of_le {size : Nat} (hn : n ≠ 0) (hfit : n + a.bytes ≤ size)
    (hmod : size % a.bytes = 0) (hmin : s.minBlock a ≤ size) (hword : size < Word.limit) :
    ∃ need, a.blockSize? (s.minPayload a) n = some need ∧ need ≤ size := by
  have hle : a.exactSize (s.minPayload a) n ≤ size := by
    refine Alignment.exactSize_le ?_ hmod
    unfold minBlock at hmin
    omega
  exact ⟨_, Alignment.blockSize?_eq_some_iff.mpr
    ⟨Nat.pos_of_ne_zero hn, Nat.lt_of_le_of_lt hle hword, rfl⟩, hle⟩

/-! ## 3. Blocks that were cut down -/

/-- The size of the smallest block that serves a request for `n` bytes: the header and a payload
    that is not too small, rounded up to the grid. -/
def blockFor (a : Alignment) (s : Strategy) (n : Nat) : Nat :=
  a.alignDown (a.bytes + max n (s.minPayload a) + (a.bytes - 1))

/-- A block that is made for a request is as large as it has to be. -/
theorem blockSize?_eq_blockFor {size : Nat} (h : a.blockSize? (s.minPayload a) n = some size) :
    size = s.blockFor a n := by
  obtain ⟨-, -, rfl⟩ := Alignment.blockSize?_eq_some_iff.mp h
  have hpos := a.bytes_pos
  have hsum : a.bytes + max n (s.minPayload a) + (a.bytes - 1) =
      max n (s.minPayload a) + a.bytes - 1 + a.bytes := by omega
  rw [blockFor, hsum, Alignment.alignDown_add_bytes, Alignment.exactSize, Nat.add_comm,
    Nat.ceilDiv_eq_add_pred_div, Nat.mul_comm]
  rfl

/-- A block of `size` bytes was cut down to `need`: what it has besides could not be a block. -/
structure Snug (a : Alignment) (s : Strategy) (need size : Nat) : Prop where
  le : need ≤ size
  lt : size < need + s.minBlock a

/-- A block of `size` bytes serves a request for `n` bytes and was cut down to it. -/
def Fits (a : Alignment) (s : Strategy) (n size : Nat) : Prop :=
  ∃ need, a.blockSize? (s.minPayload a) n = some need ∧ s.Snug a need size

namespace Fits

variable {size : Nat}

theorem payload_le (h : s.Fits a n size) : n + a.bytes ≤ size := by
  obtain ⟨need, hneed, hsnug⟩ := h
  exact Nat.le_trans (blockSize?_spec hneed).payload_le hsnug.le

theorem blockFor_le (h : s.Fits a n size) : s.blockFor a n ≤ size := by
  obtain ⟨need, hneed, hsnug⟩ := h
  exact blockSize?_eq_blockFor hneed ▸ hsnug.le

theorem lt_blockFor (h : s.Fits a n size) : size < s.blockFor a n + s.minBlock a := by
  obtain ⟨need, hneed, hsnug⟩ := h
  exact blockSize?_eq_blockFor hneed ▸ hsnug.lt

end Fits

/-- **Every block fits a request for all its bytes.** -/
theorem fits_usable {size : Nat} (hmod : size % a.bytes = 0) (hmin : s.minBlock a ≤ size)
    (hword : size < Word.limit) : s.Fits a (size - a.bytes) size := by
  have hpos := a.bytes_pos
  have hpayload := s.bytes_le_minPayload a
  unfold minBlock at hmin
  have hbytes : size - a.bytes + a.bytes = size := Nat.sub_add_cancel (by omega)
  obtain ⟨need, hneed, hle⟩ :=
    blockSize?_of_le (n := size - a.bytes) (by omega) (Nat.le_of_eq hbytes) hmod hmin hword
  have hge := (blockSize?_spec hneed).payload_le
  refine ⟨need, hneed, hle, ?_⟩
  unfold minBlock
  omega

end Strategy

end RegionHeap
