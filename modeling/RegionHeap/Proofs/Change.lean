import RegionHeap.Memory

/-!
# What a change of memory leaves alone

An operation on a heap is a handful of writes. What matters to everything else in memory is where
they may fall, so a change is described by a set of addresses outside of which it shows nothing.

* `AgreeOutside` -- two memories that differ only inside a set of addresses; changes compose;
* `AgreeOutside.readWord`, `AgreeOutside.readBytes` -- what lies outside the set reads the same;
* `Carries` -- bytes that are found again, in their old place or in another.
-/

namespace RegionHeap.Memory

/-- The addresses from `lo` to `hi`, the last one excluded. -/
def Between (lo hi x : Nat) : Prop :=
  lo ≤ x ∧ x < hi

/-- Only bytes at addresses of the set `s` may differ. -/
def AgreeOutside (s : Nat → Prop) (m m' : Memory) : Prop :=
  ∀ x, ¬ s x → m'.get x = m.get x

namespace AgreeOutside

variable {s t : Nat → Prop} {m m' m'' : Memory}

theorem refl (s : Nat → Prop) (m : Memory) : AgreeOutside s m m := fun _ _ => rfl

theorem mono (h : AgreeOutside s m m') (hst : ∀ x, s x → t x) : AgreeOutside t m m' :=
  fun x hx => h x fun hs => hx (hst x hs)

theorem trans (h : AgreeOutside s m m') (h' : AgreeOutside s m' m'') : AgreeOutside s m m'' :=
  fun x hx => (h' x hx).trans (h x hx)

/-- A word that the set leaves out reads the same. -/
theorem readWord {addr : Nat} (h : AgreeOutside s m m')
    (hs : ∀ x, addr ≤ x → x < addr + Word.size → ¬ s x) : m'.readWord addr = m.readWord addr :=
  readWord_congr fun x h1 h2 => h x (hs x h1 h2)

/-- Bytes that the set leaves out read the same. -/
theorem readBytes {addr n : Nat} (h : AgreeOutside s m m')
    (hs : ∀ x, addr ≤ x → x < addr + n → ¬ s x) : m'.readBytes addr n = m.readBytes addr n :=
  readBytes_congr fun x h1 h2 => h x (hs x h1 h2)

end AgreeOutside

/-- A write of bytes stays inside the range that it covers. -/
theorem agreeOutside_writeBytes (m : Memory) (addr : Nat) (bs : List UInt8) :
    AgreeOutside (Between addr (addr + bs.length)) m (m.writeBytes addr bs) := by
  intro x hx
  refine get_writeBytes_of_outside ?_
  unfold Between at hx
  omega

/-- A write of a word stays inside its bytes. -/
theorem agreeOutside_writeWord (m : Memory) (addr v : Nat) :
    AgreeOutside (Between addr (addr + Word.size)) m (m.writeWord addr v) := by
  have h := agreeOutside_writeBytes m addr (Word.toBytes Word.size v)
  rwa [Word.length_toBytes] at h

/-- The bytes of a word in memory. -/
theorem toBytes_readWord (m : Memory) (addr : Nat) :
    Word.toBytes Word.size (m.readWord addr) = m.readBytes addr Word.size := by
  have hback := Word.toBytes_ofBytes (m.readBytes addr Word.size)
  rwa [length_readBytes] at hback

/-- Memories that read the same word hold the same bytes there. -/
theorem get_eq_of_readWord_eq {m m' : Memory} {addr x : Nat}
    (h : m'.readWord addr = m.readWord addr) (h1 : addr ≤ x) (h2 : x < addr + Word.size) :
    m'.get x = m.get x := by
  have hbytes : m'.readBytes addr Word.size = m.readBytes addr Word.size := by
    rw [← toBytes_readWord m', ← toBytes_readWord m, h]
  exact List.map_inj_left.mp hbytes x (List.mem_range'_1.mpr ⟨h1, h2⟩)

/-- A word that differs from the one in memory in its lowest byte only changes nothing but that
    byte. -/
theorem agreeOutside_writeWord_lowest {m : Memory} {addr v : Nat}
    (h : v / 256 = m.readWord addr / 256) :
    AgreeOutside (fun x => x = addr) m (m.writeWord addr v) := by
  have htail : ∀ k, (Word.toBytes Word.size v)[k + 1]? = (m.readBytes addr Word.size)[k + 1]? := by
    intro k
    rw [← toBytes_readWord]
    exact Word.getElem?_toBytes_succ k h
  intro x hx
  unfold writeWord
  rw [get_writeBytes]
  split
  · obtain ⟨k, hk⟩ : ∃ k, x - addr = k + 1 := ⟨x - addr - 1, by omega⟩
    rw [hk, htail k]
    by_cases hsize : k + 1 < Word.size
    · simp only [readBytes, List.getElem?_map, List.getElem?_range' hsize, Option.map_some,
        Option.getD_some]
      congr 1
      omega
    · rw [List.getElem?_eq_none (by rw [length_readBytes]; omega)]
      rfl
  · rfl

/-- The byte at a position of a range that was just written. -/
theorem get_writeBytes_of_lt (m : Memory) (addr : Nat) (bs : List UInt8) {i : Nat}
    (hi : i < bs.length) : (m.writeBytes addr bs).get (addr + i) = bs[i] := by
  rw [get_writeBytes, if_pos (Nat.le_add_right addr i), Nat.add_sub_cancel_left,
    List.getElem?_eq_getElem hi]
  rfl

/-- A copy puts the bytes of the source at the destination. -/
theorem get_copy (m : Memory) (src dst : Nat) {n i : Nat} (hi : i < n) :
    (m.copy src dst n).get (dst + i) = m.get (src + i) := by
  have hlen : i < (m.readBytes src n).length := by rwa [length_readBytes]
  rw [copy, get_writeBytes_of_lt m dst _ hlen]
  simp [Memory.readBytes]

/-- A copy stays inside its destination. -/
theorem agreeOutside_copy (m : Memory) (src dst n : Nat) :
    AgreeOutside (Between dst (dst + n)) m (m.copy src dst n) := by
  have h := agreeOutside_writeBytes m dst (m.readBytes src n)
  rwa [length_readBytes] at h

/-- The first `n` bytes at `dst` are those that were at `src` before the change. -/
def Carries (m m' : Memory) (src dst n : Nat) : Prop :=
  ∀ i, i < n → m'.get (dst + i) = m.get (src + i)

/-- Bytes may be carried on. -/
theorem Carries.trans {m m' m'' : Memory} {src mid dst n : Nat} (h : Carries m m' src mid n)
    (h' : Carries m' m'' mid dst n) : Carries m m'' src dst n :=
  fun i hi => (h' i hi).trans (h i hi)

/-- What stays in place is carried along with it. -/
theorem AgreeOutside.carries {s : Nat → Prop} {m m' : Memory} {addr n : Nat}
    (h : AgreeOutside s m m') (hs : ∀ x, addr ≤ x → x < addr + n → ¬ s x) :
    Carries m m' addr addr n :=
  fun i hi => h (addr + i) (hs _ (Nat.le_add_right addr i) (Nat.add_lt_add_left hi addr))

end RegionHeap.Memory
