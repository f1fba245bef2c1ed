import RegionHeap.Proofs.Layout.Rewalk

/-!
# Memories that agree on a region

Two memories that hold the same bytes in a region are one memory to whatever goes through the region:
reads give the same, and the same writes leave the same bytes in it.

* `Together` -- two computations that come to the same fault or to related values; they compose;
* `Region.Alike` -- the memories hold the same bytes in the region;
* `Alike.word_eq`, `Alike.blocks_eq`, `Alike.live?_eq`, `Alike.bytes_eq` -- what is read;
* `Alike.setWord`, `Alike.setHeader`, `Alike.copyPayload` -- what is written.
-/

namespace RegionHeap

open Memory (Between)

/-! ## 1. Two computations -/

/-- The computations come to the same fault, or to values that are related. -/
inductive Together {α β : Type} (R : α → β → Prop) : Except Fault α → Except Fault β → Prop where
  | ok {u : α} {v : β} (h : R u v) : Together R (.ok u) (.ok v)
  | fault (e : Fault) : Together R (.error e) (.error e)

namespace Together

variable {α β γ δ : Type} {R : α → β → Prop} {S : γ → δ → Prop} {x : Except Fault α}
  {y : Except Fault β}

theorem bind {f : α → Except Fault γ} {g : β → Except Fault δ} (h : Together R x y)
    (hf : ∀ u v, R u v → Together S (f u) (g v)) : Together S (x >>= f) (y >>= g) := by
  cases h with
  | ok h => exact hf _ _ h
  | fault e => exact .fault e

/-- What is the same on both sides may be computed first. -/
theorem bind_same {f : α → Except Fault γ} {g : α → Except Fault δ}
    (hf : ∀ u, Together S (f u) (g u)) : Together S (x >>= f) (x >>= g) := by
  cases x with
  | ok u => exact hf u
  | error e => exact .fault e

/-- The second computation has a value if the first one has. -/
theorem exists_ok {u : α} (h : Together R x y) (hx : x = .ok u) : ∃ v, y = .ok v ∧ R u v := by
  cases h with
  | ok h =>
    cases hx
    exact ⟨_, rfl, h⟩
  | fault e => cases hx

end Together

namespace Region

variable {a : Alignment} {r : Region a} {m m' : Memory} {off : Nat}

/-- The memories hold the same bytes in the region. -/
def Alike (r : Region a) (m m' : Memory) : Prop :=
  ∀ x, Between r.base (r.base + r.size) x → m'.get x = m.get x

namespace Alike

/-! ## 2. Reads -/

theorem word_eq (h : r.Alike m m') (off : Nat) : r.word m' off = r.word m off := by
  unfold Region.word
  split
  · rename_i hoff
    have hend := hoff.2
    rw [Memory.readWord_congr fun x hlo hhi => h x ⟨by omega, by omega⟩]
  · rfl

theorem header_eq (h : r.Alike m m') (off : Nat) : r.header m' off = r.header m off := by
  unfold Region.header
  rw [h.word_eq]

theorem bytes_eq (h : r.Alike m m') (off len : Nat) : r.bytes m' off len = r.bytes m off len := by
  unfold Region.bytes
  split
  · rw [Memory.readBytes_congr fun x hlo hhi => h x ⟨by omega, by omega⟩]
  · rfl

/-- The walk comes past the same blocks. -/
theorem blocks_eq (h : r.Alike m m') : r.blocks m' = r.blocks m := by
  obtain ⟨bs, hbs, htrail⟩ := r.blocksFrom_trail m 0
  have htrail' : r.Trail m' 0 bs := by
    refine htrail.congr fun c hc => Memory.readWord_congr fun x hlo hhi => h x ?_
    have hend := (htrail.bounds hc).2.hasWord.2
    exact ⟨by omega, by omega⟩
  rw [blocks_eq_of_trail htrail', blocks_eq_of_trail htrail]

theorem live?_eq (h : r.Alike m m') (min addr : Nat) :
    r.live? m' min addr = r.live? m min addr := by
  unfold Region.live?
  simp only [h.header_eq, h.blocks_eq]

theorem audit_eq (h : r.Alike m m') (min : Nat) (merged : Bool) :
    r.audit m' min merged = r.audit m min merged := by
  unfold Region.audit
  rw [h.blocks_eq]

/-! ## 3. Writes -/

theorem writeBytes (h : r.Alike m m') (addr : Nat) (bytes : List UInt8) :
    r.Alike (m.writeBytes addr bytes) (m'.writeBytes addr bytes) := by
  intro x hx
  rw [Memory.get_writeBytes, Memory.get_writeBytes, h x hx]

theorem setWord (h : r.Alike m m') (off v : Nat) :
    Together r.Alike (r.setWord m off v) (r.setWord m' off v) := by
  unfold Region.setWord
  split
  · exact .ok (h.writeBytes _ _)
  · exact .fault _

theorem setHeader (h : r.Alike m m') (off : Nat) (x : Header a) :
    Together r.Alike (r.setHeader m off x) (r.setHeader m' off x) :=
  h.setWord off x.raw

/-- A copy reads and writes inside the region. -/
theorem copyPayload (h : r.Alike m m') (src dst len : Nat) :
    Together r.Alike (r.copyPayload m src dst len) (r.copyPayload m' src dst len) := by
  unfold Region.copyPayload
  by_cases hsrc : src + a.bytes + len ≤ r.size
  · by_cases hdst : dst + a.bytes + len ≤ r.size
    · simp only [hsrc, hdst, if_true]
      by_cases hoff : r.IsHeaderOffset src
      · have hread : m'.readBytes (r.base + src + a.bytes) len =
            m.readBytes (r.base + src + a.bytes) len :=
          Memory.readBytes_congr fun x hlo hhi => h x ⟨by omega, by omega⟩
        simp only [payload_eq_ok hoff, Memory.copy, hread, bind, Except.bind]
        cases r.payload dst with
        | error e => exact .fault e
        | ok target => exact .ok (h.writeBytes target _)
      · rw [Region.payload, if_neg hoff]
        exact .fault _
    · simp only [hsrc, hdst, if_true, if_false]
      exact .fault _
  · simp only [hsrc, if_false]
    exact .fault _

end Alike

end Region

end RegionHeap
