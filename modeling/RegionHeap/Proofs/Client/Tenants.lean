import RegionHeap.Proofs.Client.Confined

/-!
# Heaps in one memory

Any number of heaps, of either strategy, can share a memory. Each has a lot of its own, hands over and
writes to nothing else, and takes any address that it comes by for its requests, those that other heaps
have answered included. Then no tenant notices that there are others.

* `Lots`, `Deed` -- ranges of memory that lie apart, and what a tenant can do in its own;
* `Tenancy`, `Tenancy.perform`, `Tenancy.run` -- heaps and their memory, and any interleaving of deeds;
* `Tenancy.Keeps` -- tenants that match their drafts;
* `Tenancy.Secluded` -- a tenant whose heap writes to its region only and rejects addresses from
  elsewhere;
* `Tenancy.tenants_apart` -- so is every tenant after every interleaving, and its answers, its heap and
  its bytes are those of the run that it would have had alone.
-/

namespace RegionHeap

open Memory (AgreeOutside Between)

/-! ## 1. Lots -/

/-- Ranges of memory that lie apart, one for each tenant. -/
structure Lots (ι : Type) where
  /-- The first address of a lot. -/
  start : ι → Nat
  /-- The address behind a lot. -/
  stop : ι → Nat
  /-- No two lots share an address. -/
  apart : ∀ i j, i ≠ j → stop i ≤ start j ∨ stop j ≤ start i

/-- The address lies in the lot. -/
def Lots.Holds {ι : Type} (L : Lots ι) (i : ι) (x : Nat) : Prop :=
  Between (L.start i) (L.stop i) x

/-- What lies in one lot does not lie in another one. -/
theorem Lots.not_holds {ι : Type} {L : Lots ι} {i j : ι} {x : Nat} (hij : i ≠ j)
    (hx : L.Holds i x) : ¬ L.Holds j x := by
  rintro ⟨hlo, hhi⟩
  obtain ⟨hlo', hhi'⟩ := hx
  rcases L.apart i j hij with h | h <;> omega

/-- What a tenant does in its lot. -/
structure Deed {ι : Type} (L : Lots ι) where
  /-- The tenant. -/
  tenant : ι
  /-- What it does. -/
  action : Action
  /-- It keeps to its lot. -/
  within : action.Within (L.start tenant) (L.stop tenant)

/-- Heaps that share a memory. -/
structure Tenancy (ι : Type) (a : Alignment) where
  /-- The heap of each tenant. -/
  heaps : ι → Heap a
  /-- The memory of all of them. -/
  memory : Memory

section

variable {ι : Type} {a : Alignment} [DecidableEq ι] {L : Lots ι} {i : ι}

/-- What a tenant did, in order. -/
def own (i : ι) (deeds : List (Deed L)) : List Action :=
  (deeds.filter fun e => e.tenant = i).map Deed.action

/-- What a tenant did and was told, in order. -/
def ownTrace (i : ι) (trace : List (Deed L × Answer a)) : List (Action × Answer a) :=
  (trace.filter fun entry => entry.1.tenant = i).map fun entry => (entry.1.action, entry.2)

variable {e : Deed L} {deeds : List (Deed L)} {answer : Answer a} {trace : List (Deed L × Answer a)}

theorem own_cons_self (h : e.tenant = i) : own i (e :: deeds) = e.action :: own i deeds := by
  simp [own, h]

theorem own_cons_of_ne (h : e.tenant ≠ i) : own i (e :: deeds) = own i deeds := by
  simp [own, h]

theorem ownTrace_cons_self (h : e.tenant = i) :
    ownTrace i ((e, answer) :: trace) = (e.action, answer) :: ownTrace i trace := by
  simp [ownTrace, h]

theorem ownTrace_cons_of_ne (h : e.tenant ≠ i) :
    ownTrace i ((e, answer) :: trace) = ownTrace i trace := by
  simp [ownTrace, h]

end

namespace Tenancy

variable {ι : Type} {a : Alignment} {L : Lots ι} {s : ι → Strategy} {d : ι → Draft a}
  {t : Tenancy ι a} {i j : ι}

/-! ## 2. Tenants -/

/-- The heap of a tenant and the memory around it. -/
def world (t : Tenancy ι a) (i : ι) : World a :=
  ⟨t.heaps i, t.memory⟩

/-- Tenants before their first regions, with anything in memory. -/
def fresh (s : ι → Strategy) (m : Memory) : Tenancy ι a :=
  ⟨fun i => .empty (s i), m⟩

/-- Each tenant matches its draft and has its region in its lot. -/
structure Keeps (L : Lots ι) (s : ι → Strategy) (d : ι → Draft a) (t : Tenancy ι a) : Prop where
  /-- The tenant matches its draft. -/
  shows : ∀ i, World.Matches (s i) (d i) (t.world i)
  /-- The region lies in the lot. -/
  inside : ∀ i, (d i).Inside (L.start i) (L.stop i)

theorem keeps_fresh (L : Lots ι) (s : ι → Strategy) (m : Memory) :
    Keeps L s (fun _ => (.blank : Draft a)) (fresh s m) :=
  ⟨fun i => World.matches_fresh (s i) m, fun _ => trivial⟩

/-- The tenant's heap keeps to itself. -/
structure Secluded (L : Lots ι) (t : Tenancy ι a) (i : ι) : Prop where
  /-- The region lies in the lot. -/
  inside : ∀ x, (t.world i).Owns x → L.Holds i x
  /-- Every request is served, by writes to the region only. -/
  serves : ∀ q, ∃ w answer, (t.world i).serve q = .ok (w, answer) ∧
    AgreeOutside (t.world i).Owns t.memory w.memory
  /-- A new region is laid out by writes to that region only. -/
  inits : ∀ addr len, ∃ w answer, (t.world i).perform (.init addr len) = .ok (w, answer) ∧
    AgreeOutside w.Owns t.memory w.memory
  /-- An address in the lot of another tenant names nothing live. -/
  rejects : ∀ j addr, j ≠ i → L.Holds j addr → (t.world i).Rejects addr

theorem Keeps.secluded (h : Keeps L s d t) (i : ι) : Secluded L t i := by
  have hinside : ∀ x, (t.world i).Owns x → L.Holds i x :=
    fun x hx => (h.shows i).between_of_owns (h.inside i) hx
  constructor
  case inside => exact hinside
  case serves =>
    intro q
    obtain ⟨w, answer, hserve, -, -, hm⟩ := (h.shows i).serve q
    exact ⟨w, answer, hserve, hm.mono fun x hx => (h.shows i).writes_owned hx⟩
  case inits =>
    intro addr len
    obtain ⟨w, answer, hinit, -⟩ := (h.shows i).perform (.init addr len)
    exact ⟨w, answer, hinit, (h.shows i).init_inside hinit⟩
  case rejects =>
    exact fun j addr hj haddr =>
      (h.shows i).rejects fun hx => Lots.not_holds hj haddr (hinside addr hx)

/-! ## 3. Interleavings -/

variable [DecidableEq ι]

/-- The tenancy after a tenant has changed its heap and the memory. -/
def withWorld (t : Tenancy ι a) (i : ι) (w : World a) : Tenancy ι a :=
  ⟨Function.update t.heaps i w.heap, w.memory⟩

theorem world_withWorld_self (w : World a) : (t.withWorld i w).world i = w := by
  simp only [world, withWorld, Function.update_self]

/-- The heaps of the others stay as they are. -/
theorem world_withWorld_of_ne (h : j ≠ i) (w : World a) :
    (t.withWorld i w).world j = ⟨t.heaps j, w.memory⟩ := by
  simp only [world, withWorld, Function.update_of_ne h]

/-- A tenant acts. -/
def perform (t : Tenancy ι a) (e : Deed L) : Except Fault (Tenancy ι a × Answer a) :=
  ((t.world e.tenant).perform e.action).map fun step => (t.withWorld e.tenant step.1, step.2)

/-- The tenants act in turns, as often as they like. What they did and were told is the trace. -/
def run (t : Tenancy ι a) : List (Deed L) → Except Fault (Tenancy ι a × List (Deed L × Answer a))
  | [] => return (t, [])
  | e :: deeds => do
    let (t', answer) ← t.perform e
    let (t'', trace) ← t'.run deeds
    return (t'', (e, answer) :: trace)

/-- The drafts after a tenant has acted. -/
def draftsAfter (s : ι → Strategy) (d : ι → Draft a) (e : Deed L) : ι → Draft a :=
  Function.update d e.tenant ((d e.tenant).after (s e.tenant) e.action)

/-- **What a tenant does changes nothing but its lot**, and all tenants still match their drafts. -/
theorem Keeps.perform (h : Keeps L s d t) (e : Deed L) :
    ∃ w answer, (t.world e.tenant).perform e.action = .ok (w, answer) ∧
      t.perform e = .ok (t.withWorld e.tenant w, answer) ∧
      AgreeOutside (L.Holds e.tenant) t.memory w.memory ∧
      Keeps L s (draftsAfter s d e) (t.withWorld e.tenant w) := by
  obtain ⟨w, answer, hstep, hw, -⟩ := (h.shows e.tenant).perform e.action
  have hm := (h.shows e.tenant).perform_inside (h.inside e.tenant) e.within hstep
  have hnext : ∀ j, World.Matches (s j) (draftsAfter s d e j) ((t.withWorld e.tenant w).world j) ∧
      (draftsAfter s d e j).Inside (L.start j) (L.stop j) := by
    intro j
    rcases eq_or_ne j e.tenant with rfl | hj
    · rw [world_withWorld_self, draftsAfter, Function.update_self]
      exact ⟨hw, (h.inside e.tenant).after e.within⟩
    · have hsame : ∀ x, L.Holds j x → w.memory.get x = t.memory.get x :=
        fun x hx => hm x (Lots.not_holds hj hx)
      rw [world_withWorld_of_ne hj, draftsAfter, Function.update_of_ne hj]
      exact ⟨(h.shows j).congr_inside (h.inside j) hsame, h.inside j⟩
  refine ⟨w, answer, hstep, ?_, hm, fun j => (hnext j).1, fun j => (hnext j).2⟩
  simp only [Tenancy.perform, hstep]
  rfl

/-! ## 4. A tenant and the same tenant alone -/

/-- The tenant is in the same place as one who lives alone in a world of its own. -/
abbrev TwinOf (L : Lots ι) (s : ι → Strategy) (d : ι → Draft a) (t : Tenancy ι a) (i : ι)
    (w : World a) : Prop :=
  World.Twin (s i) (L.start i) (L.stop i) (d i) (t.world i) w

/-- What another tenant does is not noticed. -/
theorem TwinOf.perform_other {w w1 : World a} {e : Deed L} (h : TwinOf L s d t i w)
    (hi : i ≠ e.tenant) (hm : AgreeOutside (L.Holds e.tenant) t.memory w1.memory) :
    TwinOf L s (draftsAfter s d e) (t.withWorld e.tenant w1) i w := by
  have hbytes : ∀ x, L.Holds i x → w1.memory.get x = t.memory.get x :=
    fun x hx => hm x (Lots.not_holds hi hx)
  unfold TwinOf
  rw [world_withWorld_of_ne hi, draftsAfter, Function.update_of_ne hi]
  refine ⟨h.left.congr_inside h.inside hbytes, h.right, h.inside, fun x hx => ?_⟩
  rw [hbytes x hx]
  exact h.bytes_eq x hx

/-- **Every interleaving is a run of each tenant alone**, as far as the tenant is concerned. -/
theorem Keeps.run (h : Keeps L s d t) (deeds : List (Deed L)) :
    ∃ t1 trace d1, t.run deeds = .ok (t1, trace) ∧ Keeps L s d1 t1 ∧
      ∀ i w, TwinOf L s d t i w → ∃ w1, w.run (own i deeds) = .ok (w1, ownTrace i trace) ∧
        TwinOf L s d1 t1 i w1 := by
  induction deeds generalizing t d with
  | nil => exact ⟨t, [], d, rfl, h, fun i w hw => ⟨w, rfl, hw⟩⟩
  | cons e deeds ih =>
    obtain ⟨w1, answer, hstep, hperform, hm, h1⟩ := h.perform e
    obtain ⟨t2, trace, d2, hrun, h2, htwin⟩ := ih h1
    refine ⟨t2, (e, answer) :: trace, d2, ?_, h2, fun i w hw => ?_⟩
    · simp only [Tenancy.run, hperform, hrun, bind, Except.bind]
      rfl
    · rcases eq_or_ne i e.tenant with rfl | hi
      · obtain ⟨w1', w', answer', hstep1, hstep', hw'⟩ := hw.perform e.within
        rw [hstep] at hstep1
        cases hstep1
        have hnext : TwinOf L s (draftsAfter s d e) (t.withWorld e.tenant w1) e.tenant w' := by
          unfold TwinOf
          rw [world_withWorld_self, draftsAfter, Function.update_self]
          exact hw'
        obtain ⟨w2, hrun', hw2⟩ := htwin e.tenant w' hnext
        refine ⟨w2, ?_, hw2⟩
        rw [own_cons_self rfl, ownTrace_cons_self rfl]
        exact World.run_cons hstep' hrun'
      · obtain ⟨w2, hrun', hw2⟩ := htwin i w (hw.perform_other hi hm)
        refine ⟨w2, ?_, hw2⟩
        rw [own_cons_of_ne (Ne.symm hi), ownTrace_cons_of_ne (Ne.symm hi)]
        exact hrun'

/-! ## 5. Every interleaving -/

/-- **Heaps over lots that lie apart do not interfere**, whatever their strategies, whatever they are
    asked for, with addresses of their own or of others, and whatever their clients write to their
    payloads. In every interleaving each heap writes to its region only and rejects all addresses
    from other lots, and its answers, its region, its list and the bytes of its lot are the same as if
    its tenant had been alone. -/
theorem tenants_apart (L : Lots ι) (s : ι → Strategy) (m : Memory) (deeds : List (Deed L)) :
    ∃ (t : Tenancy ι a) (trace : List (Deed L × Answer a)),
      (fresh s m).run deeds = .ok (t, trace) ∧ ∀ i, Secluded L t i ∧
        ∃ w, (World.fresh (s i) m).run (own i deeds) = .ok (w, ownTrace i trace) ∧
          w.heap = t.heaps i ∧ ∀ x, L.Holds i x → w.memory.get x = t.memory.get x := by
  obtain ⟨t, trace, d, hrun, ht, htwin⟩ := (keeps_fresh (a := a) L s m).run deeds
  refine ⟨t, trace, hrun, fun i => ⟨ht.secluded i, ?_⟩⟩
  have hstart : TwinOf L s (fun _ => (.blank : Draft a)) (fresh s m) i (World.fresh (s i) m) :=
    ⟨World.matches_fresh (s i) m, World.matches_fresh (s i) m, trivial, fun _ _ => rfl⟩
  obtain ⟨w, halone, hw⟩ := htwin i _ hstart
  exact ⟨w, halone, hw.heap_eq, hw.bytes_eq⟩

end Tenancy

end RegionHeap
