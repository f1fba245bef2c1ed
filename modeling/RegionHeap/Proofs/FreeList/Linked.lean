import RegionHeap.FreeList.Basic

/-!
# Lists of links

What a doubly linked list is, apart from any memory: an assignment of links to nodes, and the nodes
in order. A stretch of a list has a node or nothing in front of it and behind it, so stretches can be
put together (`linked_append`) and the links at a seam be changed from either side.

* `Linked` -- the links of a stretch are those of its order;
* `Linked.withFront` -- after `Links.withFront` a node stands in front of the list;
* `Linked.without` -- after `Links.without` a node is gone and its neighbours name each other.
-/

namespace RegionHeap

/-- The links of the nodes in order, where `prev` stands in front of the first node and `next` behind
    the last one. -/
def Linked (links : Nat → Links) : (prev : Option Nat) → List Nat → (next : Option Nat) → Prop
  | _, [], _ => True
  | prev, x :: xs, next =>
    links x = ⟨prev, xs.head?.or next⟩ ∧ Linked links (some x) xs next

namespace Links

/-- The links after `y` has entered a list in front of its first node `head`. -/
def withFront (links : Nat → Links) (head : Option Nat) (y x : Nat) : Links :=
  if x = y then ⟨none, head⟩
  else if head = some x then ⟨some y, (links x).next⟩
  else links x

/-- The links after `y` has left its list: the nodes on its two sides name each other. -/
def without (links : Nat → Links) (y x : Nat) : Links :=
  if x = y then ⟨none, none⟩
  else
    ⟨if (links y).next = some x then (links y).prev else (links x).prev,
      if (links y).prev = some x then (links y).next else (links x).next⟩

end Links

variable {f g : Nat → Links} {prev next : Option Nat} {pre post l : List Nat} {x y : Nat}

/-! ## 1. Stretches -/

/-- **A stretch is put together from two**: each is bounded by the nearest node of the other. -/
theorem linked_append :
    Linked f prev (pre ++ post) next ↔
      Linked f prev pre (post.head?.or next) ∧ Linked f (pre.getLast?.or prev) post next := by
  induction pre generalizing prev with
  | nil => simp [Linked]
  | cons x xs ih =>
    have hlast : (x :: xs).getLast?.or prev = xs.getLast?.or (some x) := by
      rw [List.getLast?_cons]
      cases xs.getLast? <;> rfl
    have hhead : (xs ++ post).head?.or next = xs.head?.or (post.head?.or next) := by
      rw [List.head?_append, Option.or_assoc]
    rw [List.cons_append, Linked, Linked, ih, hlast, hhead, and_assoc]

/-- The links of a node are its two neighbours in the list. -/
theorem Linked.links_eq (h : Linked f none (pre ++ y :: post) none) :
    f y = ⟨pre.getLast?, post.head?⟩ := by
  have h1 := (linked_append.mp h).2.1
  rwa [Option.or_none, Option.or_none] at h1

theorem Linked.congr (h : Linked f prev l next) (hfg : ∀ x ∈ l, g x = f x) :
    Linked g prev l next := by
  induction l generalizing prev with
  | nil => trivial
  | cons x xs ih =>
    exact ⟨(hfg x List.mem_cons_self).trans h.1,
      ih h.2 fun z hz => hfg z (List.mem_cons_of_mem x hz)⟩

/-- Another node in front shows in the first backward link only. -/
theorem Linked.changePrev {prev' : Option Nat} (h : Linked f prev l next)
    (hhead : ∀ z ∈ l.head?, g z = ⟨prev', (f z).next⟩) (htail : ∀ z ∈ l.tail, g z = f z) :
    Linked g prev' l next := by
  cases l with
  | nil => trivial
  | cons z zs =>
    refine ⟨?_, h.2.congr htail⟩
    rw [hhead z rfl, h.1]

/-- Another node behind shows in the last forward link only. -/
theorem Linked.changeNext {next' : Option Nat} (h : Linked f prev l next)
    (hlast : ∀ z ∈ l.getLast?, g z = ⟨(f z).prev, next'⟩) (hinit : ∀ z ∈ l.dropLast, g z = f z) :
    Linked g prev l next' := by
  rcases List.eq_nil_or_concat l with rfl | ⟨zs, z, rfl⟩
  · trivial
  · rw [List.concat_eq_append] at h hlast hinit ⊢
    rw [List.dropLast_concat] at hinit
    rw [linked_append] at h ⊢
    obtain ⟨h1, h2, -⟩ := h
    refine ⟨h1.congr hinit, ?_, trivial⟩
    rw [hlast z (by simp), h2]
    simp

/-! ## 2. Nodes that enter and leave -/

theorem head?_ne_of_mem_tail (h : l.Nodup) (hx : x ∈ l.tail) : l.head? ≠ some x := by
  cases l with
  | nil => cases hx
  | cons z zs =>
    intro e
    cases e
    exact (List.nodup_cons.mp h).1 hx

theorem getLast?_ne_of_mem_dropLast (h : l.Nodup) (hx : x ∈ l.dropLast) :
    l.getLast? ≠ some x := by
  intro e
  obtain ⟨init, rfl⟩ := List.getLast?_eq_some_iff.mp e
  rw [List.dropLast_concat] at hx
  exact (List.nodup_append.mp h).2.2 x hx x List.mem_cons_self rfl

/-- A block that enters and its neighbour are nodes of the list afterwards. -/
theorem mem_of_mem_entering (hx : x ∈ y :: l.head?.toList) : x ∈ y :: l := by
  rcases List.mem_cons.mp hx with rfl | hx
  · exact List.mem_cons_self
  · exact List.mem_cons_of_mem y (List.mem_of_mem_head? (Option.mem_toList.mp hx))

/-- A block that leaves and its neighbours are nodes of the list before. -/
theorem mem_of_mem_leaving (hx : x ∈ y :: (pre.getLast?.toList ++ post.head?.toList)) :
    x ∈ pre ++ y :: post := by
  rcases List.mem_cons.mp hx with rfl | hx
  · exact List.mem_append_right _ List.mem_cons_self
  · rcases List.mem_append.mp hx with hx | hx
    · exact List.mem_append_left _ (List.mem_of_getLast? (Option.mem_toList.mp hx))
    · refine List.mem_append_right _ (List.mem_cons_of_mem y ?_)
      exact List.mem_of_mem_head? (Option.mem_toList.mp hx)

/-- **A node enters in front.** -/
theorem Linked.withFront (h : Linked f none l none) (hnd : l.Nodup) (hy : y ∉ l) :
    Linked (Links.withFront f l.head? y) none (y :: l) none := by
  have hne : ∀ z ∈ l, z ≠ y := fun z hz e => hy (e ▸ hz)
  refine ⟨?_, h.changePrev (fun z hz => ?_) fun z hz => ?_⟩
  · rw [Links.withFront, if_pos rfl, Option.or_none]
  · rw [Links.withFront, if_neg (hne z (List.mem_of_mem_head? hz)), if_pos (Option.mem_def.mp hz)]
  · have hzl : z ∈ l := List.mem_of_mem_tail hz
    rw [Links.withFront, if_neg (hne z hzl), if_neg (head?_ne_of_mem_tail hnd hz)]

/-- **A node leaves from anywhere.** -/
theorem Linked.without (h : Linked f none (pre ++ y :: post) none)
    (hnd : (pre ++ y :: post).Nodup) :
    Linked (Links.without f y) none (pre ++ post) none := by
  have hy := h.links_eq
  obtain ⟨hpre, -, hpost⟩ := linked_append.mp h
  obtain ⟨hnpre, hnpost, hdisj⟩ := List.nodup_append.mp hnd
  obtain ⟨hypost, hnpost⟩ := List.nodup_cons.mp hnpost
  have hwithout : ∀ z, z ≠ y → Links.without f y z =
      ⟨if post.head? = some z then pre.getLast? else (f z).prev,
        if pre.getLast? = some z then post.head? else (f z).next⟩ := by
    intro z hz
    rw [Links.without, if_neg hz, hy]
  have hpre_ne : ∀ z ∈ pre, z ≠ y := fun z hz => hdisj z hz y List.mem_cons_self
  have hpost_ne : ∀ z ∈ post, z ≠ y := fun z hz e => hypost (e ▸ hz)
  -- a node of one side is no neighbour of `y` on the other side
  have hpre_head : ∀ z ∈ pre, post.head? ≠ some z := fun z hz e =>
    hdisj z hz z (List.mem_cons_of_mem y (List.mem_of_mem_head? e)) rfl
  have hpost_last : ∀ z ∈ post, pre.getLast? ≠ some z := fun z hz e =>
    hdisj z (List.mem_of_getLast? e) z (List.mem_cons_of_mem y hz) rfl
  rw [linked_append]
  constructor
  · refine hpre.changeNext (fun z hz => ?_) fun z hz => ?_
    · have hzp : z ∈ pre := List.mem_of_getLast? hz
      rw [hwithout z (hpre_ne z hzp), if_neg (hpre_head z hzp),
        if_pos (Option.mem_def.mp hz), Option.or_none]
    · have hzp : z ∈ pre := List.dropLast_subset pre hz
      rw [hwithout z (hpre_ne z hzp), if_neg (hpre_head z hzp),
        if_neg (getLast?_ne_of_mem_dropLast hnpre hz)]
  · refine hpost.changePrev (fun z hz => ?_) fun z hz => ?_
    · have hzp : z ∈ post := List.mem_of_mem_head? hz
      rw [hwithout z (hpost_ne z hzp), if_pos (Option.mem_def.mp hz),
        if_neg (hpost_last z hzp), Option.or_none]
    · have hzp : z ∈ post := List.mem_of_mem_tail hz
      rw [hwithout z (hpost_ne z hzp), if_neg (head?_ne_of_mem_tail hnpost hz),
        if_neg (hpost_last z hzp)]

end RegionHeap
