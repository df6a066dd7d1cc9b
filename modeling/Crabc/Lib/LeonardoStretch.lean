/-
  Crabc.Lib.LeonardoStretch

  Rows of Leonardo trees.  A row is given by the orders of its trees from right to
  left and the position of the rightmost root.  In a stretch all trees are heaps
  and their roots do not fall from left to right, so that the last root is the
  largest value.

  Trinkling puts a value into the last tree of a row: it climbs over the roots to
  the left that are larger, moves them up by one tree, and sifts the value into the
  tree where it stops.
-/

import Crabc.Lib.LeonardoHeap

namespace Crabc.Lib

open Nat List Or

variable {α : Type} {le : α → α → Prop}

/-! ## Rows -/

/-- The number of positions of a row. -/
def span : List Nat → Nat
  | [] => 0
  | k :: ks => leo k + span ks

variable {ks : List Nat} {k h : Nat} {a b : Nat → α}

theorem span_pos (h : ks ≠ []) : 0 < span ks := by
  cases ks with
  | nil => exact absurd rfl h
  | cons k ks => exact Nat.add_pos_left (leo_pos k) _

theorem leo_le_span (h : k ∈ ks) : leo k ≤ span ks := by
  induction ks with
  | nil => cases h
  | cons k' ks ih =>
    rcases mem_cons.mp h with rfl | h
    · exact le_add_right _ _
    · exact (ih h).trans (le_add_left _ _)

/-- Every tree is a heap, and every root is at least the root on its left. -/
def Stretch (le : α → α → Prop) (a : Nat → α) : List Nat → Nat → Prop
  | [], _ => True
  | k :: ks, h => HeapAt le a k h ∧ (ks ≠ [] → le (a (h - leo k)) (a h)) ∧
      Stretch le a ks (h - leo k)

theorem Stretch.congr (hspan : span ks ≤ h + 1) (hab : ∀ i, i ≤ h → a i = b i) (hs : Stretch le a ks h) :
    Stretch le b ks h := by
  induction ks generalizing h with
  | nil => trivial
  | cons k ks ih =>
    obtain ⟨hheap, hroots, hrest⟩ := hs
    rw [span] at hspan
    refine ⟨hheap.congr (by omega) fun i _ hi => hab i hi, fun hne => ?_, ?_⟩
    · rw [← hab _ (sub_le h _), ← hab h (le_refl h)]
      exact hroots hne
    · cases ks with
      | nil => trivial
      | cons k' ks =>
        exact ih (by omega) (fun i hi => hab i (by omega)) hrest

variable (hle : TotalPreorder le)
include hle

/-- The last root of a stretch is its largest value. -/
theorem Stretch.le_last (hspan : span ks = h + 1) (hs : Stretch le a ks h) : ∀ i ≤ h, le (a i) (a h) := by
  induction ks generalizing h with
  | nil => rw [span] at hspan; omega
  | cons k ks ih =>
    obtain ⟨hheap, hroots, hrest⟩ := hs
    rw [span] at hspan
    intro i hi
    by_cases hin : h < i + leo k
    · exact hheap.le_root hle (by omega) i hin hi
    · -- the position is left of the last tree
      have hne : ks ≠ [] := by
        rintro rfl
        rw [span] at hspan
        omega
      exact hle.trans (ih (by omega) hrest i (by omega)) (hroots hne)

/-! ## Trinkling -/

/-- Both children of a root, if it has any, are below `v`. -/
def ChildrenLt (le : α → α → Prop) (a : Nat → α) : Nat → Nat → α → Prop
  | k + 2, r, v => ¬ le v (a (r - 1)) ∧ ¬ le v (a (r - 1 - leo k))
  | _, _, _ => True

variable {r : Nat} {v x : α} {trusty : Bool}

theorem ChildrenLt.childrenLe (h : ChildrenLt le a k r v) : ChildrenLe le a k r v := by
  match k with
  | 0 => trivial
  | 1 => trivial
  | k + 2 => exact ⟨hle.of_not h.1, hle.of_not h.2⟩

/-- A value that is not above both children is at most what is above both. -/
theorem le_of_not_childrenLt {w : α} (h : ¬ ChildrenLt le a k r v) (hw : ChildrenLe le a k r w) : le v w := by
  match k with
  | 0 | 1 => exact absurd trivial h
  | k + 2 =>
    by_cases h1 : le v (a (r - 1))
    · exact hle.trans h1 hw.1
    · by_cases h2 : le v (a (r - 1 - leo k))
      · exact hle.trans h2 hw.2
      · exact absurd ⟨h1, h2⟩ h

/-- The climb of `x` stops at a tree: there is no tree on the left, or its root is not above `x`, or, unless
    the tree is known to be a heap under `x`, not above both children of the tree's root. -/
def Stops (le : α → α → Prop) (a : Nat → α) (x : α) (trusty : Bool) (k : Nat) (ks : List Nat)
    (h : Nat) : Prop :=
  ks = [] ∨ le (a (h - leo k)) x ∨ (trusty = false ∧ ¬ ChildrenLt le a k h (a (h - leo k)))

/-- What trinkling gives. -/
structure Trinkled (le : α → α → Prop) (a b : Nat → α) (x : α) (k : Nat) (ks : List Nat)
    (h : Nat) : Prop where
  stretch : Stretch le b (k :: ks) h
  last_le : ∀ u, le x u → ChildrenLe le a k h u → (ks ≠ [] → le (a (h - leo k)) u) → le (b h) u
  frame : ∀ i, h < i → b i = a i

/-- Where the climb stops, the value is sifted into the tree. -/
theorem trinkled_stop (hspan : leo k + span ks ≤ h + 1) (hrest : Stretch le a ks (h - leo k))
    (hstop : Stops le a x trusty k ks h) (hb : Sifted le a b x k h) (hframe : ∀ i, i + leo k ≤ h ∨ h < i → b i = a i) :
    Trinkled le a b x k ks h := by
  refine ⟨⟨hb.heap, fun hne => ?_, ?_⟩, fun u hu hchildren _ => hb.root_le u hu hchildren,
    fun i hi => hframe i (inr hi)⟩
  · have hpos' := span_pos hne
    rw [hframe _ (inl (by omega))]
    rcases hstop with hnil | hx | ⟨-, hchildren⟩
    · exact absurd hnil hne
    · exact hle.trans hx hb.le_root
    · exact le_of_not_childrenLt hle hchildren hb.children
  · cases ks with
    | nil => trivial
    | cons k' ks =>
      have hpos' := span_pos (cons_ne_nil k' ks)
      refine hrest.congr (by omega) fun i hi => (hframe i (inl (by omega))).symm

open Function

/-- Where the climb goes on, the root on the left moves up. -/
theorem trinkled_move {k' : Nat} (hspan : leo k + span (k' :: ks) ≤ h + 1) (hready : Ready le a k h)
    (htrusty : trusty = true → ChildrenLe le a k h x) (hrest : Stretch le a (k' :: ks) (h - leo k))
    (hstop : ¬ Stops le a x trusty k (k' :: ks) h) (hb : Trinkled le a b x k' ks (h - leo k)) :
    Trinkled le a (update b h (a (h - leo k))) x k (k' :: ks) h := by
  have hpos := leo_pos k
  have hpos' := span_pos (cons_ne_nil k' ks)
  have hx : le x (a (h - leo k)) := hle.of_not fun hx => hstop (inr (inl hx))
  have hchildren : ChildrenLe le a k h (a (h - leo k)) := by
    cases trusty with
    | true => exact (htrusty rfl).trans hle hx
    | false =>
      by_contra hnot
      exact hstop (inr (inr ⟨rfl, fun hlt => hnot (hlt.childrenLe hle)⟩))
  -- the positions of the last tree below its root are as before
  have hbetween (i : Nat) (h1 : h < i + leo k) (h2 : i < h) :
      a i = update b h (a (h - leo k)) i := by
    rw [← update_below h2, hb.frame i (by omega)]
  refine ⟨⟨heapAt_iff.mpr ⟨?_, hready.congr (by omega) hbetween⟩, fun _ => ?_, ?_⟩, ?_, ?_⟩
  · rw [update_self]
    exact hchildren.congr (by omega) hbetween
  · rw [update_self, ← update_below (by omega)]
    exact hb.last_le _ hx (heapAt_iff.mp hrest.1).1 hrest.2.1
  · exact hb.stretch.congr (by omega) fun i hi => update_below (by omega)
  · intro u _ _ hu
    rw [update_self]
    exact hu (cons_ne_nil k' ks)
  · intro i hi
    rw [update_of_ne (by omega), hb.frame i (by omega)]

variable [DecidableRel le]

instance (a : Nat → α) : ∀ k r v, Decidable (ChildrenLt le a k r v)
  | 0, _, _ => inferInstanceAs (Decidable True)
  | 1, _, _ => inferInstanceAs (Decidable True)
  | k + 2, r, v => inferInstanceAs (Decidable (¬ le v (a (r - 1)) ∧ ¬ le v (a (r - 1 - leo k))))

instance (a : Nat → α) (x : α) (trusty : Bool) (k : Nat) (ks : List Nat) (h : Nat) :
    Decidable (Stops le a x trusty k ks h) :=
  inferInstanceAs (Decidable (_ ∨ _ ∨ _))

/-- Put `x` into the last tree of a row. -/
def trinkle (le : α → α → Prop) [DecidableRel le] (a : Nat → α) (x : α) :
    Bool → List Nat → Nat → Nat → α
  | _, [], _ => a
  | trusty, k :: ks, h =>
    if Stops le a x trusty k ks h then
      if trusty then Function.update a h x else place a (siftPath le a x k h) x
    else Function.update (trinkle le a x false ks (h - leo k)) h (a (h - leo k))

/-- The tree in which the climb stops: a trusty one keeps `x` at its root. -/
theorem sifted_last (hr : leo k ≤ h + 1) (hready : Ready le a k h) (htrusty : trusty = true → ChildrenLe le a k h x) :
    Sifted le a (if trusty then update a h x else place a (siftPath le a x k h) x) x k h ∧
      ∀ i, i + leo k ≤ h ∨ h < i → (if trusty then update a h x else place a (siftPath le a x k h) x) i = a i := by
  have hpos := leo_pos k
  cases trusty with
  | true =>
    exact ⟨sifted_stop hle hr hready (htrusty rfl),
      fun i hi => update_of_ne (by omega) _ _⟩
  | false =>
    refine ⟨sifted hle a x hr hready, fun i hi => place_of_notMem fun hmem => ?_⟩
    have hin := siftPath_mem le a x hr i hmem
    omega

/-- **Trinkle.**  A value in the last tree of a stretch, whose subtrees are heaps,
    and which is above them if the tree is trusty, makes a stretch. -/
theorem trinkled (a : Nat → α) (x : α) (trusty : Bool) (k : Nat) (ks : List Nat) (h : Nat)
    (hspan : leo k + span ks ≤ h + 1) (hready : Ready le a k h) (htrusty : trusty = true → ChildrenLe le a k h x)
    (hrest : Stretch le a ks (h - leo k)) : Trinkled le a (trinkle le a x trusty (k :: ks) h) x k ks h := by
  induction ks generalizing trusty k h with
  | nil =>
    have hstop : Stops le a x trusty k [] h := inl rfl
    obtain ⟨hsifted, hframe⟩ := sifted_last hle (by omega) hready htrusty
    exact trinkled_stop hle hspan hrest hstop hsifted hframe
  | cons k' ks ih =>
    rw [trinkle]
    by_cases hstop : Stops le a x trusty k (k' :: ks) h
    · obtain ⟨hsifted, hframe⟩ := sifted_last hle (by omega) hready htrusty
      rw [if_pos hstop]
      exact trinkled_stop hle hspan hrest hstop hsifted hframe
    · rw [if_neg hstop]
      have hspan' : leo k' + span ks ≤ h - leo k + 1 := by
        rw [span] at hspan
        omega
      exact trinkled_move hle hspan hready htrusty hrest hstop
        (ih false k' (h - leo k) hspan' (heapAt_iff.mp hrest.1).2 nofun hrest.2.2)

omit hle

variable (le) in
theorem sifted_last_arranged (a : Nat → α) (x : α) (trusty : Bool) (hr : leo k ≤ h + 1) :
    Arranged (h + 1) (update a h x)
      (if trusty then update a h x else place a (siftPath le a x k h) x) := by
  cases trusty with
  | true => exact Arranged.refl _ _
  | false =>
    have hnodup := siftPath_nodup le a x hr
    have hmem := siftPath_mem le a x hr
    obtain ⟨path, hpath⟩ := siftPath_head le a x k h
    rw [hpath] at hnodup hmem ⊢
    have hrotate := arranged_rotate hnodup (n := h + 1)
      (fun q hq => lt_succ_of_le (hmem q hq).2) (update a h x)
    rw [update_self, place_update_head (nodup_cons.mp hnodup).1] at hrotate
    exact hrotate

variable (le) in
/-- Trinkling rearranges the row with `x` at its last root. -/
theorem trinkle_arranged (a : Nat → α) (x : α) (trusty : Bool) (k : Nat) (ks : List Nat) (h : Nat)
    (hspan : leo k + span ks ≤ h + 1) :
    Arranged (h + 1) (update a h x) (trinkle le a x trusty (k :: ks) h) := by
  have hpos := leo_pos k
  induction ks generalizing trusty k h with
  | nil =>
    have hstop : Stops le a x trusty k [] h := inl rfl
    rw [trinkle, if_pos hstop]
    exact sifted_last_arranged le a x trusty (by omega)
  | cons k' ks ih =>
    rw [trinkle]
    by_cases hstop : Stops le a x trusty k (k' :: ks) h
    · rw [if_pos hstop]
      exact sifted_last_arranged le a x trusty (by omega)
    · rw [if_neg hstop]
      have hpos' := leo_pos k'
      rw [span] at hspan
      -- `x` and the root on the left change places, then `x` climbs on from there
      have hswap := arranged_swap (n := h + 1) (p := h) (q := h - leo k) (by omega) (by omega)
        (by omega) (update a h x)
      rw [update_self, update_of_ne (by omega : h - leo k ≠ h),
        update_comm (by omega : h ≠ h - leo k), update_idem] at hswap
      have hrest := (ih false k' (h - leo k) (by omega) hpos').update (i := h) (by omega)
        (a (h - leo k))
      exact hswap.trans (hrest.mono (by omega))

/-! ## Climbing first, then sifting -/

/-- Where a climb ends: the roots it passed with the first one, whether the last
    tree is still trusty, and its order and root. -/
structure Climb where
  path : List Nat
  trusty : Bool
  order : Nat
  root : Nat

def climb (le : α → α → Prop) [DecidableRel le] (a : Nat → α) (x : α) :
    Bool → Nat → List Nat → Nat → Climb
  | trusty, k, [], h => ⟨[h], trusty, k, h⟩
  | trusty, k, k' :: ks, h =>
    if Stops le a x trusty k (k' :: ks) h then ⟨[h], trusty, k, h⟩
    else
      let rest := climb le a x false k' ks (h - leo k)
      { rest with path := h :: rest.path }

/-- The positions of a climb. -/
structure Climb.Inside (c : Climb) (h : Nat) (ks : List Nat) : Prop where
  head : ∃ path, c.path = h :: path
  nodup : c.path.Nodup
  le : ∀ i ∈ c.path, i ≤ h
  root : leo c.order ≤ c.root + 1 ∧ c.root ≤ h
  length : c.path.length ≤ ks.length + 1

theorem climb_stop_inside {trusty : Bool} {ks : List Nat} (hr : leo k ≤ h + 1) :
    (⟨[h], trusty, k, h⟩ : Climb).Inside h ks := by
  refine ⟨⟨[], rfl⟩, nodup_singleton h, fun i hi => ?_, ⟨hr, le_refl h⟩, le_add_left 1 _⟩
  exact le_of_eq (mem_singleton.mp hi)

/-- A position above a tree can be written before or after a sift. -/
theorem place_siftPath_update {i : Nat} (hr : leo k ≤ r + 1) (hi : r < i) :
    place (update b i v) (siftPath le (update b i v) x k r) x = update (place b (siftPath le b x k r) x) i v := by
  have hpath : siftPath le (update b i v) x k r = siftPath le b x k r :=
    (siftPath_congr x hr fun j _ hj => update_below (by omega)).symm
  rw [hpath, place_update]
  intro hmem
  have hin := siftPath_mem le b x hr i hmem
  omega

/-- The value at the root of a tree does not matter to a sift. -/
theorem place_siftPath_root (hr : leo k ≤ r + 1) :
    place (update b r v) (siftPath le (update b r v) x k r) x = place b (siftPath le b x k r) x := by
  have hpath : siftPath le (update b r v) x k r = siftPath le b x k r :=
    (siftPath_congr x hr fun j _ hj => update_below hj).symm
  have hnodup := siftPath_nodup le b x hr
  rw [hpath]
  obtain ⟨path, hcons⟩ := siftPath_head le b x k r
  rw [hcons] at hnodup ⊢
  exact place_update_head (nodup_cons.mp hnodup).1

variable (le) (a : Nat → α) (x : α) (trusty : Bool) (k : Nat) (ks : List Nat) (h : Nat)

theorem climb_inside (hspan : leo k + span ks ≤ h + 1) : (climb le a x trusty k ks h).Inside h ks := by
  induction ks generalizing trusty k h with
  | nil => exact climb_stop_inside (by omega)
  | cons k' ks ih =>
    rw [climb]
    by_cases hs : Stops le a x trusty k (k' :: ks) h
    · rw [if_pos hs]
      exact climb_stop_inside (by omega)
    · rw [if_neg hs]
      have hpos := leo_pos k
      have hpos' := leo_pos k'
      rw [span] at hspan
      have hrest := ih false k' (h - leo k) (by omega)
      refine ⟨⟨_, rfl⟩, ?_, ?_, ⟨hrest.root.1, by have := hrest.root.2; dsimp only; omega⟩, ?_⟩
      · refine nodup_cons.mpr ⟨fun hmem => ?_, hrest.nodup⟩
        have hle := hrest.le h hmem
        omega
      · rintro i (_ | ⟨_, hi⟩)
        · exact le_refl h
        · have hle := hrest.le i hi
          omega
      · exact succ_le_succ hrest.length

theorem climb_untrusty : (climb le a x false k ks h).trusty = false := by
  induction ks generalizing k h with
  | nil => rfl
  | cons k' ks ih =>
    rw [climb]
    split
    · rfl
    · exact ih k' _

/-- The climb ends at the root it has come to. -/
theorem climb_last : ∃ init, (climb le a x trusty k ks h).path = init ++ [(climb le a x trusty k ks h).root] := by
  induction ks generalizing trusty k h with
  | nil => exact ⟨[], rfl⟩
  | cons k' ks ih =>
    rw [climb]
    split
    · exact ⟨[], rfl⟩
    · obtain ⟨init, hinit⟩ := ih false k' (h - leo k)
      exact ⟨h :: init, congrArg (h :: ·) hinit⟩

/-- A climb, then a sift in the tree where it ends, is a trinkle. -/
theorem trinkle_eq_climb (hspan : leo k + span ks ≤ h + 1) {c : Climb} (hc : climb le a x trusty k ks h = c) :
    trinkle le a x trusty (k :: ks) h =
      if c.trusty then update a h x
      else place (place a c.path x) (siftPath le (place a c.path x) x c.order c.root) x := by
  subst hc
  have hlast (trusty : Bool) (k h : Nat) (hr : leo k ≤ h + 1) :
      (if trusty then update a h x else place a (siftPath le a x k h) x) =
        if trusty then update a h x
        else place (place a [h] x) (siftPath le (place a [h] x) x k h) x := by
    cases trusty with
    | true => rfl
    | false => exact (place_siftPath_root hr).symm
  induction ks generalizing trusty k h with
  | nil =>
    exact hlast trusty k h (by omega)
  | cons k' ks ih =>
    rw [trinkle, climb]
    by_cases hs : Stops le a x trusty k (k' :: ks) h
    · rw [if_pos hs, if_pos hs]
      exact hlast trusty k h (by omega)
    · rw [if_neg hs, if_neg hs]
      have hpos := leo_pos k
      have hpos' := leo_pos k'
      rw [span] at hspan
      have hspan' : leo k' + span ks ≤ h - leo k + 1 := by omega
      have hinside := climb_inside le a x false k' ks (h - leo k) hspan'
      have htrusty := climb_untrusty le a x k' ks (h - leo k)
      have hrec := ih false k' (h - leo k) hspan'
      dsimp only
      obtain ⟨path, hpath⟩ := hinside.head
      have hroot := hinside.root
      rw [htrusty, if_neg Bool.false_ne_true] at hrec ⊢
      rw [hrec, hpath, place_cons_cons, place_siftPath_update hroot.1 (by omega)]

end Crabc.Lib
