/-
  Crabc.Lib.Smoothsort

  The two phases of smoothsort over a row of Leonardo trees.  While the row grows
  over the array, a new position either joins the last two trees under it or
  becomes a tree of its own.  Only trees that no later position will join have
  their roots in order, which is what the row needs when it is complete.  While the
  row shrinks it is a stretch, and behind it the array is sorted.
-/

import Crabc.Lib.LeonardoStretch

namespace Crabc.Lib

open Nat

variable {α : Type} {le : α → α → Prop}

/-! ## The orders of a row -/

/-- Orders grow to the left, by two or more except for the last two trees; a tree of
    order zero only comes behind one of order one. -/
structure Shape (k : Nat) (ks : List Nat) : Prop where
  wide : ks.IsChain fun i j => i + 2 ≤ j
  next : ∀ k' ∈ ks.head?, k < k'
  zero : k = 0 → ks.head? = some 1

open List

theorem shape_one : Shape 1 [] := ⟨isChain_nil, nofun, nofun⟩

variable {k n h : Nat} {ks : List Nat} {a : Nat → α}

theorem Shape.join (h : Shape k ((k + 1) :: ks)) : Shape (k + 2) ks := by
  refine ⟨h.wide.tail, fun k' hk' => ?_, nofun⟩
  cases ks with
  | nil => cases hk'
  | cons j ks =>
    have hj := (isChain_cons_cons.mp h.wide).1
    cases hk'
    omega

variable {j k' : Nat}

/-- A new tree of one position behind a tree that cannot be joined. -/
theorem Shape.push (h : Shape k ks) (hj : j < k) (hzero : j = 0 → k = 1)
    (hgap : ∀ k' ∈ ks.head?, k + 2 ≤ k') : Shape j (k :: ks) := by
  refine ⟨?_, ?_, fun h0 => congrArg some (hzero h0)⟩
  · cases ks with
    | nil => exact isChain_singleton k
    | cons k' ks => exact isChain_cons_cons.mpr ⟨hgap k' rfl, h.wide⟩
  · rintro k' ⟨⟩
    exact hj

theorem Shape.pop (h : Shape k (k' :: ks)) : Shape k' ks := by
  have hlt := h.next k' rfl
  refine ⟨h.wide.tail, fun j hj => ?_, fun h0 => by omega⟩
  cases ks with
  | nil => cases hj
  | cons i ks =>
    have hgap := (isChain_cons_cons.mp h.wide).1
    cases hj
    omega

/-- The last order is the least. -/
theorem Shape.lt (h : Shape k ks) : ∀ j ∈ ks, k < j := by
  induction ks generalizing k with
  | nil => exact nofun
  | cons k' ks ih =>
    have hlt := h.next k' rfl
    rintro j (_ | ⟨_, hj⟩)
    · exact hlt
    · exact hlt.trans (ih h.pop j hj)

theorem Shape.length_lt (h : Shape k ks) (hlt : ∀ j ∈ k :: ks, j < n) : k + ks.length < n := by
  induction ks generalizing k with
  | nil => exact hlt k mem_cons_self
  | cons k' ks ih =>
    have hnext := h.next k' rfl
    have hrest := ih h.pop fun j hj => hlt j (mem_cons_of_mem _ hj)
    rw [length_cons]
    omega

theorem Shape.split (h : Shape (k + 2) ks) : Shape k ((k + 1) :: ks) := by
  refine ⟨?_, ?_, fun h0 => by rw [h0]; rfl⟩
  · cases ks with
    | nil => exact isChain_singleton _
    | cons k' ks =>
      have hlt := h.next k' rfl
      exact isChain_cons_cons.mpr ⟨by omega, h.wide⟩
  · rintro k' ⟨⟩
    exact lt_succ_self k

/-- Only a tree of order one on its own is a row of one position. -/
theorem Shape.one_le_last (hshape : Shape k ks) (htotal : leo k + span ks = h + 1) (hne : ¬ (k = 1 ∧ ks = [])) :
    1 ≤ h := by
  have hpos := leo_pos k
  by_cases hks : ks = []
  · have hzero : k ≠ 0 := by
      intro h0
      have := hshape.zero h0
      rw [hks] at this
      cases this
    have hk : 2 ≤ k := by
      have : k ≠ 1 := fun h1 => hne ⟨h1, hks⟩
      omega
    have hmono : 3 ≤ leo k := leo_mono hk
    omega
  · have hpos' := span_pos hks
    omega

/-! ## Growing -/

/-- The trees left of the last one, in an array of `n` positions: heaps, and a tree
    that cannot be joined any more has its root in order. -/
def Settled (le : α → α → Prop) (a : Nat → α) (n : Nat) : List Nat → Nat → Prop
  | [], _ => True
  | k :: ks, h => HeapAt le a k h ∧
      (ks ≠ [] → n ≤ h + 1 + leo (k - 1) → le (a (h - leo k)) (a h)) ∧
      Settled le a n ks (h - leo k)

theorem Settled.congr {b : Nat → α} (hspan : span ks ≤ h + 1) (hab : ∀ i, i ≤ h → a i = b i)
    (hs : Settled le a n ks h) : Settled le b n ks h := by
  induction ks generalizing h with
  | nil => trivial
  | cons k ks ih =>
    obtain ⟨hheap, hroots, hrest⟩ := hs
    rw [span] at hspan
    refine ⟨hheap.congr (by omega) fun i _ hi => hab i hi, fun hne hfinal => ?_, ?_⟩
    · rw [← hab _ (sub_le h _), ← hab h (le_refl h)]
      exact hroots hne hfinal
    · cases ks with
      | nil => trivial
      | cons k' ks =>
        exact ih (by omega) (fun i hi => hab i (by omega)) hrest

theorem Stretch.settled (hs : Stretch le a ks h) : Settled le a n ks h := by
  induction ks generalizing h with
  | nil => trivial
  | cons k ks ih => exact ⟨hs.1, fun hne _ => hs.2.1 hne, ih hs.2.2⟩

/-- When a tree cannot be joined any more, nor can those on its left: the row is a stretch. -/
theorem Settled.stretch (hspan : span (k :: ks) = h + 1) (hwide : (k :: ks).IsChain fun i j => i + 2 ≤ j)
    (hk : 1 ≤ k) (hfinal : n ≤ h + 1 + leo (k - 1)) (hs : Settled le a n (k :: ks) h) :
    Stretch le a (k :: ks) h := by
  induction ks generalizing k h with
  | nil => exact ⟨hs.1, fun hne => absurd rfl hne, trivial⟩
  | cons k' ks ih =>
    obtain ⟨hheap, hroots, hrest⟩ := hs
    obtain ⟨hgap, hwide'⟩ := isChain_cons_cons.mp hwide
    have hpos' := leo_pos k'
    have hsucc : leo (k + 1) = leo k + leo (k - 1) + 1 := by
      obtain ⟨j, rfl⟩ := Nat.exists_eq_add_of_le' hk
      exact leo_add_two j
    have hmono : leo (k + 1) ≤ leo (k' - 1) := leo_mono (by omega)
    rw [span, span] at hspan
    have hspan' : span (k' :: ks) = h - leo k + 1 := by
      rw [span]
      omega
    refine ⟨hheap, fun hne => hroots hne hfinal, ?_⟩
    exact ih hspan' hwide' (by omega) (by omega) hrest

/-- A row during growth: the last tree still needs its root sifted. -/
structure Growing (le : α → α → Prop) (a : Nat → α) (n h k : Nat) (ks : List Nat) : Prop where
  shape : Shape k ks
  total : leo k + span ks = h + 1
  ready : Ready le a k h
  settled : Settled le a n ks (h - leo k)

/-- The first position alone. -/
theorem growing_one : Growing le a n 0 1 [] :=
  ⟨shape_one, rfl, trivial, trivial⟩

section

variable (hg : Growing le a n h k ks)
include hg

/-- The trees on the left of a last one that is final are a stretch. -/
theorem Growing.stretch (hfinal : ∀ k' ∈ ks.head?, n ≤ h - leo k + 1 + leo (k' - 1)) : Stretch le a ks (h - leo k) := by
  cases ks with
  | nil => trivial
  | cons k' ks =>
    have hnext := hg.shape.next k' rfl
    have hspan := hg.total
    have hpos := span_pos (cons_ne_nil k' ks)
    exact hg.settled.stretch (by omega) hg.shape.wide (by omega) (hfinal k' rfl)

/-- A tree that cannot be joined by the positions left has trees on its left that cannot either. -/
theorem Growing.final_left (hk : 1 ≤ k) (hgap : ∀ k' ∈ ks.head?, k + 2 ≤ k') (hfinal : n ≤ h + 1 + leo (k - 1)) :
    ∀ k' ∈ ks.head?, n ≤ h - leo k + 1 + leo (k' - 1) := by
  intro k' hk'
  have hsucc : leo (k + 1) = leo k + leo (k - 1) + 1 := by
    obtain ⟨j, rfl⟩ := Nat.exists_eq_add_of_le' hk
    exact leo_add_two j
  have hle := hgap k' hk'
  have hmono : leo (k + 1) ≤ leo (k' - 1) := leo_mono (by omega)
  omega

/-- The next position becomes a tree of its own, behind a row that is settled. -/
theorem Growing.push {b : Nat → α} (hj : j ≤ 1) (hjk : j < k) (hzero : j = 0 → k = 1)
    (hgap : ∀ k' ∈ ks.head?, k + 2 ≤ k') (hb : Settled le b n (k :: ks) h) : Growing le b n (h + 1) j (k :: ks) := by
  have hspan := hg.total
  have hone : leo j = 1 := by
    rcases (by omega : j = 0 ∨ j = 1) with rfl | rfl <;> rfl
  refine ⟨hg.shape.push hjk hzero hgap, ?_, ?_, ?_⟩
  · rw [span, hone]
    omega
  · rcases (by omega : j = 0 ∨ j = 1) with rfl | rfl <;> trivial
  · rw [hone, Nat.add_sub_cancel]
    exact hb

end

/-! ## Shrinking -/

/-- A stretch, and behind it every position is at least all before it. -/
structure Shrinking (le : α → α → Prop) (a : Nat → α) (n h k : Nat) (ks : List Nat) : Prop where
  shape : Shape k ks
  total : leo k + span ks = h + 1
  stretch : Stretch le a (k :: ks) h
  sorted : ∀ j, h < j → j < n → ∀ i, i < j → le (a i) (a j)

/-- The largest value is in its place. -/
theorem Shrinking.sorted_last (hle : TotalPreorder le) (hs : Shrinking le a n h k ks) :
    ∀ j, h ≤ j → j < n → ∀ i, i < j → le (a i) (a j) := by
  intro j hj hjn i hi
  rcases lt_or_eq_of_le hj with hlt | rfl
  · exact hs.sorted j hlt hjn i hi
  · have hspan : span (k :: ks) = h + 1 := hs.total
    exact hs.stretch.le_last hle hspan i hi.le

/-- A last tree of one position goes. -/
theorem Shrinking.pop (hle : TotalPreorder le) (hs : Shrinking le a n h k (k' :: ks)) (hk : k ≤ 1) :
    Shrinking le a n (h - 1) k' ks := by
  have hone : leo k = 1 := by
    rcases (by omega : k = 0 ∨ k = 1) with rfl | rfl <;> rfl
  have hspan := hs.total
  have hpos := leo_pos k'
  obtain ⟨-, -, hrest⟩ := hs.stretch
  rw [hone, span] at hspan
  rw [hone] at hrest
  exact ⟨hs.shape.pop, by omega, hrest, fun j h1 => hs.sorted_last hle j (by omega)⟩

/-! ## Sifting and trinkling the last root -/

variable [DecidableRel le]

/-- Sift the root of the last tree. -/
def siftAt (le : α → α → Prop) [DecidableRel le] (a : Nat → α) (k h : Nat) : Nat → α :=
  place a (siftPath le a (a h) k h) (a h)

/-- Trinkle the root of the last tree. -/
def trinkleAt (le : α → α → Prop) [DecidableRel le] (a : Nat → α) (trusty : Bool) (ks : List Nat)
    (h : Nat) : Nat → α :=
  trinkle le a (a h) trusty ks h

variable (le) in
theorem siftAt_arranged (a : Nat → α) (hr : leo k ≤ h + 1) : Arranged (h + 1) a (siftAt le a k h) := by
  have harranged := sifted_last_arranged le a (a h) false hr
  rw [Function.update_eq_self] at harranged
  exact harranged

variable (le) in
theorem trinkleAt_arranged (a : Nat → α) (trusty : Bool) (hspan : leo k + span ks ≤ h + 1) :
    Arranged (h + 1) a (trinkleAt le a trusty (k :: ks) h) := by
  have harranged := trinkle_arranged le a (a h) trusty k ks h hspan
  rw [Function.update_eq_self] at harranged
  exact harranged

/-- Sifting leaves the other trees alone. -/
theorem siftAt_frame {i : Nat} (hr : leo k ≤ h + 1) (hi : i + leo k ≤ h) : a i = siftAt le a k h i := by
  refine (place_of_notMem fun hmem => ?_).symm
  have hin := siftPath_mem le a (a h) hr i hmem
  omega

/-- The next position joins the last two trees under it. -/
theorem Growing.join (hle : TotalPreorder le) (hg : Growing le a n h k ((k + 1) :: ks)) :
    Growing le (siftAt le a k h) n (h + 1) (k + 2) ks := by
  have hspan := hg.total
  have hsize := leo_add_two k
  rw [span] at hspan
  have hr : leo k ≤ h + 1 := by omega
  obtain ⟨hheap, -, hrest⟩ := hg.settled
  have hsifted := sifted hle a (a h) hr hg.ready
  refine ⟨hg.shape.join, by omega, ⟨hsifted.heap, ?_⟩, ?_⟩
  · exact hheap.congr (by omega) fun i _ hi => siftAt_frame hr (by omega)
  · have hpred : h + 1 - leo (k + 2) = h - leo k - leo (k + 1) := by omega
    rw [hpred]
    cases ks with
    | nil => trivial
    | cons k' ks =>
      have hpos'' := span_pos (cons_ne_nil k' ks)
      exact hrest.congr (by omega) fun i hi => siftAt_frame hr (by omega)

section

variable (hle : TotalPreorder le) (hg : Growing le a n h k ks)
include hle hg

/-- Sifting settles a tree that will be joined. -/
theorem Growing.settled_sift (hnot : ¬ n ≤ h + 1 + leo (k - 1)) : Settled le (siftAt le a k h) n (k :: ks) h := by
  have hspan := hg.total
  have hr : leo k ≤ h + 1 := by omega
  refine ⟨(sifted hle a (a h) hr hg.ready).heap, fun _ hfinal => absurd hfinal hnot, ?_⟩
  cases ks with
  | nil => trivial
  | cons k' ks =>
    have hpos' := span_pos (cons_ne_nil k' ks)
    exact hg.settled.congr (by omega) fun i hi => siftAt_frame hr (by omega)

/-- Trinkling makes a stretch of a row whose trees cannot be joined any more. -/
theorem Growing.stretch_trinkle (hfinal : ∀ k' ∈ ks.head?, n ≤ h - leo k + 1 + leo (k' - 1)) :
    Stretch le (trinkleAt le a false (k :: ks) h) (k :: ks) h :=
  (trinkled hle a (a h) false k ks h (le_of_eq hg.total) hg.ready nofun
    (hg.stretch hfinal)).stretch

/-! ## From growing to shrinking -/

/-- The row over the whole array becomes a stretch. -/
theorem Growing.shrinking (hn : n = h + 1) : Shrinking le (trinkleAt le a false (k :: ks) h) n h k ks := by
  refine ⟨hg.shape, hg.total, hg.stretch_trinkle hle fun k' hk' => ?_, fun j h1 h2 => by omega⟩
  have hnext := hg.shape.next k' hk'
  have hmono : leo k ≤ leo (k' - 1) := leo_mono (by omega)
  omega

end

/-- The root of a last tree with children goes, and they are trinkled. -/
theorem Shrinking.split (hle : TotalPreorder le) (hs : Shrinking le a n h (k + 2) ks) :
    Shrinking le (trinkleAt le (trinkleAt le a true ((k + 1) :: ks) (h - 1 - leo k)) true
      (k :: (k + 1) :: ks) (h - 1)) n (h - 1) k ((k + 1) :: ks) := by
  have hspan := hs.total
  have hpos' := leo_pos (k + 1)
  have hsize := leo_add_two k
  obtain ⟨⟨-, hright, hleft⟩, -, hrest⟩ := hs.stretch
  have hpred : h - leo (k + 2) = h - 1 - leo k - leo (k + 1) := by omega
  rw [hpred] at hrest
  -- the left child becomes the last root of the row on its left
  have hspanL : leo (k + 1) + span ks ≤ h - 1 - leo k + 1 := by omega
  have htrinkledL := trinkled hle a (a (h - 1 - leo k)) true (k + 1) ks (h - 1 - leo k) hspanL
    (heapAt_iff.mp hleft).2 (fun _ => (heapAt_iff.mp hleft).1) hrest
  have harrangedL := trinkleAt_arranged le a true hspanL
  change Trinkled le a (trinkleAt le a true ((k + 1) :: ks) (h - 1 - leo k)) _ _ _ _ at htrinkledL
  generalize trinkleAt le a true ((k + 1) :: ks) (h - 1 - leo k) = b at htrinkledL harrangedL ⊢
  -- then the right child
  have hrightB : HeapAt le b k (h - 1) :=
    hright.congr (by omega) fun i hi _ => (htrinkledL.frame i (by omega)).symm
  have hspanR : leo k + span ((k + 1) :: ks) ≤ h - 1 + 1 := by
    rw [span]
    omega
  have htrinkledR := trinkled hle b (b (h - 1)) true k ((k + 1) :: ks) (h - 1) hspanR
    (heapAt_iff.mp hrightB).2 (fun _ => (heapAt_iff.mp hrightB).1) htrinkledL.stretch
  have harrangedR := trinkleAt_arranged le b true hspanR
  change Trinkled le b (trinkleAt le b true (k :: (k + 1) :: ks) (h - 1)) _ _ _ _ at htrinkledR
  generalize trinkleAt le b true (k :: (k + 1) :: ks) (h - 1) = c at htrinkledR harrangedR ⊢
  have harranged : Arranged h a c :=
    (harrangedL.mono (by omega)).trans (harrangedR.mono (by omega))
  refine ⟨hs.shape.split, by rw [span]; omega, htrinkledR.stretch, fun j h1 h2 i hi => ?_⟩
  have hsorted := hs.sorted_last hle j (by omega) h2
  rw [harranged.eq_of_le (by omega : h ≤ j)]
  by_cases hih : i < h
  · exact harranged.forall (P := fun v => le v (a j)) (fun i' hi' => hsorted i' (by omega)) hih
  · rw [harranged.eq_of_le (Nat.le_of_not_lt hih)]
    exact hsorted i hi

end Crabc.Lib
