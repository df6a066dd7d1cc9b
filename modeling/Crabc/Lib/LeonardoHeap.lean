/-
  Crabc.Lib.LeonardoHeap

  Leonardo trees over the positions of an array.  A tree of order `k` with its
  root at position `r` takes the `leo k` positions up to `r`; below its root are a
  tree of order `k - 2`, whose root is the position before, and left of it a tree
  of order `k - 1`.  A heap has no value above its parent's.

  Sifting walks down from the root towards the larger child and rotates the values
  of the path.  The values are those of any type with a total preorder.
-/

import Crabc.Lib.Rotation

namespace Crabc.Lib

/-! ## Leonardo numbers -/

def leo : Nat → Nat
  | 0 => 1
  | 1 => 1
  | k + 2 => leo (k + 1) + leo k + 1

theorem leo_add_two (k : Nat) : leo (k + 2) = leo (k + 1) + leo k + 1 := rfl

open Nat

theorem leo_pos : ∀ k, 0 < leo k
  | 0 => one_pos
  | 1 => one_pos
  | _ + 2 => succ_pos _

variable {k : Nat}

theorem leo_lt_succ (h : 1 ≤ k) : leo k < leo (k + 1) := by
  obtain ⟨k, rfl⟩ := Nat.exists_eq_add_of_le' h
  rw [leo_add_two]
  omega

theorem leo_le_succ : leo k ≤ leo (k + 1) := by
  cases k with
  | zero => exact le_refl 1
  | succ k => exact le_of_lt (leo_lt_succ (le_add_left 1 k))

theorem leo_mono {j : Nat} (h : j ≤ k) : leo j ≤ leo k := by
  induction k, h using le_induction with
  | base => exact le_refl _
  | succ k _ ih => exact ih.trans leo_le_succ

/-- Leonardo numbers are odd multiples of the golden growth: twice a Fibonacci number, less one. -/
theorem leo_add_one_eq_fib : ∀ k, leo k + 1 = 2 * fib (k + 1)
  | 0 => rfl
  | 1 => rfl
  | k + 2 => by
      have h1 := leo_add_one_eq_fib (k + 1)
      have h0 := leo_add_one_eq_fib k
      rw [leo_add_two, fib_add_two]
      omega

/-! ## Heaps -/

structure TotalPreorder {α : Type} (le : α → α → Prop) : Prop where
  trans : ∀ {x y z}, le x y → le y z → le x z
  total : ∀ x y, le x y ∨ le y x

variable {α : Type} {le : α → α → Prop}

theorem TotalPreorder.refl (h : TotalPreorder le) (x : α) : le x x := (h.total x x).elim id id

variable {x u v : α}

theorem TotalPreorder.of_not (h : TotalPreorder le) {y : α} (hn : ¬ le x y) : le y x :=
  (h.total x y).resolve_left hn

/-- Both children of a root, if it has any, are at most `u`. -/
def ChildrenLe (le : α → α → Prop) (a : Nat → α) : Nat → Nat → α → Prop
  | k + 2, r, u => le (a (r - 1)) u ∧ le (a (r - 1 - leo k)) u
  | _, _, _ => True

def HeapAt (le : α → α → Prop) (a : Nat → α) : Nat → Nat → Prop
  | k + 2, r => ChildrenLe le a (k + 2) r (a r) ∧ HeapAt le a k (r - 1) ∧
      HeapAt le a (k + 1) (r - 1 - leo k)
  | _, _ => True

/-- Both subtrees of a root are heaps. -/
def Ready (le : α → α → Prop) (a : Nat → α) : Nat → Nat → Prop
  | k + 2, r => HeapAt le a k (r - 1) ∧ HeapAt le a (k + 1) (r - 1 - leo k)
  | _, _ => True

variable {r : Nat} {a b : Nat → α}

theorem heapAt_iff : HeapAt le a k r ↔ ChildrenLe le a k r (a r) ∧ Ready le a k r := by
  match k with
  | 0 | 1 => exact ⟨fun _ => ⟨trivial, trivial⟩, fun _ => trivial⟩
  | k + 2 => exact Iff.rfl

/-- The children of a root are in its tree and before the root. -/
theorem children_bounds (h : leo (k + 2) ≤ r + 1) :
    leo k ≤ r - 1 + 1 ∧ leo (k + 1) ≤ r - 1 - leo k + 1 ∧ r - 1 < r ∧ r - 1 - leo k < r - 1 ∧
      r - 1 - leo k + leo k = r - 1 := by
  have h0 := leo_pos k
  have h1 := leo_pos (k + 1)
  rw [leo_add_two] at h
  omega

theorem ChildrenLe.congr (hr : leo k ≤ r + 1)
    (hab : ∀ i, r < i + leo k → i < r → a i = b i) (h : ChildrenLe le a k r u) :
    ChildrenLe le b k r u := by
  match k with
  | 0 => trivial
  | 1 => trivial
  | k + 2 =>
    obtain ⟨h1, h2⟩ := h
    have hb := children_bounds hr
    have h1' := leo_pos (k + 1)
    rw [leo_add_two] at hab
    rw [hab _ (by omega) (by omega)] at h1 h2
    exact ⟨h1, h2⟩

theorem ChildrenLe.trans (hle : TotalPreorder le) (h : ChildrenLe le a k r u)
    (huv : le u v) : ChildrenLe le a k r v := by
  match k with
  | 0 => trivial
  | 1 => trivial
  | k + 2 => exact ⟨hle.trans h.1 huv, hle.trans h.2 huv⟩

/-- Heaps only depend on the positions of their tree. -/
theorem HeapAt.congr : ∀ {k r : Nat}, leo k ≤ r + 1 →
    (∀ i, r < i + leo k → i ≤ r → a i = b i) → HeapAt le a k r → HeapAt le b k r
  | 0, _, _, _, _ => trivial
  | 1, _, _, _, _ => trivial
  | k + 2, r, hr, hab, h => by
      obtain ⟨hchildren, hright, hleft⟩ := h
      have hb := children_bounds hr
      have hsize := leo_add_two k
      refine ⟨?_, ?_, ?_⟩
      · rw [← hab r (by omega) (le_refl r)]
        exact hchildren.congr hr fun i h1 h2 => hab i h1 h2.le
      · exact HeapAt.congr hb.1 (fun i h1 h2 => hab i (by omega) (by omega)) hright
      · exact HeapAt.congr hb.2.1 (fun i h1 h2 => hab i (by omega) (by omega)) hleft

theorem Ready.congr (hr : leo k ≤ r + 1) (hab : ∀ i, r < i + leo k → i < r → a i = b i)
    (h : Ready le a k r) : Ready le b k r := by
  match k with
  | 0 => trivial
  | 1 => trivial
  | k + 2 =>
    have hb := children_bounds hr
    have hsize := leo_add_two k
    refine ⟨h.1.congr hb.1 fun i h1 h2 => hab i (by omega) (by omega),
      h.2.congr hb.2.1 fun i h1 h2 => hab i (by omega) (by omega)⟩

/-- The root of a heap is its largest value. -/
theorem HeapAt.le_root (hle : TotalPreorder le) : ∀ {k r : Nat}, leo k ≤ r + 1 →
    HeapAt le a k r → ∀ i, r < i + leo k → i ≤ r → le (a i) (a r)
  | 0, r, _, _, i, h1, h2 | 1, r, _, _, i, h1, h2 => by
      have hi : i = r := by rw [leo] at h1; omega
      rw [hi]
      exact hle.refl _
  | k + 2, r, hr, h, i, h1, h2 => by
      obtain ⟨hchildren, hright, hleft⟩ := h
      have hb := children_bounds hr
      have hsize := leo_add_two k
      rcases (by omega : i = r ∨ (r - 1 < i + leo k ∧ i ≤ r - 1) ∨
        (r - 1 - leo k < i + leo (k + 1) ∧ i ≤ r - 1 - leo k)) with rfl | ⟨h3, h4⟩ | ⟨h3, h4⟩
      · exact hle.refl _
      · exact hle.trans (HeapAt.le_root hle hb.1 hright i h3 h4) hchildren.1
      · exact hle.trans (HeapAt.le_root hle hb.2.1 hleft i h3 h4) hchildren.2

/-! ## Sifting -/

/-- What sifting leaves at the root: `x` or a child of the root, whichever is larger. -/
structure Sifted (le : α → α → Prop) (a b : Nat → α) (x : α) (k r : Nat) : Prop where
  heap : HeapAt le b k r
  le_root : le x (b r)
  children : ChildrenLe le a k r (b r)
  root_le : ∀ u, le x u → ChildrenLe le a k r u → le (b r) u

open Function

theorem update_below {i : Nat} (hi : i < r) : a i = update a r v i :=
  (update_of_ne hi.ne v a).symm

/-- A value `v` at the root, above both children as they are now. -/
theorem sifted_descend (hr : leo k ≤ r + 1) (hx : le x v) (hchildren : ChildrenLe le a k r v)
    (hv : ∀ u, le x u → ChildrenLe le a k r u → le v u) (hb : ChildrenLe le b k r v)
    (hready : Ready le b k r) : Sifted le a (update b r v) x k r := by
  refine ⟨heapAt_iff.mpr ⟨?_, hready.congr hr fun i _ hi => update_below hi⟩, ?_, ?_, ?_⟩
  all_goals rw [update_self]
  · exact hb.congr hr fun i _ hi => update_below hi
  · exact hx
  · exact hchildren
  · exact hv

/-- `x` stays at the root when it is above both children. -/
theorem sifted_stop (hle : TotalPreorder le) (hr : leo k ≤ r + 1)
    (hready : Ready le a k r) (hchildren : ChildrenLe le a k r x) : Sifted le a (update a r x) x k r :=
  sifted_descend hr (hle.refl x) hchildren (fun _ hu _ => hu) hchildren hready

open List

section Sift

variable [DecidableRel le]

/-- The path of `x` from the root of a tree down to where it belongs. -/
def siftPath (le : α → α → Prop) [DecidableRel le] (a : Nat → α) (x : α) : Nat → Nat → List Nat
  | k + 2, r =>
    if le (a (r - 1 - leo k)) x ∧ le (a (r - 1)) x then [r]
    else if le (a (r - 1)) (a (r - 1 - leo k)) then r :: siftPath le a x (k + 1) (r - 1 - leo k)
    else r :: siftPath le a x k (r - 1)
  | _, r => [r]

section

variable (le) (a : Nat → α) (x : α)

/-- The three ways to go on from the root of a tree that has children. -/
theorem siftPath_cases (k r : Nat) : (le (a (r - 1 - leo k)) x ∧ le (a (r - 1)) x ∧ siftPath le a x (k + 2) r = [r]) ∨
      (¬ (le (a (r - 1 - leo k)) x ∧ le (a (r - 1)) x) ∧ le (a (r - 1)) (a (r - 1 - leo k)) ∧
        siftPath le a x (k + 2) r = r :: siftPath le a x (k + 1) (r - 1 - leo k)) ∨
      (¬ (le (a (r - 1 - leo k)) x ∧ le (a (r - 1)) x) ∧ ¬ le (a (r - 1)) (a (r - 1 - leo k)) ∧
        siftPath le a x (k + 2) r = r :: siftPath le a x k (r - 1)) := by
  rw [siftPath]
  by_cases h1 : le (a (r - 1 - leo k)) x ∧ le (a (r - 1)) x
  · rw [if_pos h1]
    exact Or.inl ⟨h1.1, h1.2, rfl⟩
  rw [if_neg h1]
  by_cases h2 : le (a (r - 1)) (a (r - 1 - leo k))
  · rw [if_pos h2]
    exact Or.inr (Or.inl ⟨h1, h2, rfl⟩)
  · rw [if_neg h2]
    exact Or.inr (Or.inr ⟨h1, h2, rfl⟩)

theorem siftPath_head (k r : Nat) : ∃ path, siftPath le a x k r = r :: path := by
  match k with
  | 0 => exact ⟨[], rfl⟩
  | 1 => exact ⟨[], rfl⟩
  | k + 2 =>
    rcases siftPath_cases le a x k r with ⟨-, -, h⟩ | ⟨-, -, h⟩ | ⟨-, -, h⟩
    all_goals exact ⟨_, h⟩

theorem siftPath_mem : ∀ {k r : Nat}, leo k ≤ r + 1 →
    ∀ i ∈ siftPath le a x k r, r < i + leo k ∧ i ≤ r
  | 0, r, _, i, hi | 1, r, _, i, hi => by
      have hir : i = r := mem_singleton.mp hi
      rw [hir]
      exact ⟨lt_succ_self r, le_refl r⟩
  | k + 2, r, hr, i, hi => by
      have hb := children_bounds hr
      have hsize := leo_add_two k
      rcases siftPath_cases le a x k r with ⟨-, -, h⟩ | ⟨-, -, h⟩ | ⟨-, -, h⟩
      · rw [h, mem_singleton] at hi
        omega
      all_goals
        rw [h, mem_cons] at hi
        rcases hi with rfl | hi
        · omega
      · have hrec := siftPath_mem hb.2.1 i hi
        omega
      · have hrec := siftPath_mem hb.1 i hi
        omega

theorem siftPath_nodup : ∀ {k r : Nat}, leo k ≤ r + 1 → (siftPath le a x k r).Nodup
  | 0, _, _ | 1, _, _ => nodup_singleton _
  | k + 2, r, hr => by
      have hb := children_bounds hr
      rcases siftPath_cases le a x k r with ⟨-, -, h⟩ | ⟨-, -, h⟩ | ⟨-, -, h⟩
      · rw [h]
        exact nodup_singleton _
      · rw [h, nodup_cons]
        refine ⟨fun hmem => ?_, siftPath_nodup hb.2.1⟩
        have hrec := siftPath_mem le a x hb.2.1 r hmem
        omega
      · rw [h, nodup_cons]
        refine ⟨fun hmem => ?_, siftPath_nodup hb.1⟩
        have hrec := siftPath_mem le a x hb.1 r hmem
        omega

theorem siftPath_length : ∀ k r : Nat, (siftPath le a x k r).length ≤ k + 1
  | 0, _ => le_refl 1
  | 1, _ => le_succ 1
  | k + 2, r => by
      rcases siftPath_cases le a x k r with ⟨-, -, h⟩ | ⟨-, -, h⟩ | ⟨-, -, h⟩
      · rw [h, length_singleton]
        omega
      · have hrec := siftPath_length (k + 1) (r - 1 - leo k)
        rw [h, length_cons]
        omega
      · have hrec := siftPath_length k (r - 1)
        rw [h, length_cons]
        omega

end

/-- The path only looks at the positions below the root. -/
theorem siftPath_congr {a b : Nat → α} (x : α) : ∀ {k r : Nat}, leo k ≤ r + 1 →
    (∀ i, r < i + leo k → i < r → a i = b i) → siftPath le a x k r = siftPath le b x k r
  | 0, _, _, _ => rfl
  | 1, _, _, _ => rfl
  | k + 2, r, hr, hab => by
      have hb := children_bounds hr
      have hsize := leo_add_two k
      have h1 := leo_pos (k + 1)
      have hright : a (r - 1) = b (r - 1) := hab _ (by omega) (by omega)
      have hleft : a (r - 1 - leo k) = b (r - 1 - leo k) := hab _ (by omega) (by omega)
      have hrec1 := siftPath_congr (a := a) (b := b) x hb.2.1
        fun i h1 h2 => hab i (by omega) (by omega)
      have hrec0 := siftPath_congr (a := a) (b := b) x hb.1
        fun i h1 h2 => hab i (by omega) (by omega)
      rw [siftPath, siftPath, hright, hleft, hrec1, hrec0]

/-- Behind the first step the path is that of the child. -/
theorem place_siftPath {a : Nat → α} {x : α} (c : Nat) : place a (r :: siftPath le a x k c) x =
      update (place a (siftPath le a x k c) x) r (a c) := by
  obtain ⟨path, hpath⟩ := siftPath_head le a x k c
  rw [hpath, place_cons_cons]

/-- **Sift.**  Placing `x` along its path makes a heap of two heaps and `x`. -/
theorem sifted (hle : TotalPreorder le) (a : Nat → α) (x : α) : ∀ {k r : Nat}, leo k ≤ r + 1 →
    Ready le a k r → Sifted le a (place a (siftPath le a x k r) x) x k r
  | 0, r, hr, hready | 1, r, hr, hready => sifted_stop hle hr hready trivial
  | k + 2, r, hr, hready => by
      have hb := children_bounds hr
      rcases siftPath_cases le a x k r with ⟨hl, hrt, h⟩ | ⟨hn, hlr, h⟩ | ⟨hn, hlr, h⟩
      · rw [h, place]
        exact sifted_stop hle hr hready ⟨hrt, hl⟩
      · -- the left child is the largest of the three, and `x` goes on below it
        have hx : le x (a (r - 1 - leo k)) := by
          by_contra hx
          have hlx := hle.of_not hx
          exact hn ⟨hlx, hle.trans hlr hlx⟩
        have hrec := sifted hle a x hb.2.1 (heapAt_iff.mp hready.2).2
        have hroot := hrec.root_le _ hx (heapAt_iff.mp hready.2).1
        have hframe (i : Nat) (hi : r - 1 - leo k < i) :
            a i = place a (siftPath le a x (k + 1) (r - 1 - leo k)) x i :=
          (place_of_notMem fun hmem => by have := siftPath_mem le a x hb.2.1 i hmem; omega).symm
        rw [h, place_siftPath]
        refine sifted_descend hr hx ⟨hlr, hle.refl _⟩ (fun u _ hu => hu.2) ⟨?_, hroot⟩
          ⟨hready.1.congr hb.1 fun i _ _ => hframe i (by omega), hrec.heap⟩
        rw [← hframe _ (by omega)]
        exact hlr
      · -- the right child is
        have hlr := hle.of_not hlr
        have hx : le x (a (r - 1)) := by
          by_contra hx
          have hrx := hle.of_not hx
          exact hn ⟨hle.trans hlr hrx, hrx⟩
        have hrec := sifted hle a x hb.1 (heapAt_iff.mp hready.1).2
        have hroot := hrec.root_le _ hx (heapAt_iff.mp hready.1).1
        have hframe (i : Nat) (hi : i ≤ r - 1 - leo k) :
            a i = place a (siftPath le a x k (r - 1)) x i :=
          (place_of_notMem fun hmem => by have := siftPath_mem le a x hb.1 i hmem; omega).symm
        rw [h, place_siftPath]
        refine sifted_descend hr hx ⟨hle.refl _, hlr⟩ (fun u _ hu => hu.1) ⟨hroot, ?_⟩
          ⟨hrec.heap, hready.2.congr hb.2.1 fun i _ hi => hframe i hi⟩
        rw [← hframe _ (le_refl _)]
        exact hlr

end Sift

end Crabc.Lib
