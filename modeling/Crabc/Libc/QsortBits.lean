/-
  Crabc.Libc.QsortBits

  The two words of `QsortP` as one word of 128 bits.  The shifts of the two words are
  shifts of the one, `qsort_pntz` finds the lowest bit above the first, and the
  bitmap shows the orders of a row of Leonardo trees from that of the last tree on.
-/

import Crabc.Libc.Qsort
import Crabc.Lib.Smoothsort

namespace Crabc.Libc

open Crabc.Lib Or

open BitVec (eq_of_getLsbD_eq getLsbD getLsbD_one getLsbD_or getLsbD_shiftLeft getLsbD_ushiftRight ofNat_eq_ofNat)

/-! ## One word -/

def QsortP.wide (p : QsortP) : BitVec 128 := p.second ++ p.first

theorem wide_getLsbD (p : QsortP) {i : Nat} :
    p.wide.getLsbD i = if i < 64 then p.first.getLsbD i else p.second.getLsbD (i - 64) :=
  BitVec.getLsbD_append

variable {p : QsortP} {n k : Nat} {ks orders : List Nat}

theorem wide_inj {q : QsortP} (h : p.wide = q.wide) : p = q := by
  have hbit (i : Nat) := congrArg (getLsbD · i) h
  simp only [wide_getLsbD] at hbit
  have hfirst : p.first = q.first := by
    apply eq_of_getLsbD_eq
    intro i hi
    have := hbit i
    rwa [if_pos hi, if_pos hi] at this
  have hsecond : p.second = q.second := by
    apply eq_of_getLsbD_eq
    intro i hi
    have := hbit (64 + i)
    rwa [if_neg (by omega), if_neg (by omega), Nat.add_sub_cancel_left] at this
  cases q
  cases hfirst
  cases hsecond
  rfl

theorem maskShift_of_lt (h : n < 64) : maskShift n = n := by
  rw [maskShift]
  omega

theorem maskShift_opposite (h0 : 0 < n) (h : n < 64) : maskShift (64 - n) = 64 - n := by
  rw [maskShift]
  omega

theorem wide_within (h0 : 0 < n) (h : n < 64) :
    (shlWithin p n).wide = p.wide <<< n ∧ (shrWithin p n).wide = p.wide >>> n := by
  constructor
  all_goals
    apply eq_of_getLsbD_eq
    intro i hi
    simp only [shlWithin, shrWithin, maskShift_of_lt h, maskShift_opposite h0 h,
      getLsbD_or, getLsbD_shiftLeft, getLsbD_ushiftRight, wide_getLsbD]
    grind

open Nat

/-- `qsort_shl` and `qsort_shr` shift the one word. -/
theorem wide_qsortShift (h0 : 0 < n) (h : n < 128) :
    (qsortShl p n).wide = p.wide <<< n ∧ (qsortShr p n).wide = p.wide >>> n := by
  have hword : (⟨0, p.first⟩ : QsortP).wide = p.wide <<< 64 ∧ (⟨p.second, 0⟩ : QsortP).wide = p.wide >>> 64 := by
    constructor
    all_goals
      apply eq_of_getLsbD_eq
      simp only [getLsbD_shiftLeft, getLsbD_ushiftRight, wide_getLsbD]
      grind
  by_cases hn : n < 64
  · have hlt : ¬(n : Int) ≥ 64 := by omega
    simp only [qsortShl, qsortShr, if_neg hlt]
    exact wide_within h0 hn
  have hge : (n : Int) ≥ 64 := by omega
  simp only [qsortShl, qsortShr, if_pos hge]
  by_cases hzero : n = 64
  · subst hzero
    exact hword
  · have hcast : (n : Int) - 64 = (n - 64 : Nat) := by omega
    have hne : ((n - 64 : Nat) : Int) ≠ 0 := by omega
    rw [hcast, if_neg hne, if_neg hne, (wide_within (by omega) (by omega)).1, (wide_within (by omega) (by omega)).2,
      hword.1, hword.2, ← BitVec.shiftLeft_add, ← BitVec.shiftRight_add, add_sub_of_le (Nat.le_of_not_lt hn)]
    exact ⟨rfl, rfl⟩

/-! ## The lowest bit above the first -/

open List

variable {j k' : Nat} {word : BitVec 64}

theorem trailingZeros_eq (hj : word.getLsbD j = true) (hlow : ∀ i < j, word.getLsbD i = false) :
    trailingZeros word = j := by
  have hlt : j < 64 := BitVec.lt_of_getLsbD hj
  have hfind : (range 64).find? word.getLsbD = some j := by
    rw [find?_range_eq_some]
    exact ⟨hj, mem_range.mpr hlt, fun i hi => by rw [hlow i hi]; rfl⟩
  rw [trailingZeros, hfind]
  rfl

/-- Subtracting one clears the first bit where it is set. -/
theorem getLsbD_sub_one (h : word.getLsbD 0 = true) {i : Nat} :
    (word - 1).getLsbD i = (decide (i ≠ 0) && word.getLsbD i) := by
  have hodd : word.toNat % 2 = 1 := by
    rw [getLsbD, testBit_zero] at h
    exact of_decide_eq_true h
  have hsub : (word - 1).toNat = word.toNat - 1 := by
    rw [BitVec.toNat_sub_of_le]
    · rfl
    · exact one_le_iff_ne_zero.mpr (by omega)
  rw [getLsbD, getLsbD, hsub]
  cases i with
  | zero =>
    rw [testBit_zero]
    simp only [ne_eq, not_true_eq_false, decide_false, Bool.false_and, decide_eq_false_iff_not]
    omega
  | succ i =>
    have hhalf : (word.toNat - 1) / 2 = word.toNat / 2 := by omega
    rw [testBit_succ, testBit_succ, hhalf]
    simp

/-- `qsort_pntz` is the position of the lowest bit above the first. -/
theorem qsortPntz_eq (hfirst : p.wide.getLsbD 0 = true) (h0 : 0 < j) (hj : p.wide.getLsbD j = true)
    (hlow : ∀ i, 0 < i → i < j → p.wide.getLsbD i = false) : qsortPntz p = j := by
  have hbit0 : p.first.getLsbD 0 = true := by rwa [wide_getLsbD, if_pos (by omega)] at hfirst
  rw [qsortPntz]
  by_cases hin : j < 64
  · have hbit : p.first.getLsbD j = true := by rwa [wide_getLsbD, if_pos hin] at hj
    have hne : p.first ≠ 1 := by
      intro hone
      rw [hone, ofNat_eq_ofNat, getLsbD_one] at hbit
      simp only [Bool.and_eq_true, decide_eq_true_eq] at hbit
      omega
    rw [if_pos hne]
    apply trailingZeros_eq
    · rw [getLsbD_sub_one hbit0, hbit, decide_eq_true (by omega)]
      rfl
    · intro i hi
      rw [getLsbD_sub_one hbit0]
      rcases Nat.eq_zero_or_pos i with rfl | hpos
      · rfl
      · have := hlow i hpos hi
        rw [wide_getLsbD, if_pos (by omega)] at this
        rw [this, Bool.and_false]
  · have hone : p.first = 1 := by
      apply eq_of_getLsbD_eq
      intro i hi
      rw [ofNat_eq_ofNat, getLsbD_one]
      rcases Nat.eq_zero_or_pos i with rfl | hpos
      · rw [hbit0]
        rfl
      · have := hlow i hpos (by omega)
        rw [wide_getLsbD, if_pos hi] at this
        rw [this, decide_eq_false (by omega : ¬ i = 0), Bool.and_false]
    have hbit : p.second.getLsbD (j - 64) = true := by rwa [wide_getLsbD, if_neg hin] at hj
    have hne : p.second ≠ 0 := by
      intro hzero
      rw [hzero, ofNat_eq_ofNat, BitVec.getLsbD_zero] at hbit
      exact Bool.false_ne_true hbit
    rw [if_neg (fun h => h hone), if_pos hne, trailingZeros_eq hbit, add_sub_of_le (by omega)]
    intro i hi
    have := hlow (64 + i) (by omega) (by omega)
    rwa [wide_getLsbD, if_neg (by omega), Nat.add_sub_cancel_left] at this

/-! ## The orders of a row -/

/-- Bit `i` tells whether the row has a tree of order `k + i`. -/
def Shows (p : QsortP) (k : Nat) (orders : List Nat) : Prop :=
  ∀ i, p.wide.getLsbD i = true ↔ k + i ∈ orders

theorem shows_one : Shows ⟨1, 0⟩ 1 [1] := by
  intro i
  rw [wide_getLsbD, ofNat_eq_ofNat, ofNat_eq_ofNat, getLsbD_one, BitVec.getLsbD_zero, mem_singleton]
  grind

theorem Shows.first (hp : Shows p k (k :: ks)) : p.wide.getLsbD 0 = true :=
  (hp 0).mpr mem_cons_self

/-- The bitmap of one tree. -/
theorem Shows.ne_one_iff (hshape : Shape k ks) (hp : Shows p k (k :: ks)) : (p.first ≠ 1 ∨ p.second ≠ 0) ↔ ks ≠ [] := by
  constructor
  · rintro hne rfl
    have hone : p = ⟨1, 0⟩ := by
      apply wide_inj
      apply eq_of_getLsbD_eq
      intro i _
      rw [Bool.eq_iff_iff, hp i, shows_one i, mem_singleton, mem_singleton]
      omega
    rw [hone] at hne
    exact hne.elim (fun h => h rfl) (fun h => h rfl)
  · intro hne
    by_contra hnot
    rw [not_or, not_not, not_not] at hnot
    -- the bit of the tree on the left is set, but not in the bitmap of one tree
    obtain ⟨k', ks, rfl⟩ := exists_cons_of_ne_nil hne
    have hlt := hshape.next k' rfl
    have hbit := hp (k' - k)
    have hone : p = ⟨1, 0⟩ := by
      cases p
      cases hnot.1
      cases hnot.2
      rfl
    rw [hone, shows_one, add_sub_of_le hlt.le, mem_singleton] at hbit
    have := hbit.mpr (mem_cons_of_mem _ mem_cons_self)
    omega

/-- `qsort_pntz` is the distance to the order of the tree on the left. -/
theorem Shows.pntz (hshape : Shape k (k' :: ks)) (hp : Shows p k (k :: k' :: ks)) : qsortPntz p = k' - k := by
  have hlt := hshape.next k' rfl
  have hlt' := hshape.pop.lt
  apply qsortPntz_eq hp.first
  · omega
  · rw [hp, add_sub_of_le hlt.le]
    exact mem_cons_of_mem _ mem_cons_self
  · intro i h0 hi
    rw [← Bool.not_eq_true, hp i, mem_cons, mem_cons]
    rintro (h | h | h)
    · omega
    · omega
    · have := hlt' _ h
      omega

/-- Shifting trees out of the bitmap. -/
theorem Shows.shr (h0 : 0 < n) (hn : n < 128) (hp : Shows p k orders) : Shows (qsortShr p n) (k + n) orders := by
  intro i
  rw [(wide_qsortShift h0 hn).2, getLsbD_ushiftRight, hp, add_assoc]

/-- Shifting the bitmap to lower orders. -/
theorem Shows.shl (h0 : 0 < n) (hn : n < 128) (hlow : ∀ j ∈ orders, k + n ≤ j) (hsmall : ∀ j ∈ orders, j < 128)
    (hp : Shows p (k + n) orders) : Shows (qsortShl p n) k orders := by
  intro i
  rw [(wide_qsortShift h0 hn).1, getLsbD_shiftLeft]
  by_cases hi : i < n
  · rw [decide_eq_true hi, Bool.not_true, Bool.and_false, Bool.false_and]
    exact ⟨nofun, fun hmem => by have := hlow _ hmem; omega⟩
  have heq : k + n + (i - n) = k + i := by omega
  rw [decide_eq_false hi, Bool.not_false, Bool.and_true, Bool.and_eq_true, decide_eq_true_eq, hp, heq]
  exact ⟨And.right, fun hmem => ⟨by have := hsmall _ hmem; omega, hmem⟩⟩

theorem Shows.congr {orders' : List Nat} (h : ∀ j, k ≤ j → (j ∈ orders ↔ j ∈ orders')) (hp : Shows p k orders) :
    Shows p k orders' :=
  fun i => (hp i).trans (h _ (le_add_right k i))

/-- The first bit set. -/
theorem Shows.or_one (hp : Shows p k orders) : Shows { p with first := p.first ||| 1 } k (k :: orders) := by
  intro i
  have hbit : ({ p with first := p.first ||| 1 } : QsortP).wide.getLsbD i = (decide (i = 0) || p.wide.getLsbD i) := by
    rw [wide_getLsbD, wide_getLsbD, getLsbD_or, ofNat_eq_ofNat, getLsbD_one]
    grind
  rw [hbit, Bool.or_eq_true, decide_eq_true_eq, hp, mem_cons]
  exact or_congr_left (by omega)

theorem getLsbD_literal {c i : Nat} (hc : c < 2 ^ n) (hi : n ≤ i) : (BitVec.ofNat 64 c).getLsbD i = false := by
  rw [BitVec.getLsbD_ofNat, Nat.testBit_lt_two_pow (Nat.lt_of_lt_of_le hc
    (Nat.pow_le_pow_right (by omega) hi)), Bool.and_false]

/-- The three low bits flipped: the last tree gives way to its two children. -/
theorem Shows.xor_seven (hlt : ∀ j ∈ ks, k + 2 < j) (hp : Shows p k ((k + 2) :: ks)) :
    Shows { p with first := p.first ^^^ 7 } k (k :: (k + 1) :: ks) := by
  intro i
  have hseven : (7 : BitVec 64).getLsbD i = decide (i < 3) := by
    rcases lt_or_ge i 3 with hi | hi
    · interval_cases i <;> rfl
    · rw [decide_eq_false (by omega)]
      exact getLsbD_literal (c := 7) (n := 3) (by omega) hi
  have hbit : ({ p with first := p.first ^^^ 7 } : QsortP).wide.getLsbD i = (p.wide.getLsbD i ^^ decide (i < 3)) := by
    rw [wide_getLsbD, wide_getLsbD, BitVec.getLsbD_xor, hseven]
    by_cases hi : i < 64
    · rw [if_pos hi, if_pos hi]
    · rw [if_neg hi, if_neg hi, decide_eq_false (by omega : ¬ i < 3), Bool.xor_false]
  have hpi := hp i
  by_cases hi : i < 3
  · grind
  · grind

/-! ## Steps of the two loops -/

/-- Going on to the tree on the left. -/
theorem Shows.pop (hshape : Shape k (k' :: ks)) (hsmall : k' < 128) (hp : Shows p k (k :: k' :: ks)) :
    Shows (qsortShr p (qsortPntz p)) k' (k' :: ks) := by
  have hlt := hshape.next k' rfl
  have hshr := hp.shr (n := k' - k) (by omega) (by omega)
  rw [hp.pntz hshape]
  rw [add_sub_of_le hlt.le] at hshr
  apply hshr.congr
  intro j hj
  rw [mem_cons]
  exact ⟨fun h => h.resolve_left (by omega), inr⟩

/-- A tree of a lower order behind the row. -/
theorem Shows.push (hshape : Shape k ks) (hj : j < k) (hsmall : ∀ i ∈ k :: ks, i < 128) (hp : Shows p k (k :: ks)) :
    Shows { qsortShl p (k - j : Nat) with first := (qsortShl p (k - j : Nat)).first ||| 1 } j
      (j :: k :: ks) := by
  have hk := hsmall k mem_cons_self
  apply Shows.or_one
  have hle : ∀ i ∈ k :: ks, j + (k - j) ≤ i := by
    rintro i (_ | ⟨_, hi⟩)
    · omega
    · have := hshape.lt i hi
      omega
  rw [← add_sub_of_le hj.le] at hp
  exact (hp.congr fun i _ => by rw [add_sub_of_le hj.le]).shl (by omega) (by omega)
    hle hsmall

/-- The last two trees under a new root. -/
theorem Shows.join (hp : Shows p k (k :: (k + 1) :: ks)) :
    Shows { qsortShr p 2 with first := (qsortShr p 2).first ||| 1 } (k + 2) ((k + 2) :: ks) := by
  apply Shows.or_one
  apply (hp.shr (n := 2) (by omega) (by omega)).congr
  intro j hj
  rw [mem_cons, mem_cons]
  exact ⟨fun h => (h.resolve_left (by omega)).resolve_left (by omega), fun h => inr (inr h)⟩

/-- The left child of the last root becomes the last tree. -/
theorem Shows.split (hshape : Shape (k + 2) ks) (hsmall : ∀ i ∈ (k + 2) :: ks, i < 128)
    (hp : Shows p (k + 2) ((k + 2) :: ks)) :
    Shows (qsortShr { qsortShl p 2 with first := (qsortShl p 2).first ^^^ 7 } 1) (k + 1)
      ((k + 1) :: ks) := by
  have hle : ∀ i ∈ (k + 2) :: ks, k + 2 ≤ i := by
    rintro i (_ | ⟨_, hi⟩)
    · omega
    · exact le_of_lt (hshape.lt i hi)
  have hshl := hp.shl (by omega) (by omega) hle hsmall
  apply ((hshl.xor_seven hshape.lt).shr (n := 1) (by omega) (by omega)).congr
  intro j hj
  rw [mem_cons]
  exact ⟨fun h => h.resolve_left (by omega), inr⟩

/-- The test of the growing loop: the last two trees can be joined. -/
theorem Shows.and_three_iff (hshape : Shape k ks) (hp : Shows p k (k :: ks)) :
    p.first &&& 3 = 3 ↔ ks.head? = some (k + 1) := by
  have hbit0 := hp.first
  have hbit1 := hp 1
  rw [wide_getLsbD, if_pos (by omega)] at hbit0 hbit1
  have hiff : p.first &&& 3 = 3 ↔ p.first.getLsbD 1 = true := by
    constructor
    · intro h
      have := congrArg (getLsbD · 1) h
      simpa using this
    · intro h
      apply eq_of_getLsbD_eq
      intro i hi
      rw [BitVec.getLsbD_and]
      rcases lt_or_ge i 2 with hi2 | hi2
      · interval_cases i
        · rw [hbit0]; rfl
        · rw [h]; rfl
      · have hthree : (3 : BitVec 64).getLsbD i = false :=
          getLsbD_literal (c := 3) (n := 2) (by omega) hi2
        rw [hthree, Bool.and_false]
  rw [hiff, hbit1]
  cases ks with
  | nil => simp
  | cons k' ks =>
    have hlt' := hshape.pop.lt
    have hk' := hshape.next k' rfl
    simp only [mem_cons, head?_cons, Option.some.injEq]
    constructor
    · rintro (h | h | h)
      · omega
      · exact h.symm
      · have := hlt' _ h
        omega
    · intro h
      exact inr (inl h.symm)

end Crabc.Libc
