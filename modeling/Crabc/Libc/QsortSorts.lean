/-
  Crabc.Libc.QsortSorts

  The two loops of `qsort_with_context` carry the row of Leonardo trees over the
  array and back, with the bitmap and `pshift` showing its orders.  Together they
  sort: the array ends as a rearrangement of its records in the order of the
  comparison callback.
-/

import Crabc.Libc.QsortWalk

namespace Crabc.Libc

open Crabc.Lib

/-! ## The table of sizes -/

open Option Nat

/-- The loop that fills `lp` gets to every tree that fits the array. -/
theorem fillLp_table {width nel : Nat} (hpos : 0 < width) (hsmall : width * nel < 2 ^ 64)
    (slots li : Nat) (lp : List Nat) (hli : li + slots = 96) (htwo : 2 ≤ li) (hlen : lp.length = 96)
    (hlp : ∀ k < li, lp[k]? = some (width * leo k)) :
    ∃ lp', fillLp width (width * nel) slots lp = some lp' ∧ ∀ k, leo k ≤ nel → lp'[k]? = some (width * leo k) := by
  induction slots generalizing li lp with
  | zero =>
    refine ⟨lp, rfl, fun k hk => hlp k ?_⟩
    have hle : 1 * nel ≤ width * nel := mul_le_mul_right nel hpos
    have hlt := order_lt (by omega : leo k < 2 ^ 64)
    omega
  | succ slots ih =>
    obtain ⟨j, rfl⟩ := Nat.exists_eq_add_of_le' htwo
    have hslot : lpLen - (slots + 1) = j + 2 := by
      rw [lpLen]
      omega
    have hbefore : qsortWord lp (((j + 2 : Nat) : Int) - 2) = some (width * leo j) := by
      have hcast : ((j + 2 : Nat) : Int) - 2 = (j : Int) := by omega
      rw [hcast, qsortWord, if_pos (Int.natCast_nonneg j), Int.toNat_natCast, hlp j (by omega)]
    have hlast : qsortWord lp (((j + 2 : Nat) : Int) - 1) = some (width * leo (j + 1)) := by
      have hcast : ((j + 2 : Nat) : Int) - 1 = ((j + 1 : Nat) : Int) := by omega
      rw [hcast, qsortWord, if_pos (Int.natCast_nonneg _), Int.toNat_natCast, hlp (j + 1) (by omega)]
    -- the next size is that of the next Leonardo number
    have hsize : width * leo j + width * leo (j + 1) + width = width * leo (j + 2) := by
      rw [leo_add_two, mul_add, mul_add]
      omega
    -- the trees above a size that is too large are too large
    have habove {k : Nat} (hk : leo k ≤ nel) (hbig : width * nel < width * leo (j + 2)) :
        k < j + 2 := by
      by_contra hge
      have hmono := leo_mono (Nat.le_of_not_lt hge)
      have := mul_le_mul_left width (hmono.trans hk)
      omega
    rw [fillLp, hslot, hbefore, hlast]
    simp only [bind_eq_bind, bind_some, checkedAdd]
    by_cases h1 : width * leo j + width * leo (j + 1) < 2 ^ 64
    · rw [if_pos h1, bind_some]
      by_cases h2 : width * leo j + width * leo (j + 1) + width < 2 ^ 64
      · rw [if_pos h2, hsize]
        have hlp' (k : Nat) (hk : k < j + 3) :
            (lp.set (j + 2) (width * leo (j + 2)))[k]? = some (width * leo k) := by
          rcases lt_or_eq_of_le (le_of_lt_succ hk) with hlt | rfl
          · rw [List.getElem?_set_ne (by omega), hlp k hlt]
          · rw [List.getElem?_set_self (by omega)]
        dsimp only
        by_cases h3 : width * leo (j + 2) ≥ width * nel
        · rw [if_pos h3]
          refine ⟨_, rfl, fun k hk => hlp' k ?_⟩
          by_contra hge
          have hlt := leo_lt_succ (by omega : 1 ≤ j + 2)
          have hmono := leo_mono (by omega : j + 3 ≤ k)
          have := mul_lt_mul_of_pos_left (lt_of_lt_of_le hlt (hmono.trans hk)) hpos
          omega
        · rw [if_neg h3]
          exact ih (j + 3) _ (by omega) (by omega) (by rw [List.length_set]; exact hlen) hlp'
      · rw [if_neg h2]
        exact ⟨lp, rfl, fun k hk => hlp k (habove hk (by omega))⟩
    · rw [if_neg h1]
      exact ⟨lp, rfl, fun k hk => hlp k (habove hk (by omega))⟩

/-! ## Growing -/

section Loops

variable {width nel : Nat} {cmp : QsortCmp} {lp : List Nat} {a₀ : Nat → List UInt8}

/-- The variables of `qsort_with_context` show a row of trees up to position `h`, over
    an array that has the records `a₀` in some order. -/
structure Sorting.Row (s : Sorting) (width nel : Nat) (a₀ : Nat → List UInt8) (h k : Nat)
    (ks : List Nat) : Prop where
  length : s.bytes.length = nel * width
  arranged : Arranged nel a₀ (recordOf width s.bytes)
  shows : Shows s.p k (k :: ks)
  pshift : s.pshift = k
  head : s.head = h * width
  inside : h < nel

variable {k h : Nat} {ks : List Nat} {s : Sorting}

theorem high_sub (width : Nat) (hnel : h < nel) : width * nel - width - h * width = width * (nel - 1 - h) := by
  obtain ⟨d, rfl⟩ := Nat.exists_eq_add_of_lt hnel
  have heq : h + d + 1 - 1 - h = d := by omega
  rw [heq, mul_add, mul_add, mul_comm h]
  omega

/-- The condition of the second loop. -/
theorem shrinking_iff (hrow : s.Row width nel a₀ h k ks) (hshape : Shape k ks) :
    (s.pshift ≠ 1 ∨ s.p.first ≠ 1 ∨ s.p.second ≠ 0) ↔ ¬ (k = 1 ∧ ks = []) := by
  rw [hrow.shows.ne_one_iff hshape, hrow.pshift, not_and_or]
  exact or_congr_left (by omega)

variable (hs : Setup width nel cmp lp)
include hs

/-- All orders of a row are within the bitmap. -/
theorem Setup.orders_lt (htotal : leo k + span ks = h + 1) (hnel : h < nel) : ∀ j ∈ k :: ks, j < 128 := by
  intro j hj
  have hle := leo_le_span hj
  rw [span] at hle
  have := hs.order_lt (by omega : leo j ≤ nel)
  omega

section

variable (hrow : s.Row width nel a₀ h k ks)
  (hg : Growing (recordLe width cmp) (recordOf width s.bytes) nel h k ks)
include hrow hg

/-- The last tree settles before a new one is put behind it. -/
theorem growLast_settled (hk : 1 ≤ k) (hgap : ∀ k' ∈ ks.head?, k + 2 ≤ k') :
    ∃ bytes', growLast width cmp lp (width * nel - width) s = some bytes' ∧
      bytes'.length = nel * width ∧ Arranged nel a₀ (recordOf width bytes') ∧
      Settled (recordLe width cmp) (recordOf width bytes') nel (k :: ks) h := by
  have hle := hs.order.totalPreorder
  have hnel := hrow.inside
  have htotal := hg.total
  have hcast : (k : Int) - 1 = ((k - 1 : Nat) : Int) := by omega
  have hmono := leo_mono (by omega : k - 1 ≤ k)
  have hfinal : width * leo (k - 1) ≥ width * (nel - 1 - h) ↔ nel ≤ h + 1 + leo (k - 1) := by
    rw [ge_iff_le, Nat.mul_le_mul_left_iff hs.pos]
    omega
  rw [growLast, hrow.head, hrow.pshift, hcast, hs.qsortWord (by omega), high_sub width hnel]
  simp only [bind_eq_bind, bind_some]
  by_cases h1 : nel ≤ h + 1 + leo (k - 1)
  · obtain ⟨bytes', hrun, hlen', hrecords⟩ := qsortTrinkle_trinkles hs hrow.length false
      htotal.le hnel hg.shape hrow.shows
    have harranged := hrow.arranged.trans
      ((trinkleAt_arranged (recordLe width cmp) _ false htotal.le).mono hnel)
    have hstretch := hg.stretch_trinkle hle (hg.final_left hk hgap h1)
    rw [← hrecords] at harranged hstretch
    rw [if_pos (hfinal.mpr h1)]
    exact ⟨bytes', hrun, hlen', harranged, hstretch.settled⟩
  · have hr : leo k ≤ h + 1 := by omega
    obtain ⟨bytes', hrun, hlen', hrecords⟩ := qsortSift_sifts hs hrow.length hr hnel
    have harranged := hrow.arranged.trans ((siftAt_arranged (recordLe width cmp) _ hr).mono hnel)
    have hsettled := hg.settled_sift hle h1
    rw [← hrecords] at harranged hsettled
    rw [if_neg (fun h2 => h1 (hfinal.mp h2))]
    exact ⟨bytes', hrun, hlen', harranged, hsettled⟩

/-- One round of the first loop takes the next record into the row. -/
theorem growStep_grows (hmore : h + 1 < nel) : ∃ s' k' ks', growStep width cmp lp (width * nel - width) s = some s' ∧
      s'.Row width nel a₀ (h + 1) k' ks' ∧
      Growing (recordLe width cmp) (recordOf width s'.bytes) nel (h + 1) k' ks' := by
  have hle := hs.order.totalPreorder
  have hnel := hrow.inside
  have htotal := hg.total
  have horders := hs.orders_lt htotal hnel
  have hhead : s.head + width = (h + 1) * width := by rw [hrow.head, add_mul, one_mul]
  have hjoin := hrow.shows.and_three_iff hg.shape
  rw [growStep]
  by_cases hthree : s.p.first &&& 3 = 3
  · -- the last two trees are joined under the new record
    obtain ⟨ks, rfl⟩ : ∃ ks', ks = (k + 1) :: ks' := by
      cases ks with
      | nil => cases hjoin.mp hthree
      | cons k' ks => exact ⟨ks, by rw [some.inj (hjoin.mp hthree)]⟩
    have hr : leo k ≤ h + 1 := by omega
    obtain ⟨bytes', hrun, hlen', hrecords⟩ := qsortSift_sifts hs hrow.length hr hnel
    have harranged := hrow.arranged.trans ((siftAt_arranged (recordLe width cmp) _ hr).mono hnel)
    have hjoined := hg.join hle
    rw [← hrecords] at harranged hjoined
    rw [if_pos hthree, hrow.pshift, hrow.head, hrun]
    exact ⟨_, k + 2, ks, rfl, ⟨hlen', harranged, hrow.shows.join, rfl, hhead, hmore⟩, hjoined⟩
  · -- the new record becomes a tree of its own
    have hgap : ∀ k' ∈ ks.head?, k + 2 ≤ k' := by
      intro k' hk'
      have hlt := hg.shape.next k' hk'
      have hne : k' ≠ k + 1 := fun heq => hthree (hjoin.mpr (heq ▸ hk'))
      omega
    have hk : 1 ≤ k := by
      rcases Nat.eq_zero_or_pos k with h0 | h0
      · have hone := hgap 1 (hg.shape.zero h0)
        omega
      · exact h0
    obtain ⟨bytes', hrun, hlen', harranged, hsettled⟩ := growLast_settled hs hrow hg hk hgap
    rw [if_neg hthree, hrun, hrow.pshift]
    simp only [bind_eq_bind, bind_some]
    by_cases hone : k = 1
    · subst hone
      have hshows := hrow.shows.push hg.shape one_pos horders
      refine ⟨_, 0, 1 :: ks, rfl, ⟨hlen', harranged, hshows, rfl, hhead, hmore⟩, ?_⟩
      exact hg.push (zero_le 1) one_pos (fun _ => rfl) hgap hsettled
    · have hcast : (k : Int) - 1 = ((k - 1 : Nat) : Int) := by omega
      have hshows := hrow.shows.push hg.shape (by omega : 1 < k) horders
      rw [if_neg (by omega), hcast]
      refine ⟨_, 1, k :: ks, rfl, ⟨hlen', harranged, hshows, rfl, hhead, hmore⟩, ?_⟩
      exact hg.push (le_refl 1) (by omega) nofun hgap hsettled

end

/-- The first loop takes all records into the row. -/
theorem growLoop_grows (rounds : Nat) (hrounds : nel ≤ h + rounds) (hrow : s.Row width nel a₀ h k ks)
    (hg : Growing (recordLe width cmp) (recordOf width s.bytes) nel h k ks) :
    ∃ s' k' ks', growLoop width cmp lp (width * nel - width) rounds s = some s' ∧ s'.Row width nel a₀ (nel - 1) k' ks' ∧
      Growing (recordLe width cmp) (recordOf width s'.bytes) nel (nel - 1) k' ks' := by
  induction rounds generalizing s h k ks with
  | zero =>
    have := hrow.inside
    omega
  | succ rounds ih =>
    have hnel := hrow.inside
    have hhigh := high_sub width hnel
    rw [growLoop, hrow.head]
    by_cases hmore : h + 1 < nel
    · obtain ⟨s₁, k₁, ks₁, hstep, hrow₁, hg₁⟩ := growStep_grows hs hrow hg hmore
      have hlt : h * width < width * nel - width := by
        have : 0 < width * (nel - 1 - h) := mul_pos hs.pos (by omega)
        omega
      rw [if_pos hlt, hstep]
      exact ih (by omega) hrow₁ hg₁
    · obtain rfl : h = nel - 1 := by omega
      rw [Nat.sub_self, mul_zero] at hhigh
      rw [if_neg (by omega)]
      exact ⟨s, k, ks, rfl, hrow, hg⟩

/-! ## Shrinking -/

theorem shrinkStep_pop {k' : Nat} (hrow : s.Row width nel a₀ h k (k' :: ks))
    (hshrink : Shrinking (recordLe width cmp) (recordOf width s.bytes) nel h k (k' :: ks)) (hk : k ≤ 1) :
    ∃ s', shrinkStep width cmp lp s = some s' ∧ s'.Row width nel a₀ (h - 1) k' ks ∧
      Shrinking (recordLe width cmp) (recordOf width s'.bytes) nel (h - 1) k' ks := by
  have hnel := hrow.inside
  have hlt := hshrink.shape.next k' rfl
  have horders := hs.orders_lt hshrink.total hnel
  have hh : 1 ≤ h := hshrink.shape.one_le_last hshrink.total (fun hnil => List.cons_ne_nil k' ks hnil.2)
  have hsub := subOffset_mul width hh
  have htrail : (k : Int) + (qsortPntz s.p : Nat) = (k' : Int) := by
    rw [hrow.shows.pntz hshrink.shape]
    omega
  rw [mul_one] at hsub
  rw [shrinkStep, hrow.head, hsub]
  simp only [bind_eq_bind, bind_some]
  rw [hrow.pshift, if_pos (by omega), htrail]
  have hshows := hrow.shows.pop hshrink.shape
    (horders k' (List.mem_cons_of_mem _ List.mem_cons_self))
  exact ⟨_, rfl, ⟨hrow.length, hrow.arranged, hshows, rfl, rfl, by omega⟩, hshrink.pop hs.order.totalPreorder hk⟩

theorem shrinkStep_split (hrow : s.Row width nel a₀ h (k + 2) ks)
    (hshrink : Shrinking (recordLe width cmp) (recordOf width s.bytes) nel h (k + 2) ks) :
    ∃ s', shrinkStep width cmp lp s = some s' ∧ s'.Row width nel a₀ (h - 1) k ((k + 1) :: ks) ∧
      Shrinking (recordLe width cmp) (recordOf width s'.bytes) nel (h - 1) k ((k + 1) :: ks) := by
  have hnel := hrow.inside
  have htotal := hshrink.total
  have hsize := leo_add_two k
  have hpos' := leo_pos (k + 1)
  have hshape := hshrink.shape.split
  have horders := hs.orders_lt htotal hnel
  have hcast : ((k + 2 : Nat) : Int) - 2 = (k : Int) := by omega
  have hsucc : ((k : Int) + 1) = ((k + 1 : Nat) : Int) := by omega
  -- the left child with the bitmap of the trees from it on
  have hspanL : leo (k + 1) + span ks ≤ h - 1 - leo k + 1 := by omega
  have hshowsL := hrow.shows.split hshrink.shape horders
  obtain ⟨bytes₁, hrun₁, hlen₁, hrecords₁⟩ := qsortTrinkle_trinkles hs hrow.length true hspanL
    (by omega) hshape.pop hshowsL
  -- the right child with the bitmap of the whole row
  have hspanR : leo k + span ((k + 1) :: ks) ≤ h - 1 + 1 := by
    rw [span]
    omega
  have hordersL : ∀ j ∈ (k + 1) :: ks, j < 128 := by
    rintro j (_ | ⟨_, hj⟩)
    · have := horders (k + 2) List.mem_cons_self
      omega
    · exact horders j (List.mem_cons_of_mem _ hj)
  have hshowsR := hshowsL.push hshape.pop k.lt_succ_self hordersL
  rw [Nat.add_sub_cancel_left] at hshowsR
  obtain ⟨bytes₂, hrun₂, hlen₂, hrecords₂⟩ := qsortTrinkle_trinkles hs hlen₁ true hspanR (by omega)
    hshape hshowsR
  have hsub1 := subOffset_mul width (r := h) (n := 1) (by omega)
  have hsub2 := subOffset_mul width (r := h) (n := leo k + 1) (by omega)
  have hsmall : width * (leo k + 1) < 2 ^ 64 :=
    lt_of_le_of_lt (mul_le_mul_left width (by omega)) hs.small
  have hleft : h - (leo k + 1) = h - 1 - leo k := by omega
  rw [mul_one] at hsub1
  rw [mul_add, mul_one, hleft] at hsub2
  rw [mul_add, mul_one] at hsmall
  rw [shrinkStep, hrow.head, hsub1]
  simp only [bind_eq_bind, bind_some]
  rw [hrow.pshift, if_neg (by omega), hcast, hs.qsortWord (by omega), bind_some,
    mod_eq_of_lt hsmall, hsub2, bind_some, hsucc, hrun₁, bind_some]
  have harranged₁ := hrow.arranged.trans
    ((trinkleAt_arranged (recordLe width cmp) _ true hspanL).mono (by omega : _ ≤ nel))
  rw [← hrecords₁] at harranged₁
  have harranged₂ := harranged₁.trans
    ((trinkleAt_arranged (recordLe width cmp) _ true hspanR).mono (by omega : _ ≤ nel))
  rw [← hrecords₂] at harranged₂
  have hsplit := hshrink.split hs.order.totalPreorder
  rw [← hrecords₁, ← hrecords₂] at hsplit
  refine ⟨⟨bytes₂, _, k, (h - 1) * width⟩, ?_, ⟨hlen₂, harranged₂, hshowsR, rfl, rfl, by omega⟩, hsplit⟩
  exact congrArg (bind · _) hrun₂

/-- The second loop takes the row apart until the first record is left. -/
theorem shrinkLoop_sorts (rounds : Nat) (hrounds : h < rounds) (hrow : s.Row width nel a₀ h k ks)
    (hshrink : Shrinking (recordLe width cmp) (recordOf width s.bytes) nel h k ks) :
    ∃ s', shrinkLoop width cmp lp rounds s = some s' ∧ s'.Row width nel a₀ 0 1 [] ∧
      Shrinking (recordLe width cmp) (recordOf width s'.bytes) nel 0 1 [] := by
  induction rounds generalizing s h k ks with
  | zero => omega
  | succ rounds ih =>
    have hiff := shrinking_iff hrow hshrink.shape
    have htotal := hshrink.total
    rw [shrinkLoop]
    by_cases hend : k = 1 ∧ ks = []
    · obtain ⟨rfl, rfl⟩ := hend
      obtain rfl : h = 0 := succ.inj htotal.symm
      rw [if_neg (fun hne => hiff.mp hne ⟨rfl, rfl⟩)]
      exact ⟨s, rfl, hrow, hshrink⟩
    rw [if_pos (hiff.mpr hend)]
    have hh := hshrink.shape.one_le_last htotal hend
    by_cases hk : k ≤ 1
    · -- a last tree of one record goes
      cases ks with
      | nil =>
        rcases (by omega : k = 0 ∨ k = 1) with rfl | rfl
        · cases hshrink.shape.zero rfl
        · exact absurd ⟨rfl, rfl⟩ hend
      | cons k' ks =>
        obtain ⟨s₁, hstep, hrow₁, hshrink₁⟩ := shrinkStep_pop hs hrow hshrink hk
        rw [hstep]
        exact ih (by omega) hrow₁ hshrink₁
    · obtain ⟨k, rfl⟩ := Nat.exists_eq_add_of_le' (by omega : 2 ≤ k)
      obtain ⟨s₁, hstep, hrow₁, hshrink₁⟩ := shrinkStep_split hs hrow hshrink
      rw [hstep]
      exact ih (by omega) hrow₁ hshrink₁

end Loops

/-! ## Sorting -/

/-- The records of the array. -/
def records (width nel : Nat) (bytes : List UInt8) : List (List UInt8) :=
  (List.range nel).map (recordOf width bytes)

/-- For any array of `nel` records of `width` bytes that fits the address space, and any callback that orders
    records, `qsort_with_context` ends, and leaves the records rearranged in that order. -/
theorem qsortWithContext_sorts (nel width : Nat) (cmp : QsortCmp) (bytes : List UInt8)
    (hwidth : 1 ≤ width) (hfit : nel * width < 2 ^ 64) (hlen : bytes.length = nel * width)
    (hcmp : RecordOrder width cmp) : ∃ sorted, qsortWithContext nel width cmp bytes = some sorted ∧
      sorted.length = bytes.length ∧
      (records width nel sorted).Perm (records width nel bytes) ∧
      (records width nel sorted).Pairwise fun x y => cmp x y ≤ 0 := by
  have hfit' : width * nel < 2 ^ 64 := by rwa [Nat.mul_comm]
  rw [qsortWithContext, checkedMul, if_pos hfit']
  dsimp only
  rcases Nat.eq_zero_or_pos nel with rfl | hpos
  · exact ⟨bytes, rfl, rfl, List.Perm.refl _, List.Pairwise.nil⟩
  have hsize : width * nel ≠ 0 := Nat.mul_ne_zero (by omega) (by omega)
  rw [if_neg hsize]
  have hstart (k : Nat) (hk : k < 2) :
      (((List.replicate lpLen 0).set 0 width).set 1 width)[k]? = some (width * leo k) := by
    rcases (by omega : k = 0 ∨ k = 1) with rfl | rfl
    all_goals exact congrArg some width.mul_one.symm
  obtain ⟨lp, hfill, htable⟩ := fillLp_table hwidth hfit' (lpLen - 2) 2 _ rfl
    (Nat.le_refl 2) (by simp [lpLen]) hstart
  have hs : Setup width nel cmp lp := ⟨hwidth, hfit', htable, hcmp⟩
  -- the row over the first record, then over all of them
  have hrow₀ : Sorting.Row ⟨bytes, ⟨1, 0⟩, 1, 0⟩ width nel (recordOf width bytes) 0 1 [] :=
    ⟨hlen, Arranged.refl _ _, shows_one, rfl, (Nat.zero_mul width).symm, hpos⟩
  obtain ⟨s₁, k, ks, hgrow, hrow₁, hg⟩ := growLoop_grows hs nel (by omega) hrow₀ growing_one
  obtain ⟨bytes₂, htrinkle, hlen₂, hrecords₂⟩ := qsortTrinkle_trinkles hs hrow₁.length false
    (Nat.le_of_eq hg.total) hrow₁.inside hg.shape hrow₁.shows
  have harranged₂ := hrow₁.arranged.trans ((trinkleAt_arranged (recordLe width cmp) _ false
    (Nat.le_of_eq hg.total)).mono hrow₁.inside)
  have hshrink := hg.shrinking hcmp.totalPreorder (by omega : nel = nel - 1 + 1)
  rw [← hrecords₂] at harranged₂ hshrink
  have hrow₂ : Sorting.Row { s₁ with bytes := bytes₂ } width nel (recordOf width bytes) (nel - 1) k ks :=
    ⟨hlen₂, harranged₂, hrow₁.shows, hrow₁.pshift, hrow₁.head, hrow₁.inside⟩
  obtain ⟨s₃, hloop, hrow₃, hsorted⟩ := shrinkLoop_sorts hs nel (by omega) hrow₂ hshrink
  refine ⟨s₃.bytes, ?_, hrow₃.length.trans hlen.symm, hrow₃.arranged.perm, ?_⟩
  · rw [← hrow₁.head, ← hrow₁.pshift] at htrinkle
    simp only [hfill, hgrow, htrinkle, hloop, Option.bind_eq_bind, Option.bind_some]
  · rw [records, List.pairwise_map]
    apply List.pairwise_lt_range.imp_of_mem
    intro i j _ hj hij
    have hj := List.mem_range.mp hj
    rw [← recordLe_iff (recordOf_length hrow₃.length (hij.trans hj)) (recordOf_length hrow₃.length hj)]
    exact hsorted.sorted_last hcmp.totalPreorder j j.zero_le hj i hij

/-- A callback that compares the first bytes. -/
def compareFirst : QsortCmp := fun x y => (x.headD 0).toNat - (y.headD 0).toNat

theorem compareFirst_order {width : Nat} : RecordOrder width compareFirst := by
  refine ⟨fun x y _ _ => ?_, fun x y z _ _ _ => ?_⟩
  all_goals
    simp only [compareFirst]
    omega

/-- Five records of two bytes, two of them equal in the order. -/
theorem qsortWithContext_sorts_pairs :
    ∃ sorted, qsortWithContext 5 2 compareFirst [5, 0, 3, 1, 9, 2, 1, 3, 1, 4] = some sorted ∧ sorted.length = 10 ∧
      (records 2 5 sorted).Perm [[5, 0], [3, 1], [9, 2], [1, 3], [1, 4]] ∧
      (records 2 5 sorted).Pairwise fun x y => compareFirst x y ≤ 0 :=
  qsortWithContext_sorts 5 2 compareFirst [5, 0, 3, 1, 9, 2, 1, 3, 1, 4] (by decide) (by decide) rfl
    compareFirst_order

end Crabc.Libc
