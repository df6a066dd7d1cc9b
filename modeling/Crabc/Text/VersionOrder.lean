/-
  Crabc.Text.VersionOrder

  What the three comparisons decide.  Both C entries order every pair of C
  strings by the keys of `VersionKey`, which is a total order.  The slice
  version agrees with them except on one kind of pair: one string is a proper
  prefix of the other, ends in a run of zeros, and the other goes on with a
  digit.  There `version_cmp` reads the exhausted side as a further `'0'` where
  C reads the terminator, and the answers differ every time.
-/

import Crabc.Text.VersionKey

namespace Crabc.Text

open RunState Ordering

/-- A byte string without NUL, as a C string can hold it. -/
def NulFree (s : List UInt8) : Prop := ∀ c ∈ s, c ≠ 0

instance (s : List UInt8) : Decidable (NulFree s) := List.decidableBAll (· ≠ 0) s

/-- The C string holding `s`. -/
def cString (s : List UInt8) : List UInt8 := s ++ [0]

/-- The order of the keys. -/
def versionOrder (l r : List UInt8) : Ordering :=
  compare (versionKey .none l) (versionKey .none r)

/-! ## The C versions -/

theorem ordSign_then (o p : Ordering) : ordSign (o.then p) = if o = .eq then ordSign p else ordSign o := by
  cases o <;> rfl

open Option

variable {l r w : List UInt8} {st : RunState}

theorem any_head? {p : UInt8 → Bool} (hp : p 0 = false) (t : List UInt8) :
    t.head?.any p = p (t.head?.getD 0) := by
  cases t <;> simp [hp]

/-- The C state machine stays inside its two strings and answers with the
    verdict for an exhausted side read as the terminator. -/
theorem versionCompareC_append (h : Diverge l r) (hw : NulFree w) (hl : NulFree l) (hr : NulFree r) :
    ∃ v, versionCompareC isAsciiDigit (cString (w ++ l)) (cString (w ++ r)) = some v ∧
      v.sign = ordSign (if l = [] ∧ r = [] then .eq
        else verdict 0 (after .none w) l r) := by
  have ht := tracks_foldl w
  rw [versionCompareC, cString, cString, commonPrefixC_append h hw hl hr]
  by_cases hnil : l = [] ∧ r = []
  · exact ⟨0, by simp [hnil], by simp [hnil, ordSign]⟩
  generalize w.foldl (VersionScan.step isAsciiDigit) {} = s at ht
  generalize after .none w = st at ht
  -- the bytes both strings are read at
  have hread : ∀ t : List UInt8, (w ++ t ++ [0])[w.length]? = some (t.head?.getD 0) := by
    intro t
    rw [List.append_assoc, getElem?_split]
    cases t <;> rfl
  have hdrop : ∀ t : List UInt8, (w ++ t ++ [0]).drop w.length = t ++ [0] := by
    intro t
    rw [List.append_assoc, List.drop_left]
  have hrun : ∀ x y : UInt8, (getD (if runLength l = runLength r then none
        else some (ordSign (compare (runLength l) (runLength r)))) ((x.toNat : Int) - y.toNat)).sign
      = ordSign ((compare (runLength l) (runLength r)).then (compare x y)) := by
    intro x y
    rw [ordSign_then]
    by_cases he : runLength l = runLength r
    · simp [he, sign_sub_toNat]
    · have hne : compare (runLength l) (runLength r) ≠ .eq := by simpa using he
      simp only [he, if_false, hne, getD_some]
      cases compare (runLength l) (runLength r) <;> simp [ordSign]
  rw [if_neg hnil, if_neg hnil]
  simp only [bind_eq_bind, bind_some, ht.index, hread, hdrop, longerRunC_append]
  cases st with
  | none =>
    simp only [ht.none rfl, hread, bind_some, verdict, Nat.lt_irrefl, any_head? (p := nonzeroDigit) rfl,
      decide_false, Bool.and_false, Bool.false_and, Bool.false_eq_true, if_false]
    by_cases hboth : (nonzeroDigit (l.head?.getD 0) && nonzeroDigit (r.head?.getD 0)) = true
    · rw [if_pos hboth, if_pos hboth]
      exact ⟨_, rfl, hrun _ _⟩
    · rw [if_neg hboth, if_neg hboth]
      exact ⟨_, rfl, sign_sub_toNat⟩
  | zeros =>
    obtain ⟨c, hc, hnz⟩ := ht.start (by simp)
    have hlt := (List.getElem?_eq_some_iff.mp hc).1
    have hz := (ht.zero (by simp)).mpr (Or.inr rfl)
    have hc0 : nonzeroDigit c = false := by simpa using hnz
    simp only [List.append_assoc, getElem?_common hc, bind_some, hc0, Bool.false_and,
      Bool.false_eq_true, if_false, hz, hlt, decide_true, Bool.true_and, verdict, any_head? (p := isAsciiDigit) rfl]
    split_ifs
    all_goals exact ⟨_, rfl, sign_sub_toNat⟩
  | nonzero =>
    obtain ⟨c, hc, hnz⟩ := ht.start (by simp)
    simp only [List.append_assoc, getElem?_common hc, bind_some, hnz.mpr rfl, Bool.and_self, if_true, verdict]
    exact ⟨_, rfl, hrun _ _⟩
  | mixed =>
    obtain ⟨c, hc, hnz⟩ := ht.start (by simp)
    have hz : s.allZero = false := by simpa using ht.zero (by simp)
    have hc0 : nonzeroDigit c = false := by simpa using hnz
    simp only [List.append_assoc, getElem?_common hc, bind_some, hc0, Bool.false_and,
      Bool.false_eq_true, if_false, hz, verdict]
    exact ⟨_, rfl, sign_sub_toNat⟩

/-! ## The verdict is the order of the keys -/

/-- The first ranks of two diverging NUL-free suffixes differ. -/
theorem head_ne_of_diverge (h : Diverge l r) (hl : NulFree l) (hr : NulFree r)
    (hnil : ¬ (l = [] ∧ r = [])) : l.head?.getD 0 ≠ r.head?.getD 0 := by
  cases l with
  | nil =>
    cases r with
    | nil => simp at hnil
    | cons b r => exact (hr b List.mem_cons_self).symm
  | cons a l =>
    cases r with
    | nil => exact hl a List.mem_cons_self
    | cons b r => exact h

theorem compare_rank (st : RunState) {a b : UInt8} (h : a ≠ b) (x y : List Nat) :
    compare (st.rank a :: x) (st.rank b :: y) =
      if st = .zeros ∧ (isAsciiDigit a || isAsciiDigit b) then compare (a - 48) (b - 48)
      else compare a b := by
  have ha := a.toNat_lt
  have hb := b.toNat_lt
  have hab : a.toNat ≠ b.toNat := fun e => h (UInt8.toNat_inj.mp e)
  have hda := isAsciiDigit_iff (c := a)
  have hdb := isAsciiDigit_iff (c := b)
  rw [List.compare_cons_cons, compare_toNat, compare_toNat, UInt8.toNat_sub, UInt8.toNat_sub]
  by_cases hst : st = .zeros
  · subst hst
    simp only [rank, UInt8.reduceToNat]
    by_cases h1 : isAsciiDigit a = true <;> by_cases h2 : isAsciiDigit b = true
    all_goals
      simp only [h1, h2, if_true, if_false, Bool.or_true, Bool.or_false, and_self,
        and_false, Bool.false_eq_true, Nat.compare_eq_ite_lt]
      simp only [h1, h2, true_iff, false_iff, Bool.false_eq_true] at hda hdb
      split_ifs <;> first | omega | rfl
  · simp only [rank, hst, if_false, false_and, Nat.compare_eq_ite_lt]
    split_ifs <;> first | omega | rfl

theorem versionKey_cons_rank (hst : st ≠ .none) (s : List UInt8) :
    ∃ x, versionKey st s = st.rank (s.head?.getD 0) :: x := by
  cases s with
  | nil => exact ⟨[], rfl⟩
  | cons c s => exact ⟨versionKey (st.next c) s, by simp [versionKey, hst]⟩

/-- Outside a run the key starts with the byte, or with `'1'` and the length of the run that starts there. -/
theorem compare_versionKey_none (hne : l.head?.getD 0 ≠ r.head?.getD 0) :
    compare (versionKey .none l) (versionKey .none r) = verdict 0 .none l r := by
  have hkey : ∀ s : List UInt8, s.head?.any nonzeroDigit = false →
      ∃ x, versionKey .none s = (s.head?.getD 0).toNat :: x := by
    intro s hs
    cases s with
    | nil => exact ⟨[], rfl⟩
    | cons c s =>
      have hc : nonzeroDigit c = false := by simpa using hs
      exact ⟨versionKey (next .none c) s, by simp [versionKey, hc, rank]⟩
  have hrun : ∀ s : List UInt8, s.head?.any nonzeroDigit = true →
      ∃ x, versionKey .none s = 49 :: runLength s :: (s.head?.getD 0).toNat :: x := by
    intro s hs
    cases s with
    | nil => simp at hs
    | cons c s =>
      have hc : nonzeroDigit c = true := by simpa using hs
      exact ⟨versionKey .nonzero s, by simp [versionKey, hc]⟩
  have hcmp : ∀ x y : List Nat, compare ((l.head?.getD 0).toNat :: x) ((r.head?.getD 0).toNat :: y) =
      compare (l.head?.getD 0) (r.head?.getD 0) := by
    intro x y
    have h := compare_rank .none hne x y
    simpa [rank] using h
  -- a byte outside `'1'..'9'` compares with `'1'` as with any byte of that range
  have hmix : ∀ a b : UInt8, nonzeroDigit a = true → nonzeroDigit b = false → ∀ x y : List Nat,
      compare (49 :: x) (b.toNat :: y) = compare a b ∧
      compare (b.toNat :: y) (49 :: x) = compare b a := by
    intro a b ha hb x y
    have hb' : ¬ (49 ≤ b.toNat ∧ b.toNat ≤ 57) := by
      rw [← nonzeroDigit_iff, hb]
      simp
    rw [nonzeroDigit_iff] at ha
    rw [List.compare_cons_cons, List.compare_cons_cons, compare_toNat, compare_toNat]
    simp only [Nat.compare_eq_ite_lt]
    constructor <;> split_ifs <;> first | omega | rfl
  cases hl : l.head?.any nonzeroDigit <;> cases hr : r.head?.any nonzeroDigit
  · obtain ⟨x, hx⟩ := hkey l hl
    obtain ⟨y, hy⟩ := hkey r hr
    simp [verdict, hl, hx, hy, hcmp]
  · obtain ⟨x, hx⟩ := hkey l hl
    obtain ⟨y, hy⟩ := hrun r hr
    rw [any_head? rfl] at hl hr
    simp [verdict, any_head? (p := nonzeroDigit) rfl, hl, hx, hy, (hmix _ _ hr hl _ _).2]
  · obtain ⟨x, hx⟩ := hrun l hl
    obtain ⟨y, hy⟩ := hkey r hr
    rw [any_head? rfl] at hl hr
    simp [verdict, any_head? (p := nonzeroDigit) rfl, hr, hx, hy, (hmix _ _ hl hr _ _).1]
  · obtain ⟨x, hx⟩ := hrun l hl
    obtain ⟨y, hy⟩ := hrun r hr
    rw [hx, hy, List.compare_cons_cons, Std.ReflOrd.compare_self, List.compare_cons_cons, hcmp]
    simp [verdict, hl, hr]

/-- The verdict that reads an exhausted side as a terminator is the order of the keys. -/
theorem versionOrder_append (h : Diverge l r) (hl : NulFree l) (hr : NulFree r) (hnil : ¬ (l = [] ∧ r = [])) :
    versionOrder (w ++ l) (w ++ r) = verdict 0 (after .none w) l r := by
  have hne := head_ne_of_diverge h hl hr hnil
  rw [versionOrder, compare_versionKey_append]
  generalize after .none w = st
  by_cases hst : st = .none
  · subst hst
    simp [compare_versionKey_none hne]
  · obtain ⟨x, hx⟩ := versionKey_cons_rank hst l
    obtain ⟨y, hy⟩ := versionKey_cons_rank hst r
    rw [hx, hy, compare_rank st hne]
    cases st <;> simp_all [verdict, any_head? (p := isAsciiDigit) rfl]

/-! ## The C order is total -/

theorem NulFree.append (h : NulFree (w ++ l)) : NulFree w ∧ NulFree l :=
  List.forall_mem_append.mp h

/-- The C state machine orders C strings by their keys. -/
theorem versionCompareC_order (hl : NulFree l) (hr : NulFree r) :
    ∃ v, versionCompareC isAsciiDigit (cString l) (cString r) = some v ∧ v.sign = ordSign (versionOrder l r) := by
  obtain ⟨w, l', r', rfl, rfl, hd⟩ := exists_diverge l r
  obtain ⟨hw, hl'⟩ := hl.append
  obtain ⟨-, hr'⟩ := hr.append
  obtain ⟨v, hv, hs⟩ := versionCompareC_append hd hw hl' hr'
  refine ⟨v, hv, hs.trans ?_⟩
  by_cases hnil : l' = [] ∧ r' = []
  · simp [hnil, versionOrder]
  · rw [if_neg hnil, versionOrder_append hd hl' hr' hnil]

theorem verdict_ne_eq {fill : UInt8} (h : l.head?.getD 0 ≠ r.head?.getD 0)
    (hz : st = .zeros → (l.head?.any isAsciiDigit || r.head?.any isAsciiDigit) = true →
      l.head?.getD fill ≠ r.head?.getD fill) : verdict fill st l r ≠ .eq := by
  have hbytes : compare (l.head?.getD 0) (r.head?.getD 0) ≠ .eq := by
    rw [compare_toNat, Ne, Nat.compare_eq_eq, UInt8.toNat_inj]
    exact h
  cases st with
  | none =>
    rw [verdict]
    split_ifs
    · simp [then_eq_eq, hbytes]
    · exact hbytes
  | zeros =>
    rw [verdict]
    split_ifs with hdig
    · rw [compare_toNat, Ne, Nat.compare_eq_eq, UInt8.toNat_inj, UInt8.sub_left_inj]
      exact hz rfl hdig
    · exact hbytes
  | nonzero => simp [verdict, then_eq_eq, hbytes]
  | mixed => exact hbytes

/-- Only equal strings have equal keys. -/
theorem eq_of_versionOrder (hl : NulFree l) (hr : NulFree r) (h : versionOrder l r = .eq) : l = r := by
  obtain ⟨w, l', r', rfl, rfl, hd⟩ := exists_diverge l r
  have hl' := hl.append.2
  have hr' := hr.append.2
  by_cases hnil : l' = [] ∧ r' = []
  · rw [hnil.1, hnil.2]
  · have hne := head_ne_of_diverge hd hl' hr' hnil
    rw [versionOrder_append hd hl' hr' hnil] at h
    exact absurd h (verdict_ne_eq hne fun _ _ => hne)

/-! ## Where the slice version departs -/

/-- The digits a string ends in, last one first. -/
def lastRun (s : List UInt8) : List UInt8 := s.reverse.takeWhile isAsciiDigit

/-- `t` goes on with a digit after a prefix `s` that ends in a run of zeros. -/
def ZeroRunExtended (s t : List UInt8) : Prop :=
  s <+: t ∧ (t[s.length]?).any isAsciiDigit = true ∧ lastRun s ≠ [] ∧ ∀ c ∈ lastRun s, c = 48

instance (s t : List UInt8) : Decidable (ZeroRunExtended s t) :=
  letI : Decidable (∀ c ∈ lastRun s, c = 48) := List.decidableBAll (· = 48) (lastRun s)
  inferInstanceAs (Decidable (_ ∧ _ ∧ _ ∧ _))

/-- The state after a string read off its last digits. -/
theorem after_none_iff : (after .none w = .none ↔ lastRun w = []) ∧
    (after .none w = .zeros ↔ lastRun w ≠ [] ∧ ∀ c ∈ lastRun w, c = 48) := by
  induction w using List.reverseRecOn with
  | nil => simp [after, lastRun]
  | append_singleton w c ih =>
    have hafter : after .none (w ++ [c]) = (after .none w).next c := by
      rw [after, List.foldl_append]
      rfl
    rw [hafter]
    generalize after .none w = st at ih
    by_cases hc : isAsciiDigit c = true
    · have hrun : lastRun (w ++ [c]) = c :: lastRun w := by simp [lastRun, hc]
      rw [hrun]
      by_cases h0 : c = 48
      · subst h0
        cases st with
        | zeros => simpa [next, hc] using (ih.2.mp rfl).2
        | none => simp_all [next]
        | nonzero => simp_all [next]
        | mixed => simp_all [next]
      · cases st <;> simp_all [next]
    · have hrun : lastRun (w ++ [c]) = [] := by simp [lastRun, hc]
      simp [hrun, next, hc]

theorem zeroRunExtended_iff (h : Diverge l r) : ZeroRunExtended (w ++ l) (w ++ r) ↔
      l = [] ∧ r.head?.any isAsciiDigit = true ∧ after .none w = .zeros := by
  constructor
  · rintro ⟨hpre, hdig, hrun⟩
    rw [List.prefix_append_right_inj] at hpre
    have hl : l = [] := by
      cases l with
      | nil => rfl
      | cons a l =>
        obtain ⟨t, rfl⟩ := hpre
        exact absurd rfl h
    subst hl
    rw [List.append_nil] at hdig hrun
    rw [getElem?_split] at hdig
    exact ⟨rfl, hdig, after_none_iff.2.mpr hrun⟩
  · rintro ⟨rfl, hdig, hst⟩
    rw [ZeroRunExtended, List.append_nil, getElem?_split]
    exact ⟨List.prefix_append w r, hdig, after_none_iff.2.mp hst⟩

/-- With an exhausted side read as `'0'`, the verdict changes exactly when a
    digit follows a run of zeros on the other side only. -/
theorem verdict_fill (h : Diverge l r) : verdict 48 st l r = verdict 0 st l r ↔
      ¬ (st = .zeros ∧ (l = [] ∧ r.head?.any isAsciiDigit = true ∨ r = [] ∧ l.head?.any isAsciiDigit = true)) := by
  have hdigit : ∀ d : UInt8, isAsciiDigit d = true →
      compare ((48 : UInt8) - 48) (d - 48) ≠ compare ((0 : UInt8) - 48) (d - 48) ∧
      compare (d - 48) ((48 : UInt8) - 48) ≠ compare (d - 48) ((0 : UInt8) - 48) := by
    intro d hd
    rw [isAsciiDigit_iff] at hd
    simp only [compare_toNat, UInt8.toNat_sub, UInt8.reduceToNat, Nat.compare_eq_ite_lt]
    constructor <;> split_ifs <;> first | omega | simp
  cases st with
  | none => simp [verdict]
  | nonzero => simp [verdict]
  | mixed => simp [verdict]
  | zeros =>
    cases l with
    | nil =>
      cases r with
      | nil => simp [verdict]
      | cons b r =>
        by_cases hb : isAsciiDigit b = true
        · simpa [verdict, hb] using (hdigit b hb).1
        · simp [verdict, hb]
    | cons a l =>
      cases r with
      | nil =>
        by_cases ha : isAsciiDigit a = true
        · simpa [verdict, ha] using (hdigit a ha).2
        · simp [verdict, ha]
      | cons b r => simp [verdict]

theorem Diverge.symm (h : Diverge l r) : Diverge r l := by
  cases l <;> cases r <;> first | trivial | exact Ne.symm h

/-- The slice version computes the order of the keys unless a run of zeros is extended. -/
theorem versionCmp_eq_order_iff (hl : NulFree l) (hr : NulFree r) :
    versionCmp l r = versionOrder l r ↔ ¬ ZeroRunExtended l r ∧ ¬ ZeroRunExtended r l := by
  obtain ⟨w, l', r', rfl, rfl, hd⟩ := exists_diverge l r
  rw [versionCmp_append hd, zeroRunExtended_iff hd, zeroRunExtended_iff hd.symm]
  by_cases hnil : l' = [] ∧ r' = []
  · simp [hnil, versionOrder]
  · rw [if_neg hnil, versionOrder_append hd hl.append.2 hr.append.2 hnil, verdict_fill hd]
    tauto

/-! ## The three comparisons -/

/-- The three comparisons of `l` and `r` run to completion with one sign. -/
def SameSign (l r : List UInt8) : Prop :=
  ∃ v v', strverscmp (cString l) (cString r) = some v ∧ versionNameCompare (cString l) (cString r) = some v' ∧
    v.sign = ordSign (versionCmp l r) ∧ v'.sign = ordSign (versionCmp l r)

theorem ordSign_injective {o p : Ordering} (h : ordSign o = ordSign p) : o = p := by
  cases o <;> cases p <;> first | rfl | cases h

section

variable {l r : List UInt8} (hl : NulFree l) (hr : NulFree r)
include hl hr

theorem strverscmp_order : ∃ v, strverscmp (cString l) (cString r) = some v ∧ v.sign = ordSign (versionOrder l r) := by
  rw [strverscmp, isdigit_eq]
  exact versionCompareC_order hl hr

theorem versionNameCompare_order : ∃ v, versionNameCompare (cString l) (cString r) = some v ∧
      v.sign = ordSign (versionOrder l r) := by
  rw [versionNameCompare, isDecimalDigit_eq]
  exact versionCompareC_order hl hr

theorem sameSign_iff : SameSign l r ↔ versionCmp l r = versionOrder l r := by
  obtain ⟨v, hv, hs⟩ := strverscmp_order hl hr
  obtain ⟨v', hv', hs'⟩ := versionNameCompare_order hl hr
  constructor
  · rintro ⟨x, -, hx, -, hxs, -⟩
    obtain rfl : v = x := some.inj (hv.symm.trans hx)
    exact ordSign_injective (hxs.symm.trans hs)
  · intro h
    exact ⟨v, v', hv, hv', hs.trans (by rw [h]), hs'.trans (by rw [h])⟩

end

theorem versionOrder_swap {l r : List UInt8} : versionOrder r l = (versionOrder l r).swap :=
  Std.OrientedOrd.eq_swap

theorem versionOrder_trans {m : List UInt8} (hlm : versionOrder l m ≠ .gt)
    (hmr : versionOrder m r ≠ .gt) : versionOrder l r ≠ .gt :=
  isLE_iff_ne_gt.mp (Std.TransOrd.isLE_trans (isLE_iff_ne_gt.mpr hlm)
    (isLE_iff_ne_gt.mpr hmr))

/-- For every pair of NUL-free strings the three comparisons give one sign, with `Equal` only for equal
    strings and reversed by exchanging them, exactly when neither string extends a final run of zeros of the
    other by a digit; among strings that pairwise meet this the order is transitive. -/
theorem versionCmp_total_order_iff (l r : List UInt8) (hl : NulFree l) (hr : NulFree r) :
    ((SameSign l r ∧ (versionCmp l r = .eq → l = r) ∧ versionCmp r l = (versionCmp l r).swap) ↔
      ¬ ZeroRunExtended l r ∧ ¬ ZeroRunExtended r l) ∧
    (¬ ZeroRunExtended l r ∧ ¬ ZeroRunExtended r l → ∀ m, NulFree m → ¬ ZeroRunExtended l m ∧ ¬ ZeroRunExtended m l →
      ¬ ZeroRunExtended m r ∧ ¬ ZeroRunExtended r m →
      versionCmp l m ≠ .gt → versionCmp m r ≠ .gt → versionCmp l r ≠ .gt) := by
  constructor
  · rw [sameSign_iff hl hr, ← versionCmp_eq_order_iff hl hr]
    refine ⟨And.left, fun h => ⟨h, ?_, ?_⟩⟩
    · rw [h]
      exact eq_of_versionOrder hl hr
    · have h' : versionCmp r l = versionOrder r l :=
        (versionCmp_eq_order_iff hr hl).mpr ((versionCmp_eq_order_iff hl hr).mp h).symm
      rw [h, h', versionOrder_swap]
  · intro hlr m hm hlm hmr
    rw [(versionCmp_eq_order_iff hl hm).mpr hlm, (versionCmp_eq_order_iff hm hr).mpr hmr,
      (versionCmp_eq_order_iff hl hr).mpr hlr]
    exact versionOrder_trans

/-- `"0"` and `"00"`: the slice version calls them equal, C orders them. -/
theorem versionCmp_zero_doubleZero : NulFree [48] ∧ NulFree [48, 48] ∧ versionCmp [48] [48, 48] = .eq ∧
      strverscmp (cString [48]) (cString [48, 48]) = some 208 ∧
      versionNameCompare (cString [48]) (cString [48, 48]) = some 208 ∧
      ¬ SameSign [48] [48, 48] := by
  refine ⟨by decide, by decide, by decide, by decide, by decide, ?_⟩
  rw [sameSign_iff (by decide) (by decide), versionCmp_eq_order_iff (by decide) (by decide)]
  decide

/-- `"a2"` and `"a10"` satisfy every hypothesis of the characterisation. -/
theorem versionCmp_total_order_a2_a10 : SameSign [97, 50] [97, 49, 48] ∧ versionCmp [97, 48, 49] [97, 49, 48] ≠ .gt :=
  ⟨((versionCmp_total_order_iff [97, 50] [97, 49, 48] (by decide) (by decide)).1.mpr
      (by decide)).1,
    (versionCmp_total_order_iff [97, 48, 49] [97, 49, 48] (by decide) (by decide)).2 (by decide)
      [97, 50] (by decide) (by decide) (by decide) (by decide) (by decide)⟩

end Crabc.Text
