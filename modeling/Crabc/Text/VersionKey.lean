/-
  Crabc.Text.VersionKey

  The order `strverscmp` computes, as a lexicographic order.

  `versionKey` rewrites a version string into a list of numbers: a run that
  starts with a nonzero digit is announced by its length, inside a run of zeros
  the digits rank below everything else, every other byte stands for itself and
  the end of the string is ranked like a terminator.  Comparing two strings is
  comparing their keys, so totality and transitivity come from the order on
  lists.

  The bridge to the code is the split of the two strings at their first
  difference (`Diverge`): both copies reduce there to one `verdict`, which
  depends only on the kind of digit run the common prefix ends in.
-/

import Crabc.Text.VersionCmp

namespace Crabc.Text

open VersionScan Std.ReflOrd

/-! ## Bytes and digits -/

theorem compare_toNat {a b : UInt8} : compare a b = compare a.toNat b.toNat := by
  show compareOfLessAndEq a b = compareOfLessAndEq a.toNat b.toNat
  simp only [compareOfLessAndEq, UInt8.lt_iff_toNat_lt, ← UInt8.toNat_inj]

@[simp] theorem compare_zero_succ (n : Nat) : compare 0 (n + 1) = .lt :=
  Nat.compare_eq_lt.mpr n.succ_pos

@[simp] theorem compare_succ_zero (n : Nat) : compare (n + 1) 0 = .gt :=
  Nat.compare_eq_gt.mpr n.succ_pos

variable {c : UInt8} {w : List UInt8}

theorem nonzeroDigit_iff : nonzeroDigit c = true ↔ 49 ≤ c.toNat ∧ c.toNat ≤ 57 := by
  have hc := c.toNat_lt
  simp only [nonzeroDigit, UInt8.lt_iff_toNat_lt, UInt8.toNat_sub, decide_eq_true_eq, UInt8.reduceToNat]
  omega

theorem isAsciiDigit_iff : isAsciiDigit c = true ↔ 48 ≤ c.toNat ∧ c.toNat ≤ 57 := by
  simp [isAsciiDigit, UInt8.le_iff_toNat_le]

theorem isAsciiDigit_of_nonzero (h : nonzeroDigit c = true) : isAsciiDigit c = true := by
  rw [nonzeroDigit_iff] at h
  rw [isAsciiDigit_iff]
  omega

/-- A digit is `'0'` or one of `'1'..'9'`. -/
theorem nonzeroDigit_of_ne (h : isAsciiDigit c = true) (h0 : c ≠ 48) : nonzeroDigit c = true := by
  rw [isAsciiDigit_iff] at h
  have h0' : c.toNat ≠ 48 := fun e => h0 (UInt8.toNat_inj.mp e)
  rw [nonzeroDigit_iff]
  omega

/-- The class-table digit test of `strverscmp.rs` is the range test. -/
theorem isdigit_eq : (fun c : UInt8 => decide (isdigit c.toNat ≠ 0)) = isAsciiDigit := by
  funext c
  rw [Bool.eq_iff_iff, isAsciiDigit_iff, decide_eq_true_eq, isdigit]
  split_ifs <;> omega

/-- So is the wrapping test of `byte_strings.rs`. -/
theorem isDecimalDigit_eq : isDecimalDigit = isAsciiDigit := by
  funext c
  have hc := c.toNat_lt
  rw [Bool.eq_iff_iff, isAsciiDigit_iff, isDecimalDigit, decide_eq_true_eq, UInt8.lt_iff_toNat_lt, UInt8.toNat_sub]
  simp only [UInt8.reduceToNat]
  omega

/-! ## The key -/

/-- The digit run a prefix ends in: none, all zeros, one that starts with a
    nonzero digit, or one that starts with a zero and is not all zeros. -/
inductive RunState where
  | none
  | zeros
  | nonzero
  | mixed
deriving DecidableEq

/-- The run after one more byte. -/
def RunState.next (st : RunState) (c : UInt8) : RunState :=
  if isAsciiDigit c then
    match st with
    | .none => if c = 48 then .zeros else .nonzero
    | .zeros => if c = 48 then .zeros else .mixed
    | .nonzero => .nonzero
    | .mixed => .mixed
  else .none

/-- The rank of a byte after a run: after zeros the digits come first. -/
def RunState.rank (st : RunState) (c : UInt8) : Nat :=
  if st = .zeros then if isAsciiDigit c then c.toNat - 48 else c.toNat + 10
  else c.toNat

/-- Length of the digit run a string starts with. -/
def runLength : List UInt8 → Nat
  | c :: s => if isAsciiDigit c then runLength s + 1 else 0
  | [] => 0

/-- The key of a string that follows a run of kind `st`. -/
def versionKey : RunState → List UInt8 → List Nat
  | st, [] => [st.rank 0]
  | st, c :: s =>
    if st = .none ∧ nonzeroDigit c then
      49 :: runLength (c :: s) :: c.toNat :: versionKey .nonzero s
    else st.rank c :: versionKey (st.next c) s

theorem next_none_of_nonzero (h : nonzeroDigit c = true) : RunState.next .none c = .nonzero := by
  have h0 : c ≠ 48 := by
    rintro rfl
    simp [nonzeroDigit] at h
  simp [RunState.next, isAsciiDigit_of_nonzero h, h0]

open List

theorem runLength_append (h : ∀ c ∈ w, isAsciiDigit c = true) {s : List UInt8} :
    runLength (w ++ s) = w.length + runLength s := by
  induction w with
  | nil => simp
  | cons c w ih =>
    rw [cons_append, runLength, if_pos (h c mem_cons_self), ih (fun d hd => h d (mem_cons_of_mem _ hd)), length_cons]
    omega

/-- A prefix that is not all digits hides what follows it. -/
theorem runLength_append_of_not (h : ¬ ∀ c ∈ w, isAsciiDigit c = true) {s s' : List UInt8} :
    runLength (w ++ s) = runLength (w ++ s') := by
  induction w with
  | nil => simp at h
  | cons c w ih =>
    by_cases hc : isAsciiDigit c = true
    · have hw : ¬ ∀ d ∈ w, isAsciiDigit d = true := by
        intro hall
        exact h (forall_mem_cons.mpr ⟨hc, hall⟩)
      simp only [cons_append, runLength, if_pos hc, ih hw]
    · simp only [cons_append, runLength, if_neg hc]

/-! ## Keys of strings with a common prefix -/

/-- The state after a common prefix. -/
def RunState.after (st : RunState) (w : List UInt8) : RunState := w.foldl RunState.next st

variable {st : RunState}

theorem next_nonzero_eq (h : isAsciiDigit c = true) (hst : st = .nonzero) : st.next c = .nonzero := by
  subst hst
  simp [RunState.next, h]

theorem after_nonzero_of_digits (h : ∀ c ∈ w, isAsciiDigit c = true) : RunState.after .nonzero w = .nonzero := by
  induction w with
  | nil => rfl
  | cons c w ih =>
    have hc := next_nonzero_eq (h c mem_cons_self) rfl
    rw [RunState.after, foldl_cons, hc]
    exact ih (fun d hd => h d (mem_cons_of_mem _ hd))

variable {l r : List UInt8}

/-- A common prefix contributes the length of a run that is still open at its
    end, unless that run was open from the start. -/
theorem compare_versionKey_append : compare (versionKey st (w ++ l)) (versionKey st (w ++ r)) =
      (if st.after w = .nonzero ∧ ¬ (st = .nonzero ∧ ∀ c ∈ w, isAsciiDigit c = true) then
        compare (runLength l) (runLength r) else .eq).then
      (compare (versionKey (st.after w) l) (versionKey (st.after w) r)) := by
  induction w generalizing st with
  | nil =>
    rw [if_neg (by simp [RunState.after])]
    rfl
  | cons c w ih =>
    have hafter : st.after (c :: w) = (st.next c).after w := rfl
    rw [hafter]
    simp only [cons_append, versionKey]
    by_cases hstart : st = .none ∧ nonzeroDigit c = true
    · -- a run starts at `c`; its length reaches into `l` and `r` iff `w` is all digits
      obtain ⟨rfl, hc⟩ := hstart
      have hd := isAsciiDigit_of_nonzero hc
      rw [if_pos ⟨rfl, hc⟩, if_pos ⟨rfl, hc⟩, next_none_of_nonzero hc]
      simp only [List.compare_cons_cons, compare_self, Ordering.then, ih]
      by_cases hw : ∀ d ∈ w, isAsciiDigit d = true
      · have hrun : ∀ s, runLength (c :: (w ++ s)) = w.length + 1 + runLength s := by
          intro s
          rw [runLength, if_pos hd, runLength_append hw]
          omega
        rw [after_nonzero_of_digits hw, if_neg (fun h => h.2 ⟨trivial, hw⟩), if_pos (by simp), hrun, hrun]
        simp only [Nat.compare_eq_ite_lt, Nat.add_lt_add_iff_left]
      · have hrun : runLength (c :: (w ++ l)) = runLength (c :: (w ++ r)) := by
          rw [runLength, runLength, runLength_append_of_not hw]
        rw [hrun, compare_self]
        simp [hw]
    · -- `c` is ranked the same on both sides
      rw [if_neg hstart, if_neg hstart, List.compare_cons_cons, compare_self, ih]
      have hopen : ((st.next c = .nonzero ∧ ∀ d ∈ w, isAsciiDigit d = true) ↔
          (st = .nonzero ∧ ∀ d ∈ c :: w, isAsciiDigit d = true)) := by
        rw [forall_mem_cons]
        constructor
        · rintro ⟨hn, hw⟩
          have hc : isAsciiDigit c = true := by
            by_contra hc
            simp [RunState.next, hc] at hn
          refine ⟨?_, hc, hw⟩
          cases st with
          | none =>
            by_cases h0 : c = 48
            · subst h0
              simp [RunState.next, hc] at hn
            · exact absurd ⟨rfl, nonzeroDigit_of_ne hc h0⟩ hstart
          | zeros =>
            simp only [RunState.next, hc, if_true] at hn
            split_ifs at hn
          | nonzero => rfl
          | mixed => simp [RunState.next, hc] at hn
        · rintro ⟨hst, hc, hw⟩
          exact ⟨next_nonzero_eq hc hst, hw⟩
      simp only [hopen]
      rfl

/-! ## The verdict at the first difference -/

/-- Two suffixes that do not start with the same byte. -/
def Diverge : List UInt8 → List UInt8 → Prop
  | a :: _, b :: _ => a ≠ b
  | _, _ => True

/-- Any two strings split at their first difference. -/
theorem exists_diverge (l r : List UInt8) : ∃ w l' r', l = w ++ l' ∧ r = w ++ r' ∧ Diverge l' r' := by
  induction l generalizing r with
  | nil => exact ⟨[], [], r, rfl, rfl, trivial⟩
  | cons a l ih =>
    cases r with
    | nil => exact ⟨[], a :: l, [], rfl, rfl, trivial⟩
    | cons b r =>
      by_cases h : a = b
      · subst h
        obtain ⟨w, l', r', hl, hr, hd⟩ := ih r
        exact ⟨a :: w, l', r', by rw [hl, cons_append], by rw [hr, cons_append], hd⟩
      · exact ⟨[], a :: l, b :: r, rfl, rfl, h⟩

/-- What the comparison answers on two suffixes after a common prefix whose digit run is `st`. `fill` is the byte an
    exhausted side stands for when the run is all zeros: the terminator in C, `b'0'` in the slice version. -/
def verdict (fill : UInt8) (st : RunState) (l r : List UInt8) : Ordering :=
  let bytes := compare (l.head?.getD 0) (r.head?.getD 0)
  match st with
  | .none =>
    if l.head?.any nonzeroDigit && r.head?.any nonzeroDigit then
      (compare (runLength l) (runLength r)).then bytes
    else bytes
  | .nonzero => (compare (runLength l) (runLength r)).then bytes
  | .zeros =>
    if l.head?.any isAsciiDigit || r.head?.any isAsciiDigit then
      compare (l.head?.getD fill - 48) (r.head?.getD fill - 48)
    else bytes
  | .mixed => bytes

/-- The prefix loop of the slice version reaches the first difference. -/
theorem commonPrefix_append (h : Diverge l r) (w : List UInt8) (s : VersionScan) :
    commonPrefix (w ++ l) (w ++ r) s = w.foldl (step isAsciiDigit) s := by
  induction w generalizing s with
  | nil =>
    cases l with
    | nil => simp [commonPrefix]
    | cons a l =>
      cases r with
      | nil => simp [commonPrefix]
      | cons b r => simpa [commonPrefix] using fun e => absurd e h
  | cons c w ih => simp [commonPrefix, ih]

/-- On C strings the walk ends at the shared terminator or at the first
    difference; it never leaves the two objects. -/
theorem commonPrefixC_append (h : Diverge l r) (hw : ∀ c ∈ w, c ≠ 0) (hl : ∀ c ∈ l, c ≠ 0)
    (hr : ∀ c ∈ r, c ≠ 0) (s : VersionScan) :
    commonPrefixC isAsciiDigit (w ++ l ++ [0]) (w ++ r ++ [0]) s = some (if l = [] ∧ r = [] then none
        else some (w.foldl (step isAsciiDigit) s)) := by
  induction w generalizing s with
  | nil =>
    cases l with
    | nil =>
      cases r with
      | nil => simp [commonPrefixC]
      | cons b r => simp [commonPrefixC, (hr b mem_cons_self).symm]
    | cons a l =>
      cases r with
      | nil => simp [commonPrefixC, hl a mem_cons_self]
      | cons b r =>
        have hab : a ≠ b := h
        simp [commonPrefixC, hab]
  | cons c w ih =>
    have hc := hw c mem_cons_self
    have ih' := ih (fun d hd => hw d (mem_cons_of_mem _ hd))
    rw [append_assoc, append_assoc] at ih'
    simp [commonPrefixC, hc, ih']

/-- The loop variables after a prefix, in terms of the run it ends in. -/
structure Tracks (w : List UInt8) (s : VersionScan) (st : RunState) : Prop where
  index : s.index = w.length
  none : st = .none → s.digitPrefix = w.length
  start : st ≠ .none → ∃ c, w[s.digitPrefix]? = some c ∧ (nonzeroDigit c = true ↔ st = .nonzero)
  zero : st ≠ .nonzero → (s.allZero = true ↔ st = .none ∨ st = .zeros)

theorem Tracks.step {s : VersionScan} (h : Tracks w s st) (c : UInt8) :
    Tracks (w ++ [c]) (s.step isAsciiDigit c) (st.next c) := by
  by_cases hc : isAsciiDigit c = true
  · have hs : s.step isAsciiDigit c = { s with index := s.index + 1, allZero := s.allZero && c == 48 } := by
      by_cases h0 : c = 48 <;> simp [VersionScan.step, hc, h0]
      rw [h0] at hc
      simp [hc]
    have hnn : st.next c ≠ .none := by
      cases st <;> by_cases h0 : c = 48 <;> simp [RunState.next, hc, h0] <;> simp_all
    have hstart : ∃ d, (w ++ [c])[s.digitPrefix]? = some d ∧ (nonzeroDigit d = true ↔ st.next c = .nonzero) := by
      by_cases hst : st = .none
      · refine ⟨c, by simp [h.none hst], ?_⟩
        by_cases h0 : c = 48
        · subst h0
          simp [hst, RunState.next, hc, nonzeroDigit]
        · simp [hst, RunState.next, hc, h0, nonzeroDigit_of_ne hc h0]
      · obtain ⟨d, hd, hnz⟩ := h.start hst
        have hlt : s.digitPrefix < w.length := (List.getElem?_eq_some_iff.mp hd).1
        refine ⟨d, by rw [List.getElem?_append_left hlt, hd], hnz.trans ?_⟩
        cases st <;> simp only [RunState.next, hc, if_true] <;> (try split_ifs) <;> simp_all
    have hzero : st.next c ≠ .nonzero → ((s.allZero && c == 48) = true ↔ st.next c = .none ∨ st.next c = .zeros) := by
      intro hne
      have hst : st ≠ .nonzero := fun e => hne (next_nonzero_eq hc e)
      have hz := h.zero hst
      cases st <;> by_cases h0 : c = 48 <;> simp_all [RunState.next]
    rw [hs]
    exact ⟨by simp [h.index], fun e => absurd e hnn, fun _ => hstart, hzero⟩
  · have hn : st.next c = .none := by simp [RunState.next, hc]
    have hs : s.step isAsciiDigit c = { index := s.index + 1, digitPrefix := s.index + 1, allZero := true } := by
      simp [VersionScan.step, hc]
    rw [hn, hs]
    exact ⟨by simp [h.index], fun _ => by simp [h.index], fun e => absurd rfl e, by simp⟩

/-- The prefix loop keeps track of the digit run. -/
theorem tracks_foldl (w : List UInt8) : Tracks w (w.foldl (step isAsciiDigit) {}) (RunState.after .none w) := by
  induction w using reverseRecOn with
  | nil => exact ⟨rfl, fun _ => rfl, fun h => absurd rfl h, by simp [RunState.after]⟩
  | append_singleton w c ih =>
    rw [RunState.after, foldl_append, foldl_append]
    exact ih.step c

/-! ## The slice version -/

/-- The digit-run loop compares run lengths. -/
theorem longerRun_getD (o : Ordering) : (longerRun l r).getD o = (compare (runLength l) (runLength r)).then o := by
  induction l generalizing r with
  | nil =>
    cases r with
    | nil => simp [longerRun, runLength]
    | cons b r => by_cases hb : isAsciiDigit b = true <;> simp [longerRun, runLength, hb]
  | cons a l ih =>
    by_cases ha : isAsciiDigit a = true <;> cases r with
    | nil => simp [longerRun, runLength, ha]
    | cons b r =>
      by_cases hb : isAsciiDigit b = true <;> simp [longerRun, runLength, ha, hb, ih, Nat.compare_eq_ite_lt]

/-- The byte at the first difference. -/
theorem getElem?_split : (w ++ l)[w.length]? = l.head? := by
  rw [List.getElem?_append_right .refl, Nat.sub_self, head?_eq_getElem?]

/-- A byte of the common prefix. -/
theorem getElem?_common {i : Nat} (h : w[i]? = some c) : (w ++ l)[i]? = some c := by
  rw [List.getElem?_append_left (List.getElem?_eq_some_iff.mp h).1, h]

/-- `version_cmp` answers with the verdict for an exhausted side read as `'0'`. -/
theorem versionCmp_append (h : Diverge l r) (w : List UInt8) : versionCmp (w ++ l) (w ++ r) =
      if l = [] ∧ r = [] then .eq else verdict 48 (RunState.after .none w) l r := by
  have ht := tracks_foldl w
  rw [versionCmp, commonPrefix_append h]
  generalize w.foldl (step isAsciiDigit) {} = s at ht
  generalize RunState.after .none w = st at ht
  simp only [ht.index, length_append, Nat.left_eq_add, length_eq_zero_iff, getElem?_split, drop_left, longerRun_getD]
  refine if_congr Iff.rfl rfl ?_
  cases st with
  | none =>
    simp [verdict, ht.none rfl, getElem?_split]
  | zeros =>
    obtain ⟨c, hc, hnz⟩ := ht.start (by simp)
    have hlt := (List.getElem?_eq_some_iff.mp hc).1
    have hz := (ht.zero (by simp)).mpr (Or.inr rfl)
    simp [verdict, getElem?_common hc, hnz, hlt, hz]
  | nonzero =>
    obtain ⟨c, hc, hnz⟩ := ht.start (by simp)
    simp [verdict, getElem?_common hc, hnz.mpr rfl]
  | mixed =>
    obtain ⟨c, hc, hnz⟩ := ht.start (by simp)
    have hz : s.allZero = false := by simpa using ht.zero (by simp)
    simp [verdict, getElem?_common hc, hnz, hz]

/-! ## The C versions -/

/-- The sign a C comparison returns for an ordering. -/
def ordSign : Ordering → Int
  | .lt => -1
  | .eq => 0
  | .gt => 1

theorem sign_sub_toNat {a b : UInt8} : ((a.toNat : Int) - b.toNat).sign = ordSign (compare a b) := by
  rw [compare_toNat]
  rcases Nat.lt_trichotomy a.toNat b.toNat with h | h | h
  · rw [Nat.compare_eq_lt.mpr h, Int.sign_eq_neg_one_of_neg (by omega), ordSign]
  · rw [Nat.compare_eq_eq.mpr h, h, Int.sub_self, Int.sign_zero, ordSign]
  · rw [Nat.compare_eq_gt.mpr h, Int.sign_eq_one_of_pos (by omega), ordSign]

theorem longerRunC_append : longerRunC isAsciiDigit (l ++ [0]) (r ++ [0]) =
      some (if runLength l = runLength r then none
        else some (ordSign (compare (runLength l) (runLength r)))) := by
  have h0 : isAsciiDigit 0 = false := by decide
  induction l generalizing r with
  | nil =>
    cases r with
    | nil => simp [longerRunC, runLength, h0]
    | cons b r =>
      by_cases hb : isAsciiDigit b = true <;> simp [longerRunC, runLength, h0, hb, ordSign]
  | cons a l ih =>
    by_cases ha : isAsciiDigit a = true <;> cases r with
    | nil => simp [longerRunC, runLength, ha, h0, ordSign]
    | cons b r =>
      by_cases hb : isAsciiDigit b = true <;>
        simp [longerRunC, runLength, ha, hb, ih, ordSign, Nat.compare_eq_ite_lt]

end Crabc.Text
