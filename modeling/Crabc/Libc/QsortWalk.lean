/-
  Crabc.Libc.QsortWalk

  `qsort_sift` and `qsort_trinkle` on the records of the array.  Their loops walk the
  paths of the sift and the climb over Leonardo trees, and the rotations make them
  the sift and the trinkle of those trees.
-/

import Crabc.Libc.QsortBits
import Crabc.Libc.QsortCycle

namespace Crabc.Libc

open Crabc.Lib Function Or

/-! ## The comparison -/

/-- The callback is a total preorder on records: swapping the arguments swaps the
    sign, and not being greater is transitive. -/
structure RecordOrder (width : Nat) (cmp : QsortCmp) : Prop where
  flip : ∀ x y : List UInt8, x.length = width → y.length = width → (0 ≤ cmp x y ↔ cmp y x ≤ 0)
  trans : ∀ x y z : List UInt8, x.length = width → y.length = width → z.length = width →
    cmp x y ≤ 0 → cmp y z ≤ 0 → cmp x z ≤ 0

/-- The order of records, with what is no record above all of them. -/
def recordLe (width : Nat) (cmp : QsortCmp) (x y : List UInt8) : Prop :=
  y.length = width → x.length = width ∧ cmp x y ≤ 0

instance (width : Nat) (cmp : QsortCmp) : DecidableRel (recordLe width cmp) := fun x y =>
  inferInstanceAs (Decidable (y.length = width → x.length = width ∧ cmp x y ≤ 0))

variable {cmp : QsortCmp} {width : Nat}

theorem recordLe_iff {x y : List UInt8} (hx : x.length = width) (hy : y.length = width) :
    recordLe width cmp x y ↔ cmp x y ≤ 0 :=
  ⟨fun h => (h hy).2, fun h _ => ⟨hx, h⟩⟩

theorem RecordOrder.totalPreorder (h : RecordOrder width cmp) : TotalPreorder (recordLe width cmp) := by
  refine ⟨?_, ?_⟩
  · intro x y z hxy hyz hz
    obtain ⟨hy, hyz⟩ := hyz hz
    obtain ⟨hx, hxy⟩ := hxy hy
    exact ⟨hx, h.trans x y z hx hy hz hxy hyz⟩
  · intro x y
    by_cases hy : y.length = width
    · by_cases hx : x.length = width
      · rw [recordLe_iff hx hy, recordLe_iff hy hx, ← h.flip x y hx hy]
        omega
      · exact inr fun h => absurd h hx
    · exact inl fun h => absurd h hy

/-! ## The array and the sizes of the trees -/

/-- What the loops rely on: records of one byte or more, an array that fits the
    address space, and the sizes in bytes of all trees that fit the array. -/
structure Setup (width nel : Nat) (cmp : QsortCmp) (lp : List Nat) : Prop where
  pos : 0 < width
  small : width * nel < 2 ^ 64
  table : ∀ k, leo k ≤ nel → lp[k]? = some (width * leo k)
  order : RecordOrder width cmp

variable {k : Nat}

open Nat

theorem order_lt (h : leo k < 2 ^ 64) : k < 96 := by
  by_contra hnot
  have hmono : leo 96 ≤ leo k := leo_mono (Nat.le_of_not_lt hnot)
  have hfib := leo_add_one_eq_fib 96
  have hvalue : fib 97 = 83621143489848422977 := by decide +kernel
  rw [hvalue] at hfib
  omega

open Option

section Walks

variable {nel : Nat} {lp : List Nat} {bytes : List UInt8}

theorem Setup.order_lt (hs : Setup width nel cmp lp) (hk : leo k ≤ nel) : k < 96 := by
  apply Libc.order_lt
  have hsmall := hs.small
  have hle : 1 * nel ≤ width * nel := mul_le_mul_right nel hs.pos
  omega

theorem Setup.qsortWord (hs : Setup width nel cmp lp) (hk : leo k ≤ nel) : qsortWord lp k = some (width * leo k) := by
  rw [Libc.qsortWord, if_pos (Int.natCast_nonneg k), Int.toNat_natCast, hs.table k hk]

variable {i h : Nat} {ks : List Nat}

theorem recordOf_length (hlen : bytes.length = nel * width) (hi : i < nel) :
    (recordOf width bytes i).length = width := by
  have hle : (i + 1) * width ≤ nel * width := mul_le_mul_right width hi
  rw [add_mul, one_mul] at hle
  rw [recordOf, List.length_take, List.length_drop]
  omega

theorem callCmp_records (hlen : bytes.length = nel * width) {j : Nat} (hi : i < nel)
    (hj : j < nel) : callCmp width cmp bytes (.record (i * width)) (.record (j * width)) =
      some (cmp (recordOf width bytes i) (recordOf width bytes j)) := by
  have hle (p : Nat) (hp : p < nel) : p * width + width ≤ bytes.length := by
    have := mul_le_mul_right width (succ_le_of_lt hp)
    rw [succ_mul] at this
    omega
  simp only [callCmp, recordAt, if_pos (hle i hi), if_pos (hle j hj), bind_eq_bind, bind_some]
  rfl

/-- The two ways the loops use the callback. -/
theorem Setup.le_iff (hs : Setup width nel cmp lp) (hlen : bytes.length = nel * width) {j : Nat}
    (hi : i < nel) (hj : j < nel) : (cmp (recordOf width bytes i) (recordOf width bytes j) ≤ 0 ↔
      recordLe width cmp (recordOf width bytes i) (recordOf width bytes j)) ∧
    (cmp (recordOf width bytes i) (recordOf width bytes j) ≥ 0 ↔
      recordLe width cmp (recordOf width bytes j) (recordOf width bytes i)) := by
  have hx := recordOf_length hlen hi
  have hy := recordOf_length hlen hj
  rw [recordLe_iff hx hy, recordLe_iff hy hx]
  exact ⟨Iff.rfl, hs.order.flip _ _ hx hy⟩

variable {r p₀ : Nat} {walk : Walk} {init : List Nat}

theorem subOffset_mul (width : Nat) {n : Nat} (h : n ≤ r) :
    subOffset (r * width) (width * n) = some ((r - n) * width) := by
  have hle := mul_le_mul_left width h
  rw [subOffset, Nat.mul_comm r, if_pos hle, ← Nat.mul_sub, Nat.mul_comm]

/-- The children of a root. -/
theorem Setup.children (hs : Setup width nel cmp lp) (hr : leo (k + 2) ≤ r + 1) (hnel : r < nel) :
    children width lp (r * width) ((k + 2 : Nat) : Int) = some ((r - 1 - leo k) * width, (r - 1) * width) := by
  have hsize := leo_add_two k
  have hpos := leo_pos (k + 1)
  have hcast : ((k + 2 : Nat) : Int) - 2 = (k : Int) := by omega
  have hsub1 := subOffset_mul width (r := r) (n := 1) (by omega)
  have hsub2 := subOffset_mul width (r := r) (n := 1 + leo k) (by omega)
  have hsmall : width * (1 + leo k) < 2 ^ 64 :=
    lt_of_le_of_lt (mul_le_mul_left width (by omega)) hs.small
  rw [mul_one] at hsub1
  rw [mul_add, mul_one] at hsub2 hsmall
  rw [Libc.children, hcast, hs.qsortWord (by omega), hsub1]
  simp only [bind_eq_bind, bind_some]
  rw [mod_eq_of_lt hsmall, hsub2, sub_add_eq]
  rfl

/-! ## Paths -/

/-- The walk has come over the records `init` to the root `r` of a tree of order `k`. -/
structure Walk.At (walk : Walk) (width : Nat) (init : List Nat) (r k : Nat) : Prop where
  count : walk.count = (init ++ [r]).length
  entries : ∀ j p, (init ++ [r])[j]? = some p → walk.entries j = some (.record (p * width))
  head : walk.head = r * width
  pshift : walk.pshift = k

theorem walk_start (width r k : Nat) : ∃ walk, Walk.start (r * width) k = some walk ∧ walk.At width [] r k := by
  refine ⟨_, rfl, rfl, fun j p hj => ?_, rfl, rfl⟩
  cases j with
  | zero =>
    cases hj
    rfl
  | succ j => cases hj

theorem Walk.At.push (h : walk.At width init r k) (hlen : (init ++ [r]).length < arLen) (r' k' : Nat) :
    ∃ walk', walk.push (r' * width) k' = some walk' ∧ walk'.At width (init ++ [r]) r' k' := by
  refine ⟨⟨update walk.entries (init ++ [r]).length (some (.record (r' * width))),
    (init ++ [r]).length + 1, r' * width, k'⟩, ?_, ?_, fun j p hj => ?_, rfl, rfl⟩
  · rw [Walk.push, setQsortRecordPointer, h.count, if_pos hlen]
    rfl
  · simp
  · dsimp only
    rcases lt_or_ge j (init ++ [r]).length with hlt | hge
    · rw [List.getElem?_append_left hlt] at hj
      rw [update_of_ne (by omega), h.entries j p hj]
    · rw [List.getElem?_append_right hge] at hj
      have hj0 : j = (init ++ [r]).length := by
        have := (List.getElem?_eq_some_iff.mp hj).1
        rw [List.length_singleton] at this
        omega
      rw [hj0, Nat.sub_self, List.getElem?_cons_zero] at hj
      cases hj
      rw [hj0, update_self]

/-- The first entry stays the record that is being moved. -/
theorem Walk.At.root (h : walk.At width init r k) (hhead : (init ++ [r]).head? = some p₀) :
    qsortRecordPointer walk.entries 0 = some (.record (p₀ * width)) := by
  rw [List.head?_eq_getElem?] at hhead
  exact h.entries 0 p₀ hhead

/-- Rotating the records that a walk has come over. -/
theorem Walk.At.cycle {path : List Nat} (h : walk.At width init r k) (hpath : init ++ [r] = p₀ :: path)
    (hpos : 0 < width) (hlen : bytes.length = nel * width) (hnodup : (p₀ :: path).Nodup)
    (hlt : ∀ p ∈ p₀ :: path, p < nel) (hn : (p₀ :: path).length < arLen) :
    ∃ bytes', qsortCycle width walk.entries walk.count bytes = some bytes' ∧
      bytes'.length = nel * width ∧ recordOf width bytes' =
        place (recordOf width bytes) (p₀ :: path) (recordOf width bytes p₀) := by
  have hentries := h.entries
  rw [hpath] at hentries
  rw [h.count, hpath, ← hlen]
  exact qsortCycle_rotates hpos hlen hnodup hlt hn hentries

/-! ## Sift -/

variable (hs : Setup width nel cmp lp) (hlen : bytes.length = nel * width)
include hs hlen

/-- The loop of `qsort_sift` walks the path of the record it moves. -/
theorem siftLoop_path (hp₀ : p₀ < nel) : ∀ {k r : Nat} (rounds : Nat) (walk : Walk) (init : List Nat),
    leo k ≤ r + 1 → r < nel → k < rounds → walk.At width init r k →
    (init ++ [r]).head? = some p₀ → init.length + k + 1 < arLen →
    ∃ walk' init' r' k', siftLoop width cmp lp bytes rounds walk = some walk' ∧
      walk'.At width init' r' k' ∧ init' ++ [r'] = init ++
        siftPath (recordLe width cmp) (recordOf width bytes) (recordOf width bytes p₀) k r
  | 0, r, rounds + 1, walk, init, _, _, _, hat, _, _ | 1, r, rounds + 1, walk, init, _, _, _, hat, _, _ =>
    ⟨walk, init, r, _, by rw [siftLoop, hat.pshift, if_neg (by omega)], hat, rfl⟩
  | k + 2, r, rounds + 1, walk, init, hr, hnel, hrounds, hat, hhead, hroom => by
      have hb := children_bounds hr
      have hshort : (init ++ [r]).length < arLen := by
        rw [List.length_append, List.length_singleton]
        omega
      have hleft : r - 1 - leo k < nel := by omega
      have hright : r - 1 < nel := by omega
      have hnext (j : Nat) : ((init ++ [r]) ++ [j]).head? = some p₀ := by
        rw [List.head?_append, hhead]
        rfl
      -- the three calls of the callback
      have hrootLeft := (hs.le_iff hlen hp₀ hleft).2
      have hrootRight := (hs.le_iff hlen hp₀ hright).2
      have hleftRight := (hs.le_iff hlen hleft hright).2
      have hmore : ((k + 2 : Nat) : Int) > 1 := by omega
      rw [siftLoop, hat.pshift, if_pos hmore, hat.head, hs.children hr hnel, hat.root hhead]
      simp only [bind_eq_bind, bind_some, callCmp_records hlen hp₀ hleft,
        callCmp_records hlen hp₀ hright, callCmp_records hlen hleft hright, hrootLeft, hrootRight,
        hleftRight]
      rcases siftPath_cases (recordLe width cmp) (recordOf width bytes) (recordOf width bytes p₀) k r
        with ⟨h1, h2, hpath⟩ | ⟨h1, h2, hpath⟩ | ⟨h1, h2, hpath⟩
      · rw [if_pos ⟨h1, h2⟩, hpath]
        exact ⟨walk, init, r, k + 2, rfl, hat, rfl⟩
      · have hcast : ((k + 2 : Nat) : Int) - 1 = ((k + 1 : Nat) : Int) := by omega
        obtain ⟨walk₁, hpush, hat₁⟩ := hat.push hshort (r - 1 - leo k) (k + 1)
        obtain ⟨walk₂, init₂, r₂, k₂, hrun, hat₂, hpath₂⟩ := siftLoop_path hp₀ rounds walk₁
          (init ++ [r]) hb.2.1 hleft (by omega) hat₁ (hnext _)
          (by rw [List.length_append, List.length_singleton]; omega)
        rw [if_neg h1, if_pos h2, hcast, hpush, hpath]
        refine ⟨walk₂, init₂, r₂, k₂, hrun, hat₂, ?_⟩
        rw [hpath₂, List.append_assoc]
        rfl
      · have hcast : ((k + 2 : Nat) : Int) - 2 = (k : Int) := by omega
        obtain ⟨walk₁, hpush, hat₁⟩ := hat.push hshort (r - 1) k
        obtain ⟨walk₂, init₂, r₂, k₂, hrun, hat₂, hpath₂⟩ := siftLoop_path hp₀ rounds walk₁
          (init ++ [r]) hb.1 hright (by omega) hat₁ (hnext _)
          (by rw [List.length_append, List.length_singleton]; omega)
        rw [if_neg h1, if_neg h2, hcast, hpush, hpath]
        refine ⟨walk₂, init₂, r₂, k₂, hrun, hat₂, ?_⟩
        rw [hpath₂, List.append_assoc]
        rfl

/-- **`qsort_sift`** sifts the root of a tree. -/
theorem qsortSift_sifts (hr : leo k ≤ r + 1) (hnel : r < nel) :
    ∃ bytes', qsortSift width cmp lp (r * width) k bytes = some bytes' ∧
      bytes'.length = nel * width ∧
      recordOf width bytes' = siftAt (recordLe width cmp) (recordOf width bytes) k r := by
  have hk := hs.order_lt (by omega : leo k ≤ nel)
  obtain ⟨walk, hstart, hat⟩ := walk_start width r k
  obtain ⟨walk', init, r', k', hrun, hat', hpath⟩ := siftLoop_path hs hlen hnel (k + 1) walk []
    hr hnel k.lt_succ_self hat rfl
    (by rw [List.length_nil, arLen]; omega)
  obtain ⟨path, hcons⟩ := siftPath_head (recordLe width cmp) (recordOf width bytes)
    (recordOf width bytes r) k r
  have hmem := siftPath_mem (recordLe width cmp) (recordOf width bytes) (recordOf width bytes r) hr
  have hnodup :=
    siftPath_nodup (recordLe width cmp) (recordOf width bytes) (recordOf width bytes r) hr
  have hlength :=
    siftPath_length (recordLe width cmp) (recordOf width bytes) (recordOf width bytes r) k r
  rw [List.nil_append, hcons] at hpath
  rw [hcons] at hmem hnodup hlength
  obtain ⟨bytes', hcycle, hlen', hrecords⟩ := hat'.cycle hpath hs.pos hlen hnodup
    (fun p hp => by have := (hmem p hp).2; omega) (by rw [arLen]; omega)
  refine ⟨bytes', ?_, hlen', ?_⟩
  · simp only [qsortSift, hstart, Int.toNat_natCast, hrun, hcycle, bind_eq_bind, bind_some]
  · rw [hrecords, siftAt, hcons]

/-! ## Trinkle -/

/-- The test of `qsort_trinkle` where there is a tree on the left. -/
theorem trinkleBreaks_iff (trusty : Bool) (hks : ks ≠ []) (hspan : leo k + span ks ≤ h + 1) (hnel : h < nel)
    (hp₀ : p₀ < nel) (hat : walk.At width init h k) (hhead : (init ++ [h]).head? = some p₀) :
    trinkleBreaks width cmp lp bytes trusty ((h - leo k) * width) walk =
      some (decide (Stops (recordLe width cmp) (recordOf width bytes) (recordOf width bytes p₀)
        trusty k ks h)) := by
  have hleft : h - leo k < nel := by omega
  have hstepson := (hs.le_iff hlen hleft hp₀).1
  rw [trinkleBreaks, hat.root hhead, hat.pshift, hat.head]
  simp only [bind_eq_bind, bind_some, callCmp_records hlen hleft hp₀, hstepson]
  by_cases h1 : recordLe width cmp (recordOf width bytes (h - leo k)) (recordOf width bytes p₀)
  · rw [if_pos h1]
    exact congrArg some (decide_eq_true (inr (inl h1))).symm
  rw [if_neg h1]
  match k, hat, hspan, hleft, h1 with
  | 0, _, _, _, h1 | 1, _, _, _, h1 =>
    rw [if_neg (fun h => by omega)]
    refine congrArg some (decide_eq_false ?_).symm
    rintro (hnil | hle | ⟨-, hnot⟩)
    · exact hks hnil
    · exact h1 hle
    · exact hnot trivial
  | k + 2, hat, hspan, hleft, h1 =>
    have hr : leo (k + 2) ≤ h + 1 := by omega
    have hchildRight := (hs.le_iff hlen (by omega : h - 1 < nel) hleft).2
    have hchildLeft := (hs.le_iff hlen (by omega : h - 1 - leo k < nel) hleft).2
    by_cases htrusty : trusty = false
    · rw [if_pos ⟨htrusty, by omega⟩, hs.children hr hnel]
      simp only [bind_some, callCmp_records hlen (by omega : h - 1 < nel) hleft,
        callCmp_records hlen (by omega : h - 1 - leo k < nel) hleft, hchildRight, hchildLeft]
      refine congrArg some (decide_eq_decide.mpr ?_)
      rw [Stops, ChildrenLt, ← not_or, not_not]
      exact ⟨fun h => inr (inr ⟨htrusty, h⟩),
        fun h => ((h.resolve_left hks).resolve_left h1).2⟩
    · rw [if_neg (fun h => htrusty h.1)]
      refine congrArg some (decide_eq_false ?_).symm
      rintro (hnil | hle | ⟨hfalse, -⟩)
      · exact hks hnil
      · exact h1 hle
      · exact htrusty hfalse

/-- The loop of `qsort_trinkle` walks the climb over the roots. -/
theorem trinkleLoop_climb (hp₀ : p₀ < nel) (rounds : Nat) (p : QsortP) (trusty : Bool) (walk : Walk) (init : List Nat)
    (hspan : leo k + span ks ≤ h + 1) (hnel : h < nel) (hshape : Shape k ks) (hp : Shows p k (k :: ks))
    (hrounds : ks.length < rounds) (hat : walk.At width init h k) (hhead : (init ++ [h]).head? = some p₀)
    (hroom : init.length + ks.length + 1 < arLen) {c : Climb}
    (hc : climb (recordLe width cmp) (recordOf width bytes) (recordOf width bytes p₀) trusty k ks h = c) :
    ∃ walk' init', trinkleLoop width cmp lp bytes rounds p trusty walk = some (c.trusty, walk') ∧
      walk'.At width init' c.root c.order ∧ init' ++ [c.root] = init ++ c.path := by
  subst hc
  induction rounds generalizing k h ks p trusty walk init with
  | zero => omega
  | succ rounds ih =>
    rw [trinkleLoop]
    cases ks with
    | nil =>
      -- `p` is the bitmap of one tree
      rw [if_neg (fun hne => (hp.ne_one_iff hshape).mp hne rfl)]
      exact ⟨walk, init, rfl, hat, rfl⟩
    | cons k' ks =>
      rw [if_pos ((hp.ne_one_iff hshape).mpr (List.cons_ne_nil k' ks)), hat.pshift, hat.head, hs.qsortWord (by omega)]
      simp only [bind_eq_bind, bind_some]
      have hpos' := span_pos (List.cons_ne_nil k' ks)
      rw [subOffset_mul width (by omega : leo k ≤ h), bind_some,
        trinkleBreaks_iff hs hlen trusty (List.cons_ne_nil k' ks) hspan hnel hp₀ hat hhead,
        bind_some, climb]
      by_cases hstop : Stops (recordLe width cmp) (recordOf width bytes)
        (recordOf width bytes p₀) trusty k (k' :: ks) h
      · rw [if_pos hstop, if_pos (decide_eq_true hstop)]
        exact ⟨walk, init, rfl, hat, rfl⟩
      · rw [if_neg hstop, if_neg (by rw [decide_eq_true_eq]; exact hstop)]
        rw [span] at hspan
        have hk' := hs.order_lt (by omega : leo k' ≤ nel)
        have hlt := hshape.next k' rfl
        have htrail : (k : Int) + (qsortPntz p : Nat) = (k' : Int) := by
          rw [hp.pntz hshape]
          omega
        have hshort : (init ++ [h]).length < arLen := by
          rw [List.length_append, List.length_singleton]
          omega
        obtain ⟨walk₁, hpush, hat₁⟩ := hat.push hshort (h - leo k) k'
        have hhead₁ : (init ++ [h] ++ [h - leo k]).head? = some p₀ := by
          rw [List.head?_append, hhead]
          rfl
        have hroom₁ : (init ++ [h]).length + ks.length + 1 < arLen := by
          rw [List.length_cons] at hroom
          rw [List.length_append, List.length_singleton]
          omega
        obtain ⟨walk₂, init₂, hrun, hat₂, hpath⟩ := ih (k := k') (h := h - leo k)
          (qsortShr p (qsortPntz p)) false walk₁ (init ++ [h]) (by omega) (by omega) hshape.pop
          (hp.pop hshape (by omega)) (lt_of_succ_lt_succ hrounds) hat₁ hhead₁ hroom₁
        rw [htrail, hpush, bind_some]
        refine ⟨walk₂, init₂, hrun, hat₂, ?_⟩
        rw [hpath, List.append_assoc]
        rfl

/-- **`qsort_trinkle`** trinkles the last root of a row of trees that `p` shows. -/
theorem qsortTrinkle_trinkles {p : QsortP} (trusty : Bool) (hspan : leo k + span ks ≤ h + 1) (hnel : h < nel)
    (hshape : Shape k ks) (hp : Shows p k (k :: ks)) :
    ∃ bytes', qsortTrinkle width cmp lp (h * width) p k trusty bytes = some bytes' ∧
      bytes'.length = nel * width ∧ recordOf width bytes' =
        trinkleAt (recordLe width cmp) (recordOf width bytes) trusty (k :: ks) h := by
  have horders : ∀ j ∈ k :: ks, j < 96 := by
    intro j hj
    have hle := leo_le_span hj
    rw [span] at hle
    exact hs.order_lt (by omega)
  have hcount := hshape.length_lt horders
  set a := recordOf width bytes with ha
  set c := climb (recordLe width cmp) a (a h) trusty k ks h with hc
  have hinside : c.Inside h ks := climb_inside _ a (a h) trusty k ks h hspan
  obtain ⟨init₀, hlast⟩ : ∃ init, c.path = init ++ [c.root] :=
    climb_last _ a (a h) trusty k ks h
  obtain ⟨path, hcons⟩ := hinside.head
  obtain ⟨walk, hstart, hat⟩ := walk_start width h k
  obtain ⟨walk', init, hrun, hat', hpath⟩ := trinkleLoop_climb hs hlen hnel 129 p trusty walk [] hspan
    hnel hshape hp (by omega) hat rfl (by rw [List.length_nil, arLen]; omega) hc.symm
  rw [trinkleAt, trinkle_eq_climb _ a (a h) trusty k ks h hspan hc.symm]
  simp only [qsortTrinkle, hstart, hrun, bind_eq_bind, bind_some]
  cases htrusty : c.trusty with
  | true => exact ⟨bytes, rfl, hlen, (update_eq_self h a).symm⟩
  | false =>
    have hnodup := hinside.nodup
    have hle := hinside.le
    have hlength := hinside.length
    have hroot := hinside.root
    rw [List.nil_append, hcons] at hpath
    rw [hcons] at hnodup hle hlength
    obtain ⟨bytes₁, hcycle, hlen₁, hrecords₁⟩ := hat'.cycle hpath hs.pos hlen hnodup
      (fun q hq => by have := hle q hq; omega) (by rw [arLen]; omega)
    obtain ⟨bytes₂, hsift, hlen₂, hrecords₂⟩ :=
      qsortSift_sifts hs hlen₁ hroot.1 (by omega : c.root < nel)
    refine ⟨bytes₂, ?_, hlen₂, ?_⟩
    · rw [if_neg Bool.false_ne_true, hcycle, bind_some, hat'.head, hat'.pshift, hsift]
    · -- the record that is moved is now at the root where the climb ended
      have hx : place a c.path (a h) c.root = a h := by
        have := hinside.nodup
        rw [hlast] at this ⊢
        exact place_last this
      rw [if_neg Bool.false_ne_true, hrecords₂, hrecords₁, siftAt, ← hcons, hx]

end Walks

end Crabc.Libc
