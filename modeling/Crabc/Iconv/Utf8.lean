/-
  Crabc.Iconv.Utf8

  The UTF-8 decoder and encoder of `crabc-core/src/iconv.rs` are inverse on the
  Unicode scalar values: `decodeUtf8` accepts exactly the encodings of scalars,
  and reads back the scalar it was given.
-/

import Crabc.Lib.Byte
import Crabc.Iconv.Codec

namespace Crabc.Iconv

open UInt8

/-- The Unicode scalar values: code points that are not surrogates. -/
def Scalar (c : Nat) : Prop := c < 0xd800 ∨ (0xe000 ≤ c ∧ c ≤ 0x10ffff)

instance (c : Nat) : Decidable (Scalar c) := inferInstanceAs (Decidable (_ ∨ _))

/-! ## Bytes as numbers -/

variable {n : Nat}

theorem toNat_lowByte : (lowByte n).toNat = n % 256 := toNat_ofNat'

variable {b : UInt8} {c : Nat} {u s : List UInt8}

theorem lowByte_eq (h : n = b.toNat) : lowByte n = b := by
  rw [h]; exact UInt8.ofNat_toNat

open Nat

/-- Filling the empty low bits of a marker adds the payload. -/
theorem or_lowByte {mark : UInt8} {m i x : Nat} (hm : mark.toNat = m <<< i)
    (hx : x < 2 ^ i) (hlt : m <<< i + x < 256) : mark ||| lowByte x = lowByte (m <<< i + x) := by
  have hx256 : x % 256 = x := mod_eq_of_lt (by omega)
  rw [← UInt8.toNat_inj, UInt8.toNat_or, toNat_lowByte, toNat_lowByte, hm, hx256,
    ← shiftLeft_add_eq_or_of_lt hx, mod_eq_of_lt hlt]

theorem and_3f : n &&& 0x3f = n % 64 := and_two_pow_sub_one_eq_mod n 6

theorem utf8Push_eq (c : Nat) : utf8Push c b = c * 64 + b.toNat % 64 := by
  have hmask : (b &&& 0x3f).toNat = b.toNat % 64 := by exact and_3f
  have hlt : b.toNat % 64 < 2 ^ 6 := mod_lt _ (by decide)
  rw [utf8Push, hmask, ← shiftLeft_add_eq_or_of_lt hlt, shiftLeft_eq,
    show 2 ^ 6 = 64 from rfl]

/-- A byte of the form `10xxxxxx`. -/
def Continuation (b : UInt8) : Prop := 0x80 ≤ b.toNat ∧ b.toNat ≤ 0xbf

instance (b : UInt8) : Decidable (Continuation b) := inferInstanceAs (Decidable (_ ∧ _))

theorem and_c0_bne (b : UInt8) : (b &&& 0xc0 != 0x80) = !decide (Continuation b) := by
  revert b
  exact Lib.forall_byte (by decide +kernel)

/-! ## The lead byte -/

/-- The smallest second byte after a lead byte. -/
def utf8MinSecond (n : Nat) : UInt8 := if n = 0xe0 then 0xa0 else if n = 0xf0 then 0x90 else 0x80

/-- The largest second byte after a lead byte. -/
def utf8MaxSecond (n : Nat) : UInt8 := if n = 0xed then 0x9f else if n = 0xf4 then 0x8f else 0xbf

/-- The length of the sequence a lead byte starts. -/
def utf8Length (n : Nat) : Nat := if n < 0xe0 then 2 else if n < 0xf0 then 3 else 4

/-- The marker bits of a lead byte. -/
def utf8Mark (n : Nat) : Nat := if n < 0xe0 then 0xc0 else if n < 0xf0 then 0xe0 else 0xf0

/-- The rows of the lead-byte table by one rule. -/
theorem utf8Lead_eq (b : UInt8) : utf8Lead b =
      if 0xc2 ≤ b.toNat ∧ b.toNat ≤ 0xf4 then
        some (utf8Length b.toNat, utf8MinSecond b.toNat, utf8MaxSecond b.toNat, b.toNat - utf8Mark b.toNat)
      else none := by
  revert b
  exact Lib.forall_byte (by decide +kernel)

/-- The bytes after the lead byte `b` may continue its sequence. -/
def utf8Tail (b : UInt8) : List UInt8 → Bool
  | [] => true
  | b1 :: rest =>
    decide (utf8MinSecond b.toNat ≤ b1 ∧ b1 ≤ utf8MaxSecond b.toNat) &&
      rest.all fun byte => decide (Continuation byte)

open List

theorem utf8Tail_of_append {v : List UInt8} (h : utf8Tail b (u ++ v) = true) : utf8Tail b u = true := by
  cases u with
  | nil => rfl
  | cons b1 u =>
    simp only [utf8Tail, cons_append, all_append, Bool.and_eq_true] at h ⊢
    exact ⟨h.1, h.2.1⟩

/-- The two scans of the source reject exactly the tails that cannot continue. -/
theorem utf8Tail_eq_scans (tail : List UInt8) : (!(tail.head?.any fun second =>
          second < utf8MinSecond b.toNat || second > utf8MaxSecond b.toNat) &&
        !((tail.drop 1).any fun byte => byte &&& 0xc0 != 0x80)) = utf8Tail b tail := by
  cases tail with
  | nil => rfl
  | cons b1 rest =>
    simp only [head?_cons, Option.any_some, drop_one, tail_cons, and_c0_bne,
      utf8Tail, not_any_eq_all_not, Decidable.not_not, Bool.not_or, ← decide_not, gt_iff_lt,
      UInt8.not_lt, Bool.decide_and]

/-! ## Decoding by the lead byte -/

theorem not_lt_80 (h : 0x80 ≤ b.toNat) : ¬ b < 0x80 := by
  rw [lt_iff_toNat_lt]; simp only [reduceToNat]; omega

theorem decodeUtf8_one (h : b.toNat < 0x80) {t : List UInt8} : decodeUtf8 (b :: t) = .ok (b.toNat, 1) := by
  rw [decodeUtf8, if_pos]
  simpa only [lt_iff_toNat_lt, reduceToNat] using h

theorem decodeUtf8_bad (h : 0x80 ≤ b.toNat) (hlead : ¬ (0xc2 ≤ b.toNat ∧ b.toNat ≤ 0xf4)) {t : List UInt8} :
    decodeUtf8 (b :: t) = .error .invalid := by
  rw [decodeUtf8, if_neg (not_lt_80 h), utf8Lead_eq, if_neg hlead]

/-- Past the ASCII range the lead byte's row of the table decides. -/
theorem decodeUtf8_multi (h : 0xc2 ≤ b.toNat ∧ b.toNat ≤ 0xf4) {rest : List UInt8} : decodeUtf8 (b :: rest) =
      if utf8Tail b (rest.take (utf8Length b.toNat - 1)) then
        if rest.length + 1 < utf8Length b.toNat then .error .incomplete
        else .ok ((rest.take (utf8Length b.toNat - 1)).foldl utf8Push (b.toNat - utf8Mark b.toNat), utf8Length b.toNat)
      else .error .invalid := by
  rw [decodeUtf8, if_neg (not_lt_80 (by omega)), utf8Lead_eq, if_pos h, ← utf8Tail_eq_scans]
  dsimp only
  cases ((rest.take (utf8Length b.toNat - 1)).head?.any fun second =>
    second < utf8MinSecond b.toNat || second > utf8MaxSecond b.toNat) with
  | true => rfl
  | false =>
    cases (((rest.take (utf8Length b.toNat - 1)).drop 1).any fun byte =>
      byte &&& 0xc0 != 0x80) <;> rfl

/-! ## Encoding by the size of the scalar -/

theorem continuation_or : (0x80 : UInt8) ||| lowByte (n &&& 0x3f) = lowByte (0x80 + n % 64) := by
  rw [and_3f]
  exact @or_lowByte 0x80 2 6 _ rfl (mod_lt _ (by decide)) (by omega)

theorem encodeUtf8_two (h : 0x80 ≤ c) (h' : c < 0x800) :
    encodeUtf8 c = [lowByte (0xc0 + c / 64), lowByte (0x80 + c % 64)] := by
  rw [encodeUtf8, if_neg (by omega), if_pos h', continuation_or, shiftRight_eq_div_pow,
    @or_lowByte 0xc0 6 5 _ rfl (by omega) (by omega)]
  rfl

theorem encodeUtf8_three (h : 0x800 ≤ c) (h' : c < 0x10000) : encodeUtf8 c =
      [lowByte (0xe0 + c / 4096), lowByte (0x80 + c / 64 % 64), lowByte (0x80 + c % 64)] := by
  rw [encodeUtf8, if_neg (by omega), if_neg (by omega), if_pos h', continuation_or,
    continuation_or, shiftRight_eq_div_pow, shiftRight_eq_div_pow,
    @or_lowByte 0xe0 14 4 _ rfl (by omega) (by omega)]
  rfl

theorem encodeUtf8_four (h : 0x10000 ≤ c) (h' : c ≤ 0x10ffff) : encodeUtf8 c =
      [lowByte (0xf0 + c / 262144), lowByte (0x80 + c / 4096 % 64), lowByte (0x80 + c / 64 % 64),
        lowByte (0x80 + c % 64)] := by
  rw [encodeUtf8, if_neg (by omega), if_neg (by omega), if_neg (by omega), continuation_or,
    continuation_or, continuation_or, shiftRight_eq_div_pow, shiftRight_eq_div_pow,
    shiftRight_eq_div_pow, @or_lowByte 0xf0 30 3 _ rfl (by omega) (by omega)]
  rfl

/-! ## Decoding inverts encoding -/

theorem toNat_utf8MinSecond : (utf8MinSecond n).toNat = if n = 0xe0 then 0xa0 else if n = 0xf0 then 0x90 else 0x80 := by
  rw [utf8MinSecond]; split_ifs <;> rfl

theorem toNat_utf8MaxSecond : (utf8MaxSecond n).toNat = if n = 0xed then 0x9f else if n = 0xf4 then 0x8f else 0xbf := by
  rw [utf8MaxSecond]; split_ifs <;> rfl

theorem utf8Tail_cons {b1 : UInt8} {rest : List UInt8} : utf8Tail b (b1 :: rest) = true ↔
      (0x80 ≤ b1.toNat ∧ b1.toNat ≤ 0xbf ∧ (b.toNat = 0xe0 → 0xa0 ≤ b1.toNat) ∧ (b.toNat = 0xf0 → 0x90 ≤ b1.toNat) ∧
        (b.toNat = 0xed → b1.toNat ≤ 0x9f) ∧ (b.toNat = 0xf4 → b1.toNat ≤ 0x8f)) ∧ ∀ x ∈ rest, Continuation x := by
  simp only [utf8Tail, Bool.and_eq_true, decide_eq_true_eq, all_eq_true, le_iff_toNat_le,
    toNat_utf8MinSecond, toNat_utf8MaxSecond]
  refine and_congr_left fun _ => ?_
  split_ifs <;> omega

/-- Two bytes are accepted only as the encoding of their scalar. -/
theorem encodeUtf8_push_two {b0 b1 : UInt8} (h0 : 0xc2 ≤ b0.toNat ∧ b0.toNat < 0xe0)
    (ht : utf8Tail b0 [b1] = true) : Scalar (utf8Push (b0.toNat - 0xc0) b1) ∧
      encodeUtf8 (utf8Push (b0.toNat - 0xc0) b1) = [b0, b1] := by
  obtain ⟨hb, -⟩ := utf8Tail_cons.mp ht
  rw [utf8Push_eq]
  refine ⟨Or.inl (by omega), ?_⟩
  rw [encodeUtf8_two (by omega) (by omega), lowByte_eq (b := b0) (by omega), lowByte_eq (b := b1) (by omega)]

/-- Three bytes are accepted only as the encoding of their scalar. -/
theorem encodeUtf8_push_three {b0 b1 b2 : UInt8} (h0 : 0xe0 ≤ b0.toNat ∧ b0.toNat < 0xf0)
    (ht : utf8Tail b0 [b1, b2] = true) : Scalar (utf8Push (utf8Push (b0.toNat - 0xe0) b1) b2) ∧
      encodeUtf8 (utf8Push (utf8Push (b0.toNat - 0xe0) b1) b2) = [b0, b1, b2] := by
  obtain ⟨hb, hrest⟩ := utf8Tail_cons.mp ht
  obtain ⟨h2, h2'⟩ := hrest b2 (by simp)
  rw [utf8Push_eq, utf8Push_eq]
  refine ⟨?_, ?_⟩
  · unfold Scalar; omega
  · rw [encodeUtf8_three (by omega) (by omega), lowByte_eq (b := b0) (by omega),
      lowByte_eq (b := b1) (by omega), lowByte_eq (b := b2) (by omega)]

/-- Four bytes are accepted only as the encoding of their scalar. -/
theorem encodeUtf8_push_four {b0 b1 b2 b3 : UInt8} (h0 : 0xf0 ≤ b0.toNat ∧ b0.toNat ≤ 0xf4)
    (ht : utf8Tail b0 [b1, b2, b3] = true) :
    Scalar (utf8Push (utf8Push (utf8Push (b0.toNat - 0xf0) b1) b2) b3) ∧
      encodeUtf8 (utf8Push (utf8Push (utf8Push (b0.toNat - 0xf0) b1) b2) b3) = [b0, b1, b2, b3] := by
  obtain ⟨hb, hrest⟩ := utf8Tail_cons.mp ht
  obtain ⟨h2, h2'⟩ := hrest b2 (by simp)
  obtain ⟨h3, h3'⟩ := hrest b3 (by simp)
  rw [utf8Push_eq, utf8Push_eq, utf8Push_eq]
  refine ⟨?_, ?_⟩
  · unfold Scalar; omega
  · rw [encodeUtf8_four (by omega) (by omega), lowByte_eq (b := b0) (by omega),
      lowByte_eq (b := b1) (by omega), lowByte_eq (b := b2) (by omega),
      lowByte_eq (b := b3) (by omega)]

/-- What `decodeUtf8` accepts is the encoding of a scalar. -/
theorem decodeUtf8_ok (h : decodeUtf8 s = .ok (c, n)) : Scalar c ∧ encodeUtf8 c = s.take n ∧ 0 < n ∧ n ≤ s.length := by
  cases s with
  | nil => simp [decodeUtf8] at h
  | cons b0 rest =>
    by_cases h80 : b0.toNat < 0x80
    · rw [decodeUtf8_one h80, Except.ok.injEq, Prod.mk.injEq] at h
      obtain ⟨rfl, rfl⟩ := h
      refine ⟨Or.inl (by omega), ?_, by omega, by simp⟩
      rw [encodeUtf8, if_pos h80, lowByte_eq rfl]; rfl
    by_cases hlead : 0xc2 ≤ b0.toNat ∧ b0.toNat ≤ 0xf4
    swap
    · rw [decodeUtf8_bad (by omega) hlead] at h; cases h
    rw [decodeUtf8_multi hlead] at h
    split_ifs at h with htail hlen
    obtain ⟨rfl, rfl⟩ := h
    -- the class of the lead byte fixes how many bytes follow
    have hclass : (b0.toNat < 0xe0) ∨ (0xe0 ≤ b0.toNat ∧ b0.toNat < 0xf0) ∨ 0xf0 ≤ b0.toNat := by omega
    rcases hclass with hb | hb | hb
    · rw [show utf8Length b0.toNat = 2 from if_pos hb] at htail hlen ⊢
      rw [show utf8Mark b0.toNat = 0xc0 from if_pos hb]
      match rest, hlen with
      | b1 :: t, _ =>
        obtain ⟨hs, he⟩ := encodeUtf8_push_two ⟨hlead.1, hb⟩ htail
        exact ⟨hs, he, by omega, by simp⟩
    · rw [show utf8Length b0.toNat = 3 by rw [utf8Length, if_neg (by omega), if_pos hb.2]]
        at htail hlen ⊢
      rw [show utf8Mark b0.toNat = 0xe0 by rw [utf8Mark, if_neg (by omega), if_pos hb.2]]
      match rest, hlen with
      | b1 :: b2 :: t, _ =>
        obtain ⟨hs, he⟩ := encodeUtf8_push_three hb htail
        exact ⟨hs, he, by omega, by simp⟩
      | [b1], hlen => simp at hlen
    · rw [show utf8Length b0.toNat = 4 by rw [utf8Length, if_neg (by omega), if_neg (by omega)]]
        at htail hlen ⊢
      rw [show utf8Mark b0.toNat = 0xf0 by rw [utf8Mark, if_neg (by omega), if_neg (by omega)]]
      match rest, hlen with
      | b1 :: b2 :: b3 :: t, _ =>
        obtain ⟨hs, he⟩ := encodeUtf8_push_four ⟨hb, hlead.2⟩ htail
        exact ⟨hs, he, by omega, by simp⟩
      | [b1, b2], hlen => simp at hlen
      | [b1], hlen => simp at hlen

theorem toNat_lowByte_of_lt (h : n < 256) : (lowByte n).toNat = n := by
  rw [toNat_lowByte, mod_eq_of_lt h]

theorem continuation_lowByte : Continuation (lowByte (0x80 + n % 64)) := by
  rw [Continuation, toNat_lowByte_of_lt (by omega)]; omega

/-- A lead byte followed by enough bytes that continue it is decoded. -/
theorem decodeUtf8_multi_ok {b0 : UInt8}
    (h : 0xc2 ≤ b0.toNat ∧ b0.toNat ≤ 0xf4) (hu : u.length + 1 = utf8Length b0.toNat)
    (htail : utf8Tail b0 u = true) (t : List UInt8) : decodeUtf8 (b0 :: u ++ t) =
      .ok (u.foldl utf8Push (b0.toNat - utf8Mark b0.toNat), u.length + 1) := by
  have htake : (u ++ t).take (utf8Length b0.toNat - 1) = u := by rw [← hu]; exact take_left
  rw [cons_append, decodeUtf8_multi h, htake, if_pos htail, if_neg, hu]
  rw [length_append]; omega

/-- Every scalar is decoded from its encoding, whatever follows. -/
theorem decodeUtf8_encodeUtf8 (h : Scalar c) (t : List UInt8) :
    decodeUtf8 (encodeUtf8 c ++ t) = .ok (c, (encodeUtf8 c).length) := by
  unfold Scalar at h
  by_cases h1 : c < 0x80
  · rw [encodeUtf8, if_pos h1, singleton_append,
      decodeUtf8_one (by rw [toNat_lowByte]; omega), toNat_lowByte_of_lt (by omega)]
    rfl
  by_cases h2 : c < 0x800
  · rw [encodeUtf8_two (by omega) h2, decodeUtf8_multi_ok (by rw [toNat_lowByte]; omega)
      (by rw [utf8Length, toNat_lowByte, if_pos (by omega)]; rfl)]
    · simp only [foldl_cons, foldl_nil, utf8Push_eq, toNat_lowByte, utf8Mark, length_cons, length_nil]
      rw [if_pos (by omega)]
      congr 2; omega
    · rw [utf8Tail_cons, toNat_lowByte, toNat_lowByte]
      exact ⟨by omega, by simp⟩
  by_cases h3 : c < 0x10000
  · rw [encodeUtf8_three (by omega) h3, decodeUtf8_multi_ok (by rw [toNat_lowByte]; omega)
      (by rw [utf8Length, toNat_lowByte, if_neg (by omega), if_pos (by omega)]; rfl)]
    · simp only [foldl_cons, foldl_nil, utf8Push_eq, toNat_lowByte, utf8Mark, length_cons, length_nil]
      rw [if_neg (by omega), if_pos (by omega)]
      congr 2; omega
    · rw [utf8Tail_cons, toNat_lowByte, toNat_lowByte]
      exact ⟨by omega, by simp [continuation_lowByte]⟩
  · rw [encodeUtf8_four (by omega) (by omega), decodeUtf8_multi_ok (by rw [toNat_lowByte]; omega)
      (by rw [utf8Length, toNat_lowByte, if_neg (by omega), if_neg (by omega)]; rfl)]
    · simp only [foldl_cons, foldl_nil, utf8Push_eq, toNat_lowByte, utf8Mark, length_cons, length_nil]
      rw [if_neg (by omega), if_neg (by omega)]
      congr 2; omega
    · rw [utf8Tail_cons, toNat_lowByte, toNat_lowByte]
      exact ⟨by omega, by simp [continuation_lowByte]⟩

/-- A rejected sequence stays rejected when bytes follow it. -/
theorem decodeUtf8_invalid_append (h : decodeUtf8 s = .error .invalid)
    (t : List UInt8) : decodeUtf8 (s ++ t) = .error .invalid := by
  cases s with
  | nil => simp [decodeUtf8] at h
  | cons b0 rest =>
    by_cases h80 : b0.toNat < 0x80
    · rw [decodeUtf8_one h80] at h; cases h
    by_cases hlead : 0xc2 ≤ b0.toNat ∧ b0.toNat ≤ 0xf4
    · rw [decodeUtf8_multi hlead] at h
      split_ifs at h with htail hlen
      · cases h
      · rw [cons_append, decodeUtf8_multi hlead, if_neg]
        intro hlong
        rw [take_append] at hlong
        exact htail (utf8Tail_of_append hlong)
    · rw [cons_append, decodeUtf8_bad (by omega) hlead]

/-! ## The three answers -/

/-- The shortest form of a scalar in UTF-8. -/
def shortestForm (c : Nat) : List UInt8 :=
  if c < 0x80 then [lowByte c]
  else if c < 0x800 then [lowByte (0xc0 + c / 64), lowByte (0x80 + c % 64)]
  else if c < 0x10000 then
    [lowByte (0xe0 + c / 4096), lowByte (0x80 + c / 64 % 64), lowByte (0x80 + c % 64)]
  else
    [lowByte (0xf0 + c / 262144), lowByte (0x80 + c / 4096 % 64), lowByte (0x80 + c / 64 % 64), lowByte (0x80 + c % 64)]

theorem encodeUtf8_eq_shortestForm (h : Scalar c) : encodeUtf8 c = shortestForm c := by
  unfold Scalar at h
  unfold shortestForm
  split_ifs with h1 h2 h3
  · rw [encodeUtf8, if_pos h1]
  · exact encodeUtf8_two (by omega) h2
  · exact encodeUtf8_three (by omega) h3
  · exact encodeUtf8_four (by omega) (by omega)

/-- Every tail that may continue a lead byte and is too short can be completed. -/
theorem utf8Tail_complete (h : utf8Tail b u = true) (hshort : u.length + 1 < utf8Length b.toNat) :
    ∃ v, utf8Tail b (u ++ v) = true ∧ (u ++ v).length + 1 = utf8Length b.toNat := by
  have h80 : Continuation 0x80 := by decide
  cases u with
  | nil =>
    refine ⟨utf8MinSecond b.toNat :: replicate (utf8Length b.toNat - 2) 0x80, ?_, ?_⟩
    · rw [nil_append, utf8Tail_cons, toNat_utf8MinSecond]
      exact ⟨by split_ifs <;> omega, fun x hx => eq_of_mem_replicate hx ▸ h80⟩
    · simp only [length_nil, nil_append, length_cons, length_replicate] at hshort ⊢
      omega
  | cons b1 rest =>
    refine ⟨replicate (utf8Length b.toNat - 1 - (b1 :: rest).length) 0x80, ?_, ?_⟩
    · rw [cons_append, utf8Tail_cons]
      obtain ⟨hb1, hrest⟩ := utf8Tail_cons.mp h
      refine ⟨hb1, fun x hx => ?_⟩
      rcases mem_append.mp hx with hx | hx
      · exact hrest x hx
      · exact eq_of_mem_replicate hx ▸ h80
    · rw [length_append, length_replicate]
      omega

/-- What `decodeUtf8` calls incomplete begins the form of a scalar. -/
theorem shortestForm_of_incomplete (h : decodeUtf8 s = .error .incomplete) :
    ∃ c, Scalar c ∧ s <+: shortestForm c ∧ s ≠ shortestForm c := by
  cases s with
  | nil => exact ⟨0, by decide, nil_prefix, by decide⟩
  | cons b0 rest =>
    by_cases h80 : b0.toNat < 0x80
    · rw [decodeUtf8_one h80] at h; cases h
    by_cases hlead : 0xc2 ≤ b0.toNat ∧ b0.toNat ≤ 0xf4
    swap
    · rw [decodeUtf8_bad (by omega) hlead] at h; cases h
    rw [decodeUtf8_multi hlead] at h
    split_ifs at h with htail hlen
    swap
    · cases h
    rw [take_of_length_le (by omega)] at htail
    obtain ⟨v, hcomplete, hlength⟩ := utf8Tail_complete htail hlen
    have hok := decodeUtf8_multi_ok hlead hlength hcomplete []
    obtain ⟨hscalar, hform, -, -⟩ := decodeUtf8_ok hok
    rw [encodeUtf8_eq_shortestForm hscalar, append_nil, ← length_cons, take_length, ← cons_append] at hform
    refine ⟨_, hscalar, hform ▸ prefix_append _ v, fun heq => ?_⟩
    have := congrArg List.length (heq.trans hform)
    simp only [length_append, length_cons] at this hlength
    omega

/-- **UTF-8.**  `decode_utf8` answers with a scalar and a length exactly where its shortest form is that
    many first bytes, it calls incomplete exactly the proper beginnings of such forms, and invalid all else. -/
theorem decodeUtf8_answers (s : List UInt8) :
    (∀ c n, decodeUtf8 s = .ok (c, n) ↔ Scalar c ∧ n ≤ s.length ∧ s.take n = shortestForm c) ∧
    (decodeUtf8 s = .error .incomplete ↔ ∃ c, Scalar c ∧ s <+: shortestForm c ∧ s ≠ shortestForm c) ∧
    (decodeUtf8 s = .error .invalid ↔ ∀ c, Scalar c → ¬ shortestForm c <+: s ∧ ¬ s <+: shortestForm c) := by
  have hok (c : Nat) (hc : Scalar c) (t : List UInt8) :
      decodeUtf8 (shortestForm c ++ t) = .ok (c, (shortestForm c).length) :=
    encodeUtf8_eq_shortestForm hc ▸ decodeUtf8_encodeUtf8 hc t
  have hincomplete {c : Nat} (hc : Scalar c) (hs : s <+: shortestForm c) (hne : s ≠ shortestForm c) :
      decodeUtf8 s = .error .incomplete := by
    obtain ⟨t, ht⟩ := hs
    have hwhole := hok c hc []
    rw [append_nil, ← ht] at hwhole
    rcases hres : decodeUtf8 s with (_ | _) | ⟨c', n⟩
    · rfl
    · rw [decodeUtf8_invalid_append hres t] at hwhole
      cases hwhole
    · -- an accepted part of the form would end it early
      obtain ⟨hc', hform, -, hle⟩ := decodeUtf8_ok hres
      have hpart := hok c' hc' (s.drop n ++ t)
      rw [← encodeUtf8_eq_shortestForm hc', hform, ← append_assoc, take_append_drop, hwhole] at hpart
      simp only [Except.ok.injEq, Prod.mk.injEq, length_append, length_take] at hpart
      have hnil : t = [] := length_eq_zero_iff.mp (by omega)
      rw [hnil, append_nil] at ht
      exact absurd ht hne
  refine ⟨fun c n => ⟨fun h => ?_, fun ⟨hc, hle, hform⟩ => ?_⟩,
    ⟨shortestForm_of_incomplete, fun ⟨c, hc, hs, hne⟩ => hincomplete hc hs hne⟩, ⟨fun h c hc => ⟨?_, fun hs => ?_⟩, fun h => ?_⟩⟩
  · obtain ⟨hc, hform, -, hle⟩ := decodeUtf8_ok h
    exact ⟨hc, hle, encodeUtf8_eq_shortestForm hc ▸ hform.symm⟩
  · have hres := hok c hc (s.drop n)
    rwa [← hform, take_append_drop, length_take, Nat.min_eq_left hle] at hres
  · rintro ⟨t, rfl⟩
    rw [hok c hc t] at h
    cases h
  · by_cases heq : s = shortestForm c
    · have hres := hok c hc []
      rw [append_nil, ← heq, h] at hres
      cases hres
    · rw [hincomplete hc hs heq] at h
      cases h
  · rcases hres : decodeUtf8 s with (_ | _) | ⟨c, n⟩
    · obtain ⟨c, hc, hs, -⟩ := shortestForm_of_incomplete hres
      exact absurd hs (h c hc).2
    · rfl
    · obtain ⟨hc, hform, -, -⟩ := decodeUtf8_ok hres
      exact absurd (encodeUtf8_eq_shortestForm hc ▸ hform ▸ take_prefix n s) (h c hc).1

end Crabc.Iconv
