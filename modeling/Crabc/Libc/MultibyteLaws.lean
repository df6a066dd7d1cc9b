/-
  Crabc.Libc.MultibyteLaws

  The restartable decoder against the one-shot one.  The state word of `mbrtowc` is read
  as the payload of an unfinished character, the bytes to come and the test of the next
  one; so a call tells what `decode_utf8` tells of the bytes since the last character,
  and a string cut into calls in any way is decoded as in one piece.
-/

import Crabc.Iconv.Utf8
import Crabc.Libc.Multibyte

namespace Crabc.Libc
open Crabc.Lib Crabc.Iconv DecodeOutcome

open UInt32 (lt_iff_toNat_lt ofNat toNat toNat_and toNat_inj toNat_ofNat')

/-! ## The state word -/

variable {state : UInt32}

open Nat

/-- The six upper bits of a word with the sign bit, shifted down with the sign. -/
theorem toUInt32_sar26 {top : Nat} (h : state.toNat / 2 ^ 26 = top) (hsign : 32 ≤ top) :
    (state.toInt32 >>> (26 : Int32)).toUInt32 = ofNat (2 ^ 32 - 64 + top) := by
  have hlt : state.toNat < 2 ^ 32 := state.toNat_lt
  have hmsb : state.toBitVec.msb = true := by
    rw [BitVec.msb_eq_decide, decide_eq_true_eq]
    show 2 ^ 31 ≤ state.toNat
    omega
  rw [← toNat_inj, toNat_ofNat']
  show ((state.toInt32 >>> (26 : Int32)).toBitVec).toNat = _
  show (state.toBitVec.sshiftRight 26).toNat = _
  rw [BitVec.toNat_sshiftRight_of_msb_true hmsb, shiftRight_eq_div_pow]
  show 2 ^ 32 - 1 - (2 ^ 32 - 1 - state.toNat) / 2 ^ 26 = _
  omega

/-- What `mb_oob` accepts is decided by those bits. -/
theorem mbOob_eq {top : Nat} (h : state.toNat / 2 ^ 26 = top) (hsign : 32 ≤ top) (byte : UInt8) : mbOob state byte =
      (((byte >>> 3).toUInt32 - (0x10 : UInt32)) |||
        ((byte >>> 3).toUInt32 + ofNat (2 ^ 32 - 64 + top))) &&& ~~~(7 : UInt32) := by
  rw [mbOob, toUInt32_sar26 h hsign]

/-- The upper bits of the row of a lead byte. -/
def leadTop (n : Nat) : Nat :=
  if n = 0xe0 then 44 else if n = 0xf0 then 46 else if n = 0xed then 52
  else if n = 0xf4 then 54 else 48

/-- The bits that keep the sign up while `remaining` more bytes are to come. -/
def midBits : Nat → Nat
  | 3 => 0x030c0000
  | 2 => 0x03000000
  | _ => 0

/-- The rows of `BITTAB` by one rule. -/
theorem bittab_row (b : UInt8) (h : 0xc2 ≤ b.toNat ∧ b.toNat ≤ 0xf4) : (bittab.getD (b - 0xc2).toNat 0).toNat =
      leadTop b.toNat * 2 ^ 26 + midBits (utf8Length b.toNat - 1) + (b.toNat - utf8Mark b.toNat) := by
  revert b
  exact forall_byte (by decide +kernel)

variable {n : Nat} {bytes : List UInt8}

/-- The first continuation byte is tested against the range of its lead byte. -/
theorem mbOob_lead (h : state.toNat / 2 ^ 26 = leadTop n) (b : UInt8) :
    (mbOob state b == 0) = decide (utf8MinSecond n ≤ b ∧ b ≤ utf8MaxSecond n) := by
  have hsign : 32 ≤ leadTop n := by unfold leadTop; split_ifs <;> decide
  rw [mbOob_eq h hsign]
  unfold leadTop utf8MinSecond utf8MaxSecond
  revert b
  split_ifs <;> subst_vars <;> first | omega | exact forall_byte (by decide +kernel)

theorem mbOob_plain (h : state.toNat / 2 ^ 26 = 48) (b : UInt8) : (mbOob state b == 0) = decide (Continuation b) := by
  rw [mbOob_eq h (by decide)]
  revert b
  exact forall_byte (by decide +kernel)

theorem plainRange (b : UInt8) : decide (b - 0x80 < 0x40) = decide (Continuation b) := by
  revert b
  exact forall_byte (by decide +kernel)

theorem toNat_sub_80 (b : UInt8) (h : Continuation b) : (b - 0x80).toUInt32.toNat = b.toNat % 64 := by
  revert b
  exact forall_byte (by decide +kernel)

variable {b : UInt8} {remaining : Nat}

theorem mbPush_word {top value : Nat} (h : state.toNat = top * 2 ^ 26 + midBits (remaining + 1) + value)
    (hrem : remaining < 3) (hvalue : value < 2 ^ 16) (hb : Continuation b) : (mbPush state b).toNat =
      (if remaining = 0 then 0 else 48 * 2 ^ 26 + midBits remaining) + utf8Push value b := by
  have hlow : b.toNat % 64 < 2 ^ 6 := mod_lt _ (by decide)
  -- the upper six bits fall out of the word
  have hshift : state.toNat <<< 6 % 2 ^ 32 = ((midBits (remaining + 1) + value) % 2 ^ 26) <<< 6 := by omega
  have hsum : (mbPush state b).toNat = (midBits (remaining + 1) + value) % 2 ^ 26 * 2 ^ 6 + b.toNat % 64 := by
    rw [mbPush, UInt32.toNat_or, UInt32.toNat_shiftLeft, toNat_sub_80 b hb,
      show (6 : UInt32).toNat % 32 = 6 from rfl, hshift, ← shiftLeft_add_eq_or_of_lt hlow,
      shiftLeft_eq]
  rw [hsum, utf8Push_eq]
  rcases (by omega : remaining = 0 ∨ remaining = 1 ∨ remaining = 2) with rfl | rfl | rfl
  · rw [if_pos rfl]; simp only [midBits]; omega
  all_goals rw [if_neg (by decide)]; simp only [midBits]; omega

/-! ## Unfinished characters -/

/-- `b0 :: tail` is the start of a character with more bytes to come. -/
structure Unfinished (b0 : UInt8) (tail : List UInt8) : Prop where
  lead : 0xc2 ≤ b0.toNat ∧ b0.toNat ≤ 0xf4
  continues : utf8Tail b0 tail = true
  short : tail.length + 1 < utf8Length b0.toNat

theorem utf8Length_le (n : Nat) : utf8Length n ≤ 4 := by
  unfold utf8Length; split_ifs <;> decide

variable {b0 : UInt8} {tail : List UInt8}

open List

/-- The unfinished characters are what the one-shot decoder calls incomplete. -/
theorem unfinished_of_incomplete (h : decodeUtf8 (b0 :: tail) = .error .incomplete) : Unfinished b0 tail := by
  by_cases h80 : b0.toNat < 0x80
  · rw [decodeUtf8_one h80] at h; cases h
  by_cases hlead : 0xc2 ≤ b0.toNat ∧ b0.toNat ≤ 0xf4
  · rw [decodeUtf8_multi hlead] at h
    split_ifs at h with htail hlen
    · rw [take_of_length_le (by omega)] at htail
      exact ⟨hlead, htail, hlen⟩
    · cases h
  · rw [decodeUtf8_bad (by omega) hlead] at h; cases h

theorem utf8Tail_snoc : utf8Tail b0 (tail ++ [b]) = (utf8Tail b0 tail &&
        if tail = [] then decide (utf8MinSecond b0.toNat ≤ b ∧ b ≤ utf8MaxSecond b0.toNat)
        else decide (Continuation b)) := by
  cases tail with
  | nil => simp [utf8Tail]
  | cons b1 rest => simp [utf8Tail, Bool.and_assoc]

/-- The state word behind the bytes `pending`. -/
def pendingState : List UInt8 → UInt32
  | [] => 0
  | b0 :: tail => tail.foldl mbPush (bittab.getD (b0 - 0xc2).toNat 0)

/-- The upper bits of that word. -/
def pendingTop (b0 : UInt8) (tail : List UInt8) : Nat := if tail = [] then leadTop b0.toNat else 48

theorem foldl_utf8Push_lt (value : Nat) : tail.foldl utf8Push value < (value + 1) * 64 ^ tail.length := by
  induction tail generalizing value with
  | nil => simp
  | cons b tail ih =>
    rw [foldl_cons, length_cons, pow_succ', ← mul_assoc]
    apply lt_of_lt_of_le (ih _)
    rw [utf8Push_eq]
    exact mul_le_mul_right _ (by omega)

theorem pendingState_snoc : pendingState (b0 :: (tail ++ [b])) = mbPush (pendingState (b0 :: tail)) b := by
  rw [pendingState, pendingState, foldl_append]
  rfl

theorem continuation_of_snoc (h : utf8Tail b0 (tail ++ [b]) = true) : Continuation b := by
  rw [utf8Tail_snoc, Bool.and_eq_true] at h
  obtain ⟨-, hb⟩ := h
  split_ifs at hb with hnil
  · rw [decide_eq_true_eq, UInt8.le_iff_toNat_le, UInt8.le_iff_toNat_le, toNat_utf8MinSecond, toNat_utf8MaxSecond] at hb
    unfold Continuation
    split_ifs at hb <;> omega
  · exact of_decide_eq_true hb

theorem pendingTop_bounds (b0 : UInt8) (tail : List UInt8) : 32 ≤ pendingTop b0 tail ∧ pendingTop b0 tail < 64 := by
  unfold pendingTop leadTop
  split_ifs <;> decide

section

variable (h : Unfinished b0 tail)
include h

theorem decodeUtf8_unfinished : decodeUtf8 (b0 :: tail) = .error .incomplete := by
  have hshort := h.short
  rw [decodeUtf8_multi h.lead, take_of_length_le (by omega), if_pos h.continues, if_pos hshort]

/-- A byte that cannot continue the character spoils it. -/
theorem decodeUtf8_unfinished_bad (hb : utf8Tail b0 (tail ++ [b]) = false) (rest : List UInt8) :
    decodeUtf8 (b0 :: tail ++ b :: rest) = .error .invalid := by
  rw [cons_append, decodeUtf8_multi h.lead, if_neg]
  intro htail
  have hshort := h.short
  -- the bytes the decoder takes go past `b`
  have htake : (tail ++ b :: rest).take (utf8Length b0.toNat - 1) =
      (tail ++ [b]) ++ rest.take (utf8Length b0.toNat - 1 - (tail.length + 1)) := by
    rw [show tail ++ b :: rest = (tail ++ [b]) ++ rest by simp, take_append, take_of_length_le (by simp; omega)]
    simp
  rw [htake] at htail
  rw [utf8Tail_of_append htail] at hb
  cases hb

/-- The byte that finishes the character. -/
theorem decodeUtf8_unfinished_last (hb : utf8Tail b0 (tail ++ [b]) = true)
    (hlast : tail.length + 2 = utf8Length b0.toNat) (rest : List UInt8) : decodeUtf8 (b0 :: tail ++ b :: rest) =
      .ok (utf8Push (tail.foldl utf8Push (b0.toNat - utf8Mark b0.toNat)) b, tail.length + 2) := by
  have hok := decodeUtf8_multi_ok h.lead (by rw [length_append]; exact hlast) hb rest
  rw [foldl_append, length_append] at hok
  rw [show b0 :: tail ++ b :: rest = b0 :: (tail ++ [b]) ++ rest by simp]
  exact hok

theorem Unfinished.snoc (hb : utf8Tail b0 (tail ++ [b]) = true) (hlast : tail.length + 2 ≠ utf8Length b0.toNat) :
    Unfinished b0 (tail ++ [b]) := by
  have hshort := h.short
  refine ⟨h.lead, hb, ?_⟩
  rw [length_append]
  exact lt_of_le_of_ne hshort hlast

/-! ## The word of an unfinished character -/

/-- The payload read so far is small. -/
theorem Unfinished.value_lt : tail.foldl utf8Push (b0.toNat - utf8Mark b0.toNat) < 2 ^ 16 := by
  have hlead := h.lead
  have hshort := h.short
  apply lt_of_lt_of_le (foldl_utf8Push_lt _)
  revert hshort
  unfold utf8Length utf8Mark
  intro hshort
  split_ifs at hshort ⊢ with h1 h2
  · obtain rfl : tail = [] := eq_nil_of_length_eq_zero (by omega)
    simp; omega
  · calc (b0.toNat - 0xe0 + 1) * 64 ^ tail.length
        ≤ 16 * 64 ^ 1 := Nat.mul_le_mul (by omega) (Nat.pow_le_pow_right (by decide) (by omega))
      _ ≤ 2 ^ 16 := by decide
  · calc (b0.toNat - 0xf0 + 1) * 64 ^ tail.length
        ≤ 8 * 64 ^ 2 := Nat.mul_le_mul (by omega) (Nat.pow_le_pow_right (by decide) (by omega))
      _ ≤ 2 ^ 16 := by decide

/-- The word keeps the payload, the bytes to come and the test of the next one. -/
theorem Unfinished.word : (pendingState (b0 :: tail)).toNat =
      pendingTop b0 tail * 2 ^ 26 + midBits (utf8Length b0.toNat - 1 - tail.length) +
        tail.foldl utf8Push (b0.toNat - utf8Mark b0.toNat) := by
  induction tail using reverseRecOn with
  | nil => exact bittab_row b0 h.lead
  | append_singleton tail b ih =>
    have hlen := utf8Length_le b0.toNat
    have hshort := h.short
    rw [length_append, length_singleton] at hshort
    have hbefore : Unfinished b0 tail := ⟨h.lead, utf8Tail_of_append h.continues, by omega⟩
    have hword := ih hbefore
    rw [show utf8Length b0.toNat - 1 - tail.length = utf8Length b0.toNat - 1 - (tail.length + 1) + 1 by omega] at hword
    rw [pendingState_snoc, mbPush_word hword (by omega) hbefore.value_lt (continuation_of_snoc h.continues),
      if_neg (by omega), pendingTop, if_neg (by simp), foldl_append, length_append]
    rfl

/-- The top bits of the word carry the sign and the test. -/
theorem Unfinished.top : (pendingState (b0 :: tail)).toNat / 2 ^ 26 = pendingTop b0 tail := by
  have hvalue := h.value_lt
  have hmid : midBits (utf8Length b0.toNat - 1 - tail.length) ≤ 0x030c0000 := by
    unfold midBits
    split <;> decide
  rw [h.word]
  omega

/-- The sign bit of the word is set while bytes are to come. -/
theorem Unfinished.sign : 2 ^ 31 ≤ (pendingState (b0 :: tail)).toNat := by
  have htop := h.top
  have := pendingTop_bounds b0 tail
  omega

/-- `mb_oob` tests the next byte of an unfinished character. -/
theorem Unfinished.mbOob (b : UInt8) : (mbOob (pendingState (b0 :: tail)) b == 0) = utf8Tail b0 (tail ++ [b]) := by
  have htop := h.top
  rw [utf8Tail_snoc, h.continues, Bool.true_and]
  unfold pendingTop at htop
  split_ifs at htop ⊢ with hnil
  · exact mbOob_lead htop b
  · exact mbOob_plain htop b

/-- So does the plain range behind the first continuation byte. -/
theorem Unfinished.plain (hne : tail ≠ []) (b : UInt8) : decide (b - 0x80 < 0x40) = utf8Tail b0 (tail ++ [b]) := by
  rw [utf8Tail_snoc, h.continues, Bool.true_and, if_neg hne]
  exact plainRange b

end

theorem and_sign_eq_zero_iff {w : UInt32} : w &&& 0x80000000 = 0 ↔ w.toNat < 2 ^ 31 := by
  constructor
  · exact fun h => lt_iff_toNat_lt.mp (lt_of_and_sign_eq_zero h)
  · intro h
    rw [← toNat_inj, toNat_and]
    show w.toNat &&& 2 ^ 31 = 0
    rw [and_two_pow, testBit_lt_two_pow h]
    rfl

/-! ## One call -/

/-- What `mbrtowc` reports of `bytes`, the bytes since the last character of which earlier
    calls have read `before`, in terms of the one-shot decoder. -/
def reported (before : Nat) (bytes : List UInt8) : DecodeOutcome :=
  match decodeUtf8 bytes with
  | .ok (c, length) => .character (if c = 0 then 0 else length - before) (ofNat c)
  | .error .incomplete => .incomplete (pendingState bytes)
  | .error .invalid => .ilseq

variable {before c : Nat}

theorem reported_ok {length : Nat} (h : decodeUtf8 bytes = .ok (c, length)) :
    reported before bytes = .character (if c = 0 then 0 else length - before) (ofNat c) := by
  rw [reported, h]

theorem reported_incomplete (h : decodeUtf8 bytes = .error .incomplete) :
    reported before bytes = .incomplete (pendingState bytes) := by
  rw [reported, h]

theorem reported_invalid (h : decodeUtf8 bytes = .error .invalid) : reported before bytes = .ilseq := by
  rw [reported, h]

/-- Only the byte 0 is decoded to the character 0. -/
theorem decodeUtf8_ne_zero {rest : List UInt8} (hb0 : b0 ≠ 0) (h : decodeUtf8 (b0 :: rest) = .ok (c, n)) : c ≠ 0 := by
  rintro rfl
  obtain ⟨-, hencode, hpos, -⟩ := decodeUtf8_ok h
  obtain ⟨n, rfl⟩ := Nat.exists_eq_succ_of_ne_zero (Nat.pos_iff_ne_zero.mp hpos)
  exact hb0 (cons.inj hencode).1.symm

variable {count : Nat}

/-- The continuation bytes of an unfinished character. -/
theorem decodeContinuation_unfinished (h : Unfinished b0 tail) {accept : UInt8 → Bool}
    (haccept : ∀ b, accept b = utf8Tail b0 (tail ++ [b])) (hremaining : remaining ≤ bytes.length)
    (hcount : count + before = tail.length + 1 + remaining) (hle : remaining ≤ count) :
    decodeContinuation count accept (pendingState (b0 :: tail)) remaining bytes =
      some (reported before (b0 :: tail ++ bytes.take remaining)) := by
  induction remaining generalizing tail accept bytes with
  | zero =>
    rw [take_zero, append_nil, reported_incomplete (decodeUtf8_unfinished h), decodeContinuation]
  | succ remaining ih =>
    match bytes, hremaining with
    | b :: rest, hremaining =>
    rw [decodeContinuation, haccept, take_succ_cons]
    cases hb : utf8Tail b0 (tail ++ [b]) with
    | false =>
      rw [reported_invalid (decodeUtf8_unfinished_bad h hb _)]
      rfl
    | true =>
      rw [if_pos rfl]
      by_cases hlast : tail.length + 2 = utf8Length b0.toNat
      · -- the word of the last byte is the character itself
        have hword := h.word
        rw [show utf8Length b0.toNat - 1 - tail.length = 0 + 1 by omega] at hword
        have hpush := mbPush_word hword (by decide) h.value_lt (continuation_of_snoc hb)
        rw [if_pos rfl, zero_add] at hpush
        have hsmall : (mbPush (pendingState (b0 :: tail)) b).toNat < 2 ^ 31 := by
          have hvalue := h.value_lt
          rw [hpush, utf8Push_eq]
          omega
        have hok := decodeUtf8_unfinished_last h hb hlast (rest.take remaining)
        have hne : b0 ≠ 0 := fun h0 => absurd h.lead.1 (by rw [h0]; decide)
        rw [reported_ok hok, if_neg (decodeUtf8_ne_zero hne hok),
          if_pos (and_sign_eq_zero_iff.mpr hsmall), ← hpush, UInt32.ofNat_toNat,
          show count - remaining = tail.length + 2 - before by omega]
      · -- one byte more of an unfinished character
        have hnext := h.snoc hb hlast
        have hsign := hnext.sign
        have hlength : (tail ++ [b]).length = tail.length + 1 := by simp
        have hrun := ih hnext (hnext.plain (by simp)) (le_of_succ_le_succ hremaining)
          (by omega) (by omega)
        rw [pendingState_snoc] at hsign hrun
        rw [if_neg (by rw [and_sign_eq_zero_iff]; omega), hrun]
        simp

/-- A call in the initial state, by the first byte. -/
theorem decodeMbrtowc_start (first : UInt8) {rest : List UInt8} {utf8 : Bool} :
    decodeMbrtowc 0 (some (first :: rest)) (remaining + 1) utf8 =
      if first < 0x80 then some (.character (if first != 0 then 1 else 0) first.toUInt32)
      else if !utf8 then some (.character 1 (codeunit first))
      else if first - 0xc2 > 0xf4 - 0xc2 then some .ilseq
      else
        decodeContinuation (remaining + 1) (mbOob (pendingState [first]) · == 0)
          (pendingState [first]) remaining rest := rfl

/-- A call in another state goes on with the continuation bytes. -/
theorem decodeMbrtowc_resume (h : state ≠ 0) {bytes : List UInt8} {utf8 : Bool} :
    decodeMbrtowc state (some bytes) (remaining + 1) utf8 =
      decodeContinuation (remaining + 1) (mbOob state · == 0) state (remaining + 1) bytes := by
  unfold decodeMbrtowc
  dsimp only
  rw [if_neg (succ_ne_zero remaining), if_neg h]

theorem leadRange (b : UInt8) : b - 0xc2 > 0xf4 - 0xc2 ↔ ¬ (0xc2 ≤ b.toNat ∧ b.toNat ≤ 0xf4) := by
  revert b
  exact forall_byte (by decide +kernel)

theorem toUInt32_eq_ofNat : b.toUInt32 = ofNat b.toNat := by
  rw [← toNat_inj, toNat_ofNat', UInt8.toNat_toUInt32]
  exact (mod_eq_of_lt (lt_trans b.toNat_lt (by decide))).symm

/-- A call reports the bytes since the last character as the one-shot decoder sees them. -/
theorem decodeMbrtowc_reported {pending bytes : List UInt8} (hpending : decodeUtf8 pending = .error .incomplete)
    (hcount : count ≤ bytes.length) : decodeMbrtowc (pendingState pending) (some bytes) count true =
      some (reported pending.length (pending ++ bytes.take count)) := by
  match count, pending with
  | 0, pending =>
    rw [take_zero, append_nil, reported_incomplete hpending]
    rfl
  | remaining + 1, b0 :: tail =>
    have hopen := unfinished_of_incomplete hpending
    have hsign := hopen.sign
    have hne : pendingState (b0 :: tail) ≠ 0 := by
      intro h0
      rw [h0] at hsign
      exact absurd hsign (by decide)
    rw [decodeMbrtowc_resume hne]
    exact decodeContinuation_unfinished hopen hopen.mbOob hcount
      (by rw [length_cons]; omega) le_rfl
  | remaining + 1, [] =>
    match bytes, hcount with
    | first :: rest, hcount =>
    show decodeMbrtowc 0 _ _ _ = _
    rw [decodeMbrtowc_start, nil_append, take_succ_cons]
    by_cases hascii : first < 0x80
    · rw [if_pos hascii, reported_ok (decodeUtf8_one (UInt8.lt_iff_toNat_lt.mp hascii)),
        toUInt32_eq_ofNat]
      by_cases hnul : first = 0
      · rw [hnul]
        rfl
      · have hne : first.toNat ≠ 0 := fun h => hnul (UInt8.toNat_inj.mp h)
        rw [if_pos (bne_iff_ne.mpr hnul), if_neg hne]
        rfl
    rw [if_neg hascii, if_neg (by decide)]
    by_cases hlead : 0xc2 ≤ first.toNat ∧ first.toNat ≤ 0xf4
    · have hopen : Unfinished first [] := by
        refine ⟨hlead, rfl, ?_⟩
        unfold utf8Length
        split_ifs <;> simp
      rw [if_neg (fun h => (leadRange first).mp h hlead)]
      exact decodeContinuation_unfinished hopen hopen.mbOob (le_of_succ_le_succ hcount)
        (by omega) (le_succ _)
    · rw [if_pos ((leadRange first).mpr hlead), reported_invalid
        (decodeUtf8_bad (UInt8.le_iff_toNat_le.mp (UInt8.not_lt.mp hascii)) hlead)]

/-! ## One character out -/

theorem toUInt8_eq_lowByte (w : UInt32) : w.toUInt8 = lowByte w.toNat := by
  rw [← UInt8.toNat_inj, toNat_lowByte, UInt32.toNat_toUInt8]

/-- `wcrtomb` writes the bytes of a scalar that the encoder of `iconv.rs` writes. -/
theorem encodeForLocale_scalar (h : Scalar c) : encodeForLocale (ofNat c) true = some (encodeUtf8 c) := by
  unfold Scalar at h
  have hnat : (ofNat c).toNat = c := by rw [toNat_ofNat', mod_eq_of_lt (by omega)]
  have hlt : ∀ bound : UInt32, ofNat c < bound ↔ c < bound.toNat := by
    intro bound
    rw [lt_iff_toNat_lt, hnat]
  have hsub : ∀ low bound : UInt32, ofNat c - low < bound ↔ (2 ^ 32 - low.toNat + c) % 2 ^ 32 < bound.toNat := by
    intro low bound
    rw [lt_iff_toNat_lt, UInt32.toNat_sub, hnat]
  -- both encoders as numbers, branch by branch
  unfold encodeForLocale encodeUtf8
  simp only [hlt, hsub, UInt32.toUInt8_or, toUInt8_eq_lowByte (_ &&& _),
    toUInt8_eq_lowByte (_ >>> _), toUInt8_eq_lowByte (ofNat c), toNat_and,
    UInt32.toNat_shiftRight, hnat, UInt32.reduceToNat, reduceMod, Bool.not_true]
  by_cases h1 : c < 0x80
  · rw [if_pos h1, if_pos h1]
  rw [if_neg h1, if_neg h1, if_neg Bool.false_ne_true]
  by_cases h2 : c < 0x800
  · rw [if_pos h2, if_pos h2]
    rfl
  rw [if_neg h2, if_neg h2]
  by_cases h3 : c < 0x10000
  · rw [if_pos (by omega), if_pos h3]
    rfl
  · rw [if_neg (by omega), if_pos (by omega), if_neg h3]
    rfl

/-! ## The one-shot decoder, applied again and again -/

/-- A decoded character stays when bytes follow it. -/
theorem decodeUtf8_ok_append {s : List UInt8} (h : decodeUtf8 s = .ok (c, n)) (t : List UInt8) :
    decodeUtf8 (s ++ t) = .ok (c, n) := by
  obtain ⟨hscalar, hencode, -, hle⟩ := decodeUtf8_ok h
  have hn : (encodeUtf8 c).length = n := by rw [hencode, length_take, min_eq_left hle]
  have hagain := decodeUtf8_encodeUtf8 hscalar (s.drop n ++ t)
  rw [hn, hencode, ← append_assoc, take_append_drop] at hagain
  exact hagain

/-- A character that goes on from an unfinished one is longer than that. -/
theorem decodeUtf8_longer {pending more : List UInt8}
    (hpending : decodeUtf8 pending = .error .incomplete) (h : decodeUtf8 (pending ++ more) = .ok (c, n)) :
    pending.length < n ∧ (c = 0 → pending = [] ∧ n = 1) := by
  obtain ⟨-, hencode, hpos, hle⟩ := decodeUtf8_ok h
  have hone : c = 0 → n = 1 := by
    rintro rfl
    have hlength := congrArg length hencode
    rwa [length_take, min_eq_left hle, eq_comm] at hlength
  cases pending with
  | nil => exact ⟨hpos, fun hc => ⟨rfl, hone hc⟩⟩
  | cons b0 tail =>
    have hopen := unfinished_of_incomplete hpending
    have hne : b0 ≠ 0 := fun h0 => absurd hopen.lead.1 (by rw [h0]; decide)
    refine ⟨?_, fun hc => absurd hc (decodeUtf8_ne_zero hne h)⟩
    rw [cons_append, decodeUtf8_multi hopen.lead] at h
    split_ifs at h
    obtain ⟨-, rfl⟩ := Prod.mk.inj (Except.ok.inj h)
    exact hopen.short

/-- The scalars of a string, the bytes they take and what stops the decoder behind them;
    at the end of the string it is an incomplete character of no bytes. -/
structure Decoding where
  scalars : List Nat
  consumed : Nat
  stop : DecodeError
deriving DecidableEq, Repr

/-- A decoding behind scalars that are already decoded. -/
def Decoding.behind (scalars : List Nat) (consumed : Nat) (d : Decoding) : Decoding :=
  ⟨scalars ++ d.scalars, consumed + d.consumed, d.stop⟩

/-- `decode_utf8` until it fails; every round takes a byte at least, so `fuel` is a bound on the bytes left. -/
def decodeRounds : Nat → List UInt8 → Decoding
  | 0, _ => ⟨[], 0, .incomplete⟩
  | fuel + 1, bytes =>
    match decodeUtf8 bytes with
    | .ok (c, n) => (decodeRounds fuel (bytes.drop n)).behind [c] n
    | .error e => ⟨[], 0, e⟩

def decodeWhole (bytes : List UInt8) : Decoding := decodeRounds bytes.length bytes

theorem decodeRounds_congr {fuel fuel' : Nat} {bytes : List UInt8} (h : bytes.length ≤ fuel)
    (h' : bytes.length ≤ fuel') : decodeRounds fuel bytes = decodeRounds fuel' bytes := by
  induction fuel generalizing bytes fuel' with
  | zero =>
    obtain rfl : bytes = [] := eq_nil_of_length_eq_zero (le_zero.mp h)
    cases fuel' <;> rfl
  | succ fuel ih =>
    cases fuel' with
    | zero =>
      obtain rfl : bytes = [] := eq_nil_of_length_eq_zero (le_zero.mp h')
      rfl
    | succ fuel' =>
      rw [decodeRounds, decodeRounds]
      cases hd : decodeUtf8 bytes with
      | error e => rfl
      | ok r =>
        obtain ⟨-, -, hpos, hle⟩ := decodeUtf8_ok hd
        dsimp only
        rw [@ih fuel' _ (by rw [length_drop]; omega) (by rw [length_drop]; omega)]

theorem decodeWhole_ok (h : decodeUtf8 bytes = .ok (c, n)) :
    decodeWhole bytes = (decodeWhole (bytes.drop n)).behind [c] n := by
  rw [decodeWhole, decodeRounds_congr le_rfl (le_succ _), decodeRounds, h]
  dsimp only
  rw [decodeWhole, decodeRounds_congr (by rw [length_drop]; omega) le_rfl]

theorem decodeWhole_error {e : DecodeError} (h : decodeUtf8 bytes = .error e) : decodeWhole bytes = ⟨[], 0, e⟩ := by
  rw [decodeWhole, decodeRounds_congr le_rfl (le_succ _), decodeRounds, h]

/-! ## Runs of calls -/

/-- What a caller of `mbrtowc` has put together from the results of its calls: the characters, the bytes of the
    finished ones and of the unfinished one, and whether a call has failed; `state` is the state the calls share. -/
structure Reading where
  scalars : List UInt32
  consumed : Nat
  unfinished : Nat
  illegal : Bool
  state : UInt32
deriving DecidableEq, Repr

def Reading.start : Reading := ⟨[], 0, 0, false, 0⟩

/-- How much of the string is not yet handed to a call. -/
def Reading.rest (bytes : List UInt8) (r : Reading) : List UInt8 :=
  bytes.drop (r.consumed + r.unfinished)

/-- How much of the string the next call is handed: `count` bytes, or all there are. -/
def Reading.window (bytes : List UInt8) (r : Reading) (count : Nat) : Nat :=
  min count (r.rest bytes).length

/-- The next call. -/
def Reading.call (bytes : List UInt8) (r : Reading) (count : Nat) : Option DecodeOutcome :=
  decodeMbrtowc r.state (some (r.rest bytes)) (r.window bytes count) true

/-- The reading with the result of the next call; the result 0 is the one byte of the
    character 0.  Behind an illegal sequence there are no calls. -/
def Reading.next (bytes : List UInt8) (r : Reading) (count : Nat) : Option Reading :=
  if r.illegal then some r
  else
    (r.call bytes count).map fun outcome =>
      if outcome.error then { r with illegal := true, state := outcome.nextState }
      else if outcome.result = mbRetIncomplete then
        { r with unfinished := r.unfinished + r.window bytes count, state := outcome.nextState }
      else
        { scalars := r.scalars ++ [outcome.wide]
          consumed := r.consumed + r.unfinished + max outcome.result 1
          unfinished := 0
          illegal := false
          state := outcome.nextState }

open Reading

/-- The calls with the sizes `counts`, from the initial state on. -/
def readCalls (bytes : List UInt8) (counts : List Nat) : Option Reading :=
  counts.foldlM (next bytes) start

/-- The bytes since the last character when the next call returns. -/
def Reading.seen (bytes : List UInt8) (r : Reading) (count : Nat) : List UInt8 :=
  (bytes.drop r.consumed).take (r.unfinished + r.window bytes count)

/-- The reading is what the one-shot decoder finds in the string. -/
structure Reading.Agrees (bytes : List UInt8) (r : Reading) : Prop where
  decoded : decodeWhole bytes = (decodeWhole (bytes.drop r.consumed)).behind (r.scalars.map toNat) r.consumed
  encoded : (r.scalars.map fun w => (encodeForLocale w true).getD []).flatten = bytes.take r.consumed
  inside : r.consumed + r.unfinished ≤ bytes.length
  illegal : r.illegal = true → decodeUtf8 (bytes.drop r.consumed) = .error .invalid ∧ r.state = 0
  unfinished : r.illegal = false → decodeUtf8 ((bytes.drop r.consumed).take r.unfinished) = .error .incomplete ∧
      r.state = pendingState ((bytes.drop r.consumed).take r.unfinished)

open Decoding

theorem Reading.start_agrees {bytes : List UInt8} : start.Agrees bytes where
  decoded := by simp [start, behind]
  encoded := rfl
  inside := zero_le _
  illegal := nofun
  unfinished := fun _ => ⟨rfl, rfl⟩

variable {r : Reading}

/-- The next call is told by the one-shot decoder on the bytes since the last character. -/
theorem Reading.Agrees.call (h : r.Agrees bytes) (hlegal : r.illegal = false) (count : Nat) :
    r.call bytes count = some (reported r.unfinished (r.seen bytes count)) := by
  obtain ⟨hpending, hstate⟩ := h.unfinished hlegal
  have hinside := h.inside
  have hlength : ((bytes.drop r.consumed).take r.unfinished).length = r.unfinished := by
    rw [length_take, length_drop]; omega
  have hcall := decodeMbrtowc_reported hpending
    (show r.window bytes count ≤ (r.rest bytes).length from min_le_right _ _)
  rw [hlength] at hcall
  rw [Reading.call, hstate, hcall, Reading.seen, Reading.rest, take_add, drop_drop]

theorem Reading.seen_append {bytes : List UInt8} (r : Reading) :
    r.seen bytes count ++ (bytes.drop r.consumed).drop (r.unfinished + r.window bytes count) =
      bytes.drop r.consumed := take_append_drop _ _

theorem toNat_ofNat_scalar (h : Scalar c) : (ofNat c).toNat = c := by
  unfold Scalar at h
  rw [toNat_ofNat', mod_eq_of_lt (by omega)]

theorem length_encodeUtf8_le (c : Nat) : (encodeUtf8 c).length ≤ 4 := by
  unfold encodeUtf8
  split_ifs <;> simp

theorem Decoding.behind_behind (s s' : List Nat) {n : Nat} (n' : Nat) (d : Decoding) :
    (d.behind s' n').behind s n = d.behind (s ++ s') (n + n') := by
  simp [behind, add_assoc]

/-- A call that finishes a character. -/
theorem Reading.Agrees.next_ok (h : r.Agrees bytes) (hseen : decodeUtf8 (r.seen bytes count) = .ok (c, n)) :
    Reading.Agrees bytes ⟨r.scalars ++ [ofNat c], r.consumed + n, 0, false, 0⟩ := by
  obtain ⟨hscalar, hencode, hpos, hle⟩ := decodeUtf8_ok hseen
  have hwhole := decodeUtf8_ok_append hseen
    ((bytes.drop r.consumed).drop (r.unfinished + r.window bytes count))
  rw [seen_append] at hwhole
  obtain ⟨-, hencode', -, hle'⟩ := decodeUtf8_ok hwhole
  refine ⟨?_, ?_, ?_, nofun, fun _ => ⟨rfl, rfl⟩⟩
  · rw [h.decoded, decodeWhole_ok hwhole, behind_behind, drop_drop, map_append,
      map_singleton, toNat_ofNat_scalar hscalar]
  · rw [map_append, flatten_append, h.encoded, map_singleton, encodeForLocale_scalar hscalar, take_add, hencode']
    simp
  · rw [length_drop] at hle'
    show r.consumed + n + 0 ≤ bytes.length
    omega

theorem Reading.Agrees.next {bytes : List UInt8} (h : r.Agrees bytes) (count : Nat) :
    ∃ r', r.next bytes count = some r' ∧ r'.Agrees bytes := by
  cases hlegal : r.illegal with
  | true =>
    rw [Reading.next, hlegal]
    exact ⟨r, rfl, h⟩
  | false =>
    obtain ⟨hpending, hstate⟩ := h.unfinished hlegal
    have hinside := h.inside
    rw [Reading.next, hlegal, if_neg Bool.false_ne_true, h.call hlegal count]
    refine ⟨_, rfl, ?_⟩
    cases hseen : decodeUtf8 (r.seen bytes count) with
    | ok result =>
      obtain ⟨c, n⟩ := result
      obtain ⟨-, hencode, -, hle⟩ := decodeUtf8_ok hseen
      have hfour : n ≤ 4 := by
        have := length_encodeUtf8_le c
        rwa [hencode, length_take, min_eq_left hle] at this
      have hsplit := hseen
      rw [Reading.seen, take_add] at hsplit
      obtain ⟨hlonger, hnul⟩ := decodeUtf8_longer hpending hsplit
      have hlength : ((bytes.drop r.consumed).take r.unfinished).length = r.unfinished := by
        rw [length_take, length_drop]; omega
      rw [reported_ok hseen]
      -- the byte 0 is a character of its own, with the result 0
      have hconsumed : r.unfinished + max (if c = 0 then 0 else n - r.unfinished) 1 = n := by
        split_ifs with hc
        · obtain ⟨hnil, hn⟩ := hnul hc
          omega
        · omega
      have hresult : (character (if c = 0 then 0 else n - r.unfinished)
          (ofNat c)).result ≠ mbRetIncomplete := by
        unfold character mbRetIncomplete
        dsimp only
        split_ifs <;> omega
      show Agrees bytes (if _ = mbRetIncomplete then _ else _)
      rw [if_neg hresult]
      have hnext := h.next_ok hseen
      rw [← hconsumed, ← add_assoc] at hnext
      exact hnext
    | error e =>
      cases e with
      | invalid =>
        rw [reported_invalid hseen]
        have hbad := decodeUtf8_invalid_append hseen
          ((bytes.drop r.consumed).drop (r.unfinished + r.window bytes count))
        rw [Reading.seen_append] at hbad
        exact ⟨h.decoded, h.encoded, h.inside, fun _ => ⟨hbad, rfl⟩, nofun⟩
      | incomplete =>
        rw [reported_incomplete hseen]
        refine ⟨h.decoded, h.encoded, ?_, nofun, fun _ => ⟨hseen, rfl⟩⟩
        show r.consumed + (r.unfinished + r.window bytes count) ≤ bytes.length
        have hwindow : r.window bytes count ≤ (r.rest bytes).length := min_le_right _ _
        rw [Reading.rest, length_drop] at hwindow
        omega

theorem readCalls_agrees {bytes : List UInt8} {counts : List Nat} :
    ∃ r, readCalls bytes counts = some r ∧ r.Agrees bytes := by
  suffices h : ∀ r : Reading, r.Agrees bytes → ∃ r', counts.foldlM (next bytes) r = some r' ∧ r'.Agrees bytes from
    h start start_agrees
  induction counts with
  | nil => exact fun r hr => ⟨r, rfl, hr⟩
  | cons count counts ih =>
    intro r hr
    obtain ⟨r', hnext, hr'⟩ := hr.next count
    obtain ⟨r'', hrest, hr''⟩ := ih r' hr'
    refine ⟨r'', ?_, hr''⟩
    rw [foldlM_cons, hnext]
    exact hrest

/-- The outcome of the next call next to what `decode_utf8` says of the bytes since the last character. -/
structure Reading.CallAgrees (bytes : List UInt8) (r : Reading) (count : Nat)
    (outcome : DecodeOutcome) : Prop where
  incomplete : outcome.result = mbRetIncomplete ↔ decodeUtf8 (r.seen bytes count) = .error .incomplete
  illegal : outcome.error = true ↔ decodeUtf8 (r.seen bytes count) = .error .invalid
  ilseq : outcome.error = true ↔ outcome.result = mbRetIlseq
  character : ∀ c n, decodeUtf8 (r.seen bytes count) = .ok (c, n) →
    outcome.writesWide = true ∧ outcome.wide.toNat = c ∧ outcome.result = (if c = 0 then 0 else n - r.unfinished) ∧
      encodeForLocale outcome.wide true = some ((r.seen bytes count).take n)
  initial : outcome.result ≠ mbRetIncomplete → outcome.nextState = 0

theorem reported_result_lt {n : Nat} {bytes : List UInt8} (h : decodeUtf8 bytes = .ok (c, n)) :
    (reported before bytes).result ≤ 4 := by
  obtain ⟨-, hencode, -, hle⟩ := decodeUtf8_ok h
  have hfour := length_encodeUtf8_le c
  rw [hencode, length_take, min_eq_left hle] at hfour
  rw [reported_ok h]
  show (if c = 0 then 0 else n - before) ≤ 4
  split_ifs <;> omega

theorem Reading.Agrees.callAgrees (h : r.Agrees bytes) (hlegal : r.illegal = false) (count : Nat) :
    ∃ outcome, r.call bytes count = some outcome ∧ r.CallAgrees bytes count outcome := by
  refine ⟨_, h.call hlegal count, ?_⟩
  have hcodes : mbRetIlseq ≠ mbRetIncomplete := by decide
  cases hseen : decodeUtf8 (r.seen bytes count) with
  | ok result =>
    obtain ⟨hscalar, hencode, -, -⟩ := decodeUtf8_ok hseen
    have hfour := @reported_result_lt r.unfinished _ _ _ hseen
    have hbig : 4 < mbRetIncomplete ∧ 4 < mbRetIlseq := by decide
    have herror : (reported r.unfinished (r.seen bytes count)).error = false := by rw [reported_ok hseen]; rfl
    constructor
    · rw [hseen]
      exact ⟨fun h => absurd h (by omega), nofun⟩
    · rw [hseen, herror]
      exact ⟨nofun, nofun⟩
    · rw [herror]
      exact ⟨nofun, fun h => absurd h (by omega)⟩
    · intro c' n' hseen'
      rw [hseen] at hseen'
      obtain ⟨rfl, rfl⟩ := Prod.mk.inj (Except.ok.inj hseen')
      rw [reported_ok hseen]
      refine ⟨rfl, toNat_ofNat_scalar hscalar, rfl, ?_⟩
      rw [← hencode]
      exact encodeForLocale_scalar hscalar
    · intro _
      rw [reported_ok hseen]
      rfl
  | error e =>
    cases e with
    | incomplete =>
      rw [reported_incomplete hseen]
      constructor
      · rw [hseen]
        exact ⟨fun _ => rfl, fun _ => rfl⟩
      · rw [hseen]
        exact ⟨nofun, nofun⟩
      · exact ⟨nofun, fun h => absurd h.symm hcodes⟩
      · rw [hseen]
        exact nofun
      · exact fun h => absurd rfl h
    | invalid =>
      rw [reported_invalid hseen]
      constructor
      · rw [hseen]
        exact ⟨fun h => absurd h hcodes, nofun⟩
      · rw [hseen]
        exact ⟨fun _ => rfl, fun _ => rfl⟩
      · exact ⟨fun _ => rfl, fun _ => rfl⟩
      · rw [hseen]
        exact nofun
      · exact fun _ => rfl

/-- However the string is cut into calls of `mbrtowc`, the characters, the bytes they take and the first
    illegal sequence are those of `decode_utf8` on the uncut string; each call tells of the bytes since the
    last character what `decode_utf8` tells, `wcrtomb` writes the bytes of a character back, and only an
    incomplete character leaves a state behind. -/
theorem mbrtowc_calls_decodeUtf8 (bytes : List UInt8) (counts : List Nat) : ∃ r, readCalls bytes counts = some r ∧
      (∃ later : Decoding, decodeWhole bytes = later.behind (r.scalars.map toNat) r.consumed) ∧
      (r.illegal = true → decodeWhole bytes = ⟨r.scalars.map toNat, r.consumed, .invalid⟩ ∧ r.state = 0) ∧
      (r.illegal = false → r.consumed + r.unfinished = bytes.length →
        decodeWhole bytes = ⟨r.scalars.map toNat, r.consumed, .incomplete⟩) ∧
      (r.scalars.map fun w => (encodeForLocale w true).getD []).flatten = bytes.take r.consumed ∧
      (r.illegal = false → ∀ count, ∃ outcome,
        r.call bytes count = some outcome ∧ r.CallAgrees bytes count outcome) := by
  obtain ⟨r, hrun, h⟩ := readCalls_agrees
  refine ⟨r, hrun, ⟨_, h.decoded⟩, ?_, ?_, h.encoded, fun hlegal => h.callAgrees hlegal⟩
  · intro hillegal
    obtain ⟨hbad, hstate⟩ := h.illegal hillegal
    have hwhole := h.decoded
    rw [decodeWhole_error hbad] at hwhole
    refine ⟨?_, hstate⟩
    simpa [behind] using hwhole
  · intro hlegal hall
    obtain ⟨hpending, -⟩ := h.unfinished hlegal
    rw [List.take_of_length_le (by rw [List.length_drop]; omega)] at hpending
    have hwhole := h.decoded
    rw [decodeWhole_error hpending] at hwhole
    simpa [behind] using hwhole

end Crabc.Libc
