/-
  Crabc.Iconv.CodecLaws

  What the converter needs of a codec, and that every supported encoding of
  `crabc-core/src/iconv.rs` provides it.

  A codec is lawful when decoding reads one scalar whatever follows it, encoding
  a scalar can be decoded again, and encoding a decoded scalar restores the
  bytes it came from up to the codec's canonical form.
-/

import Crabc.Iconv.Utf8

namespace Crabc.Iconv

/-- The laws of a prefix code over the Unicode scalars. -/
structure Lawful (decode : List UInt8 → Except DecodeError (Nat × Nat))
    (encode : Nat → Option (List UInt8)) (canonical : List UInt8 → List UInt8) : Prop where
  decode_ok : ∀ {s c n}, decode s = .ok (c, n) →
    Scalar c ∧ encode c = some (canonical (s.take n)) ∧ 0 < n ∧ n ≤ s.length
  decode_encode : ∀ {c u}, Scalar c → encode c = some u → ∀ t, decode (u ++ t) = .ok (c, u.length)
  decode_append : ∀ {s r}, decode s = .ok r → ∀ t, decode (s ++ t) = .ok r
  invalid_append : ∀ {s}, decode s = .error .invalid → ∀ t, decode (s ++ t) = .error .invalid
  encode_length : ∀ {c u}, encode c = some u → 0 < u.length ∧ u.length ≤ 4

open List

/-- An encoder that never fails needs three laws; the others follow. -/
theorem Lawful.of_total {decode : List UInt8 → Except DecodeError (Nat × Nat)} {encode : Nat → List UInt8}
    (decode_ok : ∀ {s c n}, decode s = .ok (c, n) → Scalar c ∧ encode c = s.take n ∧ 0 < n ∧ n ≤ s.length)
    (decode_encode : ∀ {c}, Scalar c → ∀ t, decode (encode c ++ t) = .ok (c, (encode c).length))
    (invalid_append : ∀ {s}, decode s = .error .invalid → ∀ t, decode (s ++ t) = .error .invalid)
    (encode_length : ∀ c, 0 < (encode c).length ∧ (encode c).length ≤ 4) :
    Lawful decode (fun c => some (encode c)) id where
  decode_ok h := by
    obtain ⟨hc, he, hn, hs⟩ := decode_ok h
    exact ⟨hc, congrArg some he, hn, hs⟩
  decode_encode hc hu t := by
    cases hu
    exact decode_encode hc t
  decode_append {s r} h t := by
    -- what was read is an encoding, so it is read again in front of anything
    obtain ⟨hc, he, -, hs⟩ := decode_ok (c := r.1) (n := r.2) h
    have hread := decode_encode hc (s.drop r.2 ++ t)
    rw [he, ← append_assoc, take_append_drop, length_take, Nat.min_eq_left hs] at hread
    exact hread
  invalid_append := invalid_append
  encode_length h := by
    cases h
    exact encode_length _

/-! ## UTF-8 and ASCII -/

theorem encodeUtf8_length (c : Nat) : 0 < (encodeUtf8 c).length ∧ (encodeUtf8 c).length ≤ 4 := by
  rw [encodeUtf8]
  split_ifs <;> simp

theorem lawful_utf8 : Lawful decodeUtf8 (fun c => some (encodeUtf8 c)) id :=
  Lawful.of_total decodeUtf8_ok decodeUtf8_encodeUtf8 decodeUtf8_invalid_append encodeUtf8_length

/-- `encode_scalar` for ASCII. -/
def encodeAscii (codepoint : Nat) : Option (List UInt8) :=
  if codepoint < 0x80 then some [lowByte codepoint] else none

variable {t : List UInt8}

theorem decodeAscii_cons {b : UInt8} :
    decodeAscii (b :: t) = if b.toNat < 0x80 then .ok (b.toNat, 1) else .error .invalid := by
  simp only [decodeAscii, UInt8.lt_iff_toNat_lt, UInt8.reduceToNat]

theorem lawful_ascii : Lawful decodeAscii encodeAscii id where
  decode_ok {s c n} h := by
    cases s with
    | nil => cases h
    | cons b t =>
      rw [decodeAscii_cons] at h
      split_ifs at h with hb
      cases h
      refine ⟨Or.inl (by omega), ?_, by omega, by simp⟩
      rw [encodeAscii, if_pos hb, lowByte_eq rfl]
      rfl
  decode_encode {c u} _ hu t := by
    rw [encodeAscii] at hu
    split_ifs at hu with hc
    cases hu
    rw [singleton_append, decodeAscii_cons, toNat_lowByte_of_lt (by omega), if_pos hc]
    rfl
  decode_append {s r} h t := by
    cases s with
    | nil => cases h
    | cons b s => rwa [cons_append, decodeAscii_cons, ← decodeAscii_cons]
  invalid_append {s} h t := by
    cases s with
    | nil => cases h
    | cons b s => rwa [cons_append, decodeAscii_cons, ← decodeAscii_cons]
  encode_length {c u} h := by
    rw [encodeAscii] at h
    split_ifs at h
    cases h
    simp

/-! ## UTF-16 -/

variable (be : Bool)

theorem bytes16_unit16 (b0 b1 : UInt8) : bytes16 be (unit16 be b0 b1) = [b0, b1] := by
  have h0 := b0.toNat_lt
  have h1 := b1.toNat_lt
  cases be
  all_goals
    simp only [bytes16, unit16, Bool.false_eq_true, if_false, if_true, ← UInt8.toNat_inj, cons.injEq, toNat_lowByte,
      and_true]
    omega

theorem unit16_lt (b0 b1 : UInt8) : unit16 be b0 b1 < 0x10000 := by
  have h0 := b0.toNat_lt
  have h1 := b1.toNat_lt
  unfold unit16
  split_ifs <;> omega

variable {n c : Nat}

/-- A code unit is the two bytes that read back as it. -/
theorem bytes16_eq (h : n < 0x10000) : ∃ b0 b1, bytes16 be n = [b0, b1] ∧ unit16 be b0 b1 = n := by
  cases be
  all_goals
    refine ⟨_, _, rfl, ?_⟩
    simp only [unit16, Bool.false_eq_true, if_false, if_true, toNat_lowByte]
    omega

theorem encodeUtf16_pair {hi lo : Nat} (hhi : hi < 1024) (hlo : lo < 1024) :
    encodeUtf16 be (hi <<< 10 + lo + 0x10000) = bytes16 be (0xd800 + hi) ++ bytes16 be (0xdc00 + lo) := by
  have hsub : hi <<< 10 + lo + 0x10000 - 0x10000 = hi * 1024 + lo := by omega
  have hdiv : (hi * 1024 + lo) >>> 10 = hi := by omega
  have hmod : (hi * 1024 + lo) &&& 0x3ff = lo := by
    rw [show 0x3ff = 2 ^ 10 - 1 from rfl, Nat.and_two_pow_sub_one_eq_mod]; omega
  rw [encodeUtf16, if_neg (by omega)]
  simp only [hsub, hdiv, hmod]

/-- `0xd800..=0xdbff`. -/
def HighSurrogate (n : Nat) : Prop := 0xd800 ≤ n ∧ n ≤ 0xdbff

instance (n : Nat) : Decidable (HighSurrogate n) := inferInstanceAs (Decidable (_ ∧ _))

/-- `0xdc00..=0xdfff`. -/
def LowSurrogate (n : Nat) : Prop := 0xdc00 ≤ n ∧ n ≤ 0xdfff

instance (n : Nat) : Decidable (LowSurrogate n) := inferInstanceAs (Decidable (_ ∧ _))

variable {be} {rest : List UInt8}

theorem decodeUtf16_unit {b0 b1 : UInt8} (h : ¬ HighSurrogate (unit16 be b0 b1)) : decodeUtf16 be (b0 :: b1 :: rest) =
      if LowSurrogate (unit16 be b0 b1) then .error .invalid
      else .ok (unit16 be b0 b1, 2) :=
  if_neg h

theorem decodeUtf16_pair {b0 b1 : UInt8} (h : HighSurrogate (unit16 be b0 b1)) {b2 b3 : UInt8} :
    decodeUtf16 be (b0 :: b1 :: b2 :: b3 :: t) =
      if LowSurrogate (unit16 be b2 b3) then
        .ok ((unit16 be b0 b1 - 0xd800) <<< 10 + (unit16 be b2 b3 - 0xdc00) + 0x10000, 4)
      else .error .invalid :=
  if_pos h

theorem decodeUtf16_half {b0 b1 : UInt8} (h : HighSurrogate (unit16 be b0 b1)) (hrest : rest.length < 2) :
    decodeUtf16 be (b0 :: b1 :: rest) = .error .incomplete := by
  match rest, hrest with
  | [], _ => exact if_pos h
  | [_], _ => exact if_pos h

variable {s : List UInt8}

/-- What `decodeUtf16` accepts is the encoding of a scalar. -/
theorem decodeUtf16_ok (h : decodeUtf16 be s = .ok (c, n)) :
    Scalar c ∧ encodeUtf16 be c = s.take n ∧ 0 < n ∧ n ≤ s.length := by
  match s with
  | [] | [_] => cases h
  | b0 :: b1 :: rest =>
    by_cases hhigh : HighSurrogate (unit16 be b0 b1)
    · match rest with
      | [] | [_] => rw [decodeUtf16_half hhigh (by simp)] at h; cases h
      | b2 :: b3 :: t =>
        rw [decodeUtf16_pair hhigh] at h
        split_ifs at h with hpair
        cases h
        obtain ⟨hhigh, hhigh'⟩ := hhigh
        obtain ⟨hpair, hpair'⟩ := hpair
        have hbytes := @encodeUtf16_pair be (unit16 be b0 b1 - 0xd800)
          (unit16 be b2 b3 - 0xdc00) (by omega) (by omega)
        rw [Nat.add_sub_cancel' hhigh, Nat.add_sub_cancel' hpair, bytes16_unit16, bytes16_unit16] at hbytes
        refine ⟨Or.inr ?_, hbytes, by omega, by simp⟩
        omega
    · rw [decodeUtf16_unit hhigh] at h
      split_ifs at h with hlow
      cases h
      have hfirst := unit16_lt be b0 b1
      refine ⟨by unfold Scalar HighSurrogate LowSurrogate at *; omega, ?_, by omega, by simp⟩
      rw [encodeUtf16, if_pos hfirst, bytes16_unit16]
      rfl

theorem decodeUtf16_invalid_append (h : decodeUtf16 be s = .error .invalid) (t : List UInt8) :
    decodeUtf16 be (s ++ t) = .error .invalid := by
  match s with
  | [] | [_] => cases h
  | b0 :: b1 :: rest =>
    by_cases hhigh : HighSurrogate (unit16 be b0 b1)
    · match rest with
      | [] | [_] => rw [decodeUtf16_half hhigh (by simp)] at h; cases h
      | b2 :: b3 :: _ => exact h
    · rw [decodeUtf16_unit hhigh] at h
      exact (decodeUtf16_unit hhigh).trans h

variable (be)

/-- Every scalar is decoded from its code units, whatever follows. -/
theorem decodeUtf16_encodeUtf16 (h : Scalar c) (t : List UInt8) :
    decodeUtf16 be (encodeUtf16 be c ++ t) = .ok (c, (encodeUtf16 be c).length) := by
  unfold Scalar at h
  by_cases hc : c < 0x10000
  · obtain ⟨b0, b1, hbytes, hunit⟩ := bytes16_eq be hc
    rw [encodeUtf16, if_pos hc, hbytes]
    simp only [cons_append, nil_append, decodeUtf16, hunit]
    rw [if_neg (by omega), if_neg (by omega)]
    rfl
  · obtain ⟨hi, lo, hhi, hlo, rfl⟩ : ∃ hi lo, hi < 1024 ∧ lo < 1024 ∧ c = hi <<< 10 + lo + 0x10000 := by
      refine ⟨(c - 0x10000) / 1024, (c - 0x10000) % 1024, by omega, by omega, ?_⟩
      omega
    rw [encodeUtf16_pair be hhi hlo]
    obtain ⟨b0, b1, hbytes, hunit⟩ := bytes16_eq be (n := 0xd800 + hi) (by omega)
    obtain ⟨b2, b3, hbytes', hunit'⟩ := bytes16_eq be (n := 0xdc00 + lo) (by omega)
    rw [hbytes, hbytes']
    simp only [cons_append, nil_append, decodeUtf16, hunit, hunit']
    rw [if_pos (by omega), if_pos (by omega), Nat.add_sub_cancel_left, Nat.add_sub_cancel_left]
    rfl

theorem encodeUtf16_length (c : Nat) : 0 < (encodeUtf16 be c).length ∧ (encodeUtf16 be c).length ≤ 4 := by
  have hlen (n : Nat) : (bytes16 be n).length = 2 := by cases be <;> rfl
  rw [encodeUtf16]
  split_ifs
  · rw [hlen]; omega
  · rw [length_append, hlen, hlen]; omega

theorem lawful_utf16 : Lawful (decodeUtf16 be) (fun c => some (encodeUtf16 be c)) id :=
  Lawful.of_total decodeUtf16_ok (decodeUtf16_encodeUtf16 be) decodeUtf16_invalid_append
    (encodeUtf16_length be)

/-! ## UTF-32 and `wchar_t` -/

theorem bytes32_unit32 {b0 b1 b2 b3 : UInt8} : bytes32 be (unit32 be b0 b1 b2 b3) = [b0, b1, b2, b3] := by
  have h0 := b0.toNat_lt
  have h1 := b1.toNat_lt
  have h2 := b2.toNat_lt
  have h3 := b3.toNat_lt
  cases be
  all_goals
    simp only [bytes32, unit32, Bool.false_eq_true, if_false, if_true, ← UInt8.toNat_inj, cons.injEq, toNat_lowByte,
      and_true]
    omega

theorem bytes32_eq (h : n < 2 ^ 32) : ∃ b0 b1 b2 b3, bytes32 be n = [b0, b1, b2, b3] ∧ unit32 be b0 b1 b2 b3 = n := by
  cases be
  all_goals
    refine ⟨_, _, _, _, rfl, ?_⟩
    simp only [unit32, Bool.false_eq_true, if_false, if_true, toNat_lowByte]
    omega

theorem lawful_utf32 : Lawful (decodeUtf32 be) (fun c => some (bytes32 be c)) id := by
  refine Lawful.of_total ?_ ?_ ?_ ?_
  · intro s c n h
    match s with
    | [] | [_] | [_, _] | [_, _, _] => cases h
    | b0 :: b1 :: b2 :: b3 :: t =>
      rw [decodeUtf32] at h
      split_ifs at h with hbad
      cases h
      refine ⟨by unfold Scalar; omega, ?_, by omega, by simp⟩
      rw [bytes32_unit32]
      rfl
  · intro c hc t
    unfold Scalar at hc
    obtain ⟨b0, b1, b2, b3, hbytes, hunit⟩ := bytes32_eq be (n := c) (by omega)
    rw [hbytes]
    simp only [cons_append, nil_append, decodeUtf32, hunit]
    rw [if_neg (by omega)]
    rfl
  · intro s h t
    match s with
    | [] | [_] | [_, _] | [_, _, _] => cases h
    | b0 :: b1 :: b2 :: b3 :: _ => exact h
  · intro c
    have hlen : (bytes32 be c).length = 4 := by cases be <;> rfl
    omega

/-! ## The ISO-8859 tables -/

/-- `decode_scalar` for a table encoding. -/
def decodeTable (t : Iso8859) : List UInt8 → Except DecodeError (Nat × Nat)
  | [] => .error .incomplete
  | byte :: _ => .ok (t.decode byte, 1)

/-- `encode_scalar` for a table encoding. -/
def encodeTable (t : Iso8859) (codepoint : Nat) : Option (List UInt8) :=
  (t.encode codepoint).map fun byte => [byte]

theorem lawful_table {t : Iso8859} : Lawful (decodeTable t) (encodeTable t) (map t.canonical) where
  decode_ok {s c n} h := by
    cases s with
    | nil => cases h
    | cons b rest =>
      cases h
      refine ⟨Or.inl t.decode_lt, ?_, by omega, by simp⟩
      rw [encodeTable, t.encode_decode]
      rfl
  decode_encode {c u} _ hu rest := by
    obtain ⟨b, hb, rfl⟩ := Option.map_eq_some_iff.mp hu
    rw [singleton_append, decodeTable, Iso8859.decode_of_encode hb]
    rfl
  decode_append {s r} h rest := by
    cases s with
    | nil => cases h
    | cons b s => exact h
  invalid_append {s} h rest := by
    cases s <;> cases h
  encode_length {c u} h := by
    obtain ⟨b, -, rfl⟩ := Option.map_eq_some_iff.mp h
    simp

/-! ## Every supported encoding -/

/-- The form of a byte string that a round trip restores: ISO-8859-8 holds
    U+00D7 in two slots and encodes it in the first. -/
def Encoding.canonical (e : Encoding) (s : List UInt8) : List UInt8 :=
  match Iso8859.fromEncoding e with
  | some t => s.map t.canonical
  | none => s

variable {e : Encoding}

theorem Encoding.canonical_append : e.canonical (s ++ t) = e.canonical s ++ e.canonical t := by
  unfold Encoding.canonical
  split
  · exact map_append
  · rfl

theorem Encoding.canonical_nil : e.canonical [] = [] := by
  unfold Encoding.canonical
  split <;> rfl

theorem Encoding.canonical_length (e : Encoding) (s : List UInt8) : (e.canonical s).length = s.length := by
  unfold Encoding.canonical
  split
  · exact length_map _
  · rfl

/-- The codec behind each supported encoding. -/
theorem Encoding.lawful (h : e.isSupported = true) : Lawful (decodeScalar e) (encodeScalar e) e.canonical := by
  cases e <;> first
    | exact absurd h (by decide)
    | exact lawful_utf8
    | exact lawful_ascii
    | exact lawful_utf16 _
    | exact lawful_utf32 _
    | exact lawful_table

end Crabc.Iconv
