/-
  Crabc.Libc.InetText

  The canonical text of an internet address, and that `inet_ntop` renders it.  The text
  of an IPv6 address is that of its fields, separated by colons, where the leftmost
  longest run of two or more zero words is a double colon.
-/

import Crabc.Lib.Numeral
import Crabc.Lib.Run
import Crabc.Libc.InetAddress

namespace Crabc.Libc

open Crabc.Lib SpanScan

/-! ## The canonical text -/

/-- The dotted decimal text of octets. -/
def dottedQuad (octets : List UInt8) : List UInt8 :=
  [46].intercalate (octets.map fun octet => numeral 10 octet.toNat)

/-- A field of the text of an IPv6 address: a word, or an IPv4 address at the end. -/
inductive Field where
  | word (value : UInt16)
  | quad (octets : List UInt8)
deriving DecidableEq

namespace Field

def text : Field → List UInt8
  | word value => numeral 16 value.toNat
  | quad octets => dottedQuad octets

def isZero : Field → Bool
  | word value => value = 0
  | quad _ => false

end Field

/-- The word in network order at an index of the address. -/
def networkWord (address : List UInt8) (index : Nat) : UInt16 :=
  UInt16.ofNat ((address.getD (2 * index) 0).toNat * 256 + (address.getD (2 * index + 1) 0).toNat)

def networkWords (address : List UInt8) (count : Nat) : List UInt16 :=
  (List.range count).map (networkWord address)

/-- An IPv4-mapped address: ten zero bytes and two bytes of ones come first. -/
def IsMapped (address : List UInt8) : Prop :=
  (∀ i < 10, address.getD i 0 = 0) ∧ address.getD 10 0 = 255 ∧ address.getD 11 0 = 255

instance (address : List UInt8) : Decidable (IsMapped address) :=
  inferInstanceAs (Decidable (_ ∧ _))

/-- The fields of an IPv6 address: eight words, or six words and the mapped IPv4 address. -/
def ipv6Fields (address : List UInt8) : List Field :=
  if IsMapped address then (networkWords address 6).map .word ++ [.quad (address.drop 12)]
  else (networkWords address 8).map .word

/-- Fields separated by colons. -/
def joined (fields : List Field) : List UInt8 := [58].intercalate (fields.map Field.text)

/-- The recommended text of fields: the leftmost longest run of two or more zero words is
    replaced by a double colon. -/
inductive CanonicalText (fields : List Field) : List UInt8 → Prop
  | plain (hnone : ∀ s l, IsRun Field.isZero fields s l → l < 2) :
      CanonicalText fields (joined fields)
  | shortened {s l : Nat} (htwo : 2 ≤ l) (hrun : LongestRun Field.isZero fields s l) :
      CanonicalText fields (joined (fields.take s) ++ [58, 58] ++ joined (fields.drop (s + l)))

/-! ## Numerals -/

theorem writeDecimalOctet_eq {value : UInt8} : writeDecimalOctet value = numeral 10 value.toNat := by
  have hall : ∀ n : Fin 256, writeDecimalOctet (UInt8.ofNat n) = numeral 10 n := by decide +kernel
  have hvalue := hall ⟨value.toNat, value.toNat_lt⟩
  rwa [UInt8.ofNat_toNat] at hvalue

theorem hexByte_eq : ∀ d < 16, hexByte (UInt8.ofNat d) = digitByte d := by decide

theorem ofNat_digit_eq_zero : ∀ d < 16, UInt8.ofNat d = 0 ↔ d = 0 := by decide

variable {word : UInt16} {shift : Nat} {fields : List Field} {address output : List UInt8} {field : Field}
  {s : SpanScan}

/-- Before the first digit that is not zero nothing is written. -/
theorem writeHexDigit_skip (hzero : word.toNat / 2 ^ shift % 16 = 0) (hshift : shift ≠ 0) :
    writeHexDigit word (false, output) shift = (false, output) := by
  rw [writeHexDigit]
  simp only [hzero]
  exact if_neg (by simp [hshift])

open Nat

theorem writeHexDigit_emit {emitted : Bool} (h : emitted = true ∨ word.toNat / 2 ^ shift % 16 ≠ 0 ∨ shift = 0) :
    writeHexDigit word (emitted, output) shift = (true, output ++ [digitByte (word.toNat / 2 ^ shift % 16)]) := by
  have hlt : word.toNat / 2 ^ shift % 16 < 16 := mod_lt _ (by omega)
  rw [writeHexDigit]
  simp only [ne_eq, ofNat_digit_eq_zero _ hlt, hexByte_eq _ hlt]
  exact if_pos h

theorem writeHexDigit_first (h : word.toNat / 2 ^ shift % 16 ≠ 0 ∨ shift = 0) :
    writeHexDigit word (false, output) shift = (true, output ++ [digitByte (word.toNat / 2 ^ shift % 16)]) :=
  writeHexDigit_emit (.inr h)

/-- Behind the first digit every digit is written. -/
theorem writeHexDigit_next : writeHexDigit word (true, output) shift =
      (true, output ++ [digitByte (word.toNat / 2 ^ shift % 16)]) :=
  writeHexDigit_emit (.inl rfl)

open List

theorem writeHexWord_eq : writeHexWord word = numeral 16 word.toNat := by
  have hlt : word.toNat < 65536 := word.toNat_lt
  have hbase : 1 < 16 := by omega
  rw [writeHexWord]
  simp only [foldl_cons, foldl_nil]
  -- the number of digits decides where the zeros in front end
  by_cases h1 : word.toNat < 16
  · rw [writeHexDigit_skip (by omega) (by omega), writeHexDigit_skip (by omega) (by omega),
      writeHexDigit_skip (by omega) (by omega), writeHexDigit_first (.inr rfl),
      numeral_of_lt h1]
    simp [mod_eq_of_lt h1]
  rw [numeral_step hbase (by omega)]
  by_cases h2 : word.toNat < 256
  · rw [writeHexDigit_skip (by omega) (by omega), writeHexDigit_skip (by omega) (by omega),
      writeHexDigit_first (.inl (by omega)), writeHexDigit_next,
      numeral_of_lt (by omega)]
    simp [show word.toNat / 16 % 16 = word.toNat / 16 by omega]
  rw [numeral_step hbase (by omega), Nat.div_div_eq_div_mul]
  by_cases h3 : word.toNat < 4096
  · rw [writeHexDigit_skip (by omega) (by omega), writeHexDigit_first (.inl (by omega)),
      writeHexDigit_next, writeHexDigit_next,
      numeral_of_lt (by omega)]
    simp [show word.toNat / 256 % 16 = word.toNat / 256 by omega]
  · rw [writeHexDigit_first (.inl (by omega)), writeHexDigit_next, writeHexDigit_next, writeHexDigit_next,
      numeral_step hbase (by omega), Nat.div_div_eq_div_mul, numeral_of_lt (by omega)]
    simp [show word.toNat / 4096 % 16 = word.toNat / 4096 by omega]

/-! ## Texts of fields -/

variable {separator : UInt8}

theorem intercalate_cons_flatMap {piece : List UInt8} {pieces : List (List UInt8)} :
    [separator].intercalate (piece :: pieces) =
      piece ++ pieces.flatMap fun next => separator :: next := by
  induction pieces generalizing piece with
  | nil => rw [intercalate_singleton, flatMap_nil, append_nil]
  | cons next pieces ih =>
    rw [intercalate_cons_cons, ih, flatMap_cons, append_assoc]
    rfl

/-- A loop that writes separators writes the pieces joined. -/
theorem writeSeparated_eq {count : Nat} {piece : Nat → List UInt8} :
    writeSeparated separator (count + 1) piece = [separator].intercalate ((range (count + 1)).map piece) := by
  rw [writeSeparated, range_succ_eq_map, map_cons, intercalate_cons_flatMap,
    flatMap_cons, flatMap_map, map_map, flatMap_map]
  rfl

/-- The rest of the text behind a field. -/
def tailText (fields : List Field) : List UInt8 := fields.flatMap fun field => 58 :: field.text

theorem joined_cons : joined (field :: fields) = field.text ++ tailText fields := by
  rw [joined, map_cons, intercalate_cons_flatMap, flatMap_map]
  rfl

theorem ipv6Word_eq {index : Nat} : ipv6Word address index = networkWord address index := by
  rw [ipv6Word, networkWord, mul_comm]
  generalize address.getD (2 * index) 0 = high
  generalize address.getD (2 * index + 1) 0 = low
  have hhigh : high.toNat < 256 := high.toNat_lt
  have hlow : low.toNat < 256 := low.toNat_lt
  have hor : high.toNat <<< 8 ||| low.toNat = high.toNat * 256 + low.toNat := by
    rw [← shiftLeft_add_eq_or_of_lt hlow, shiftLeft_eq]
  have hshift : high.toNat <<< 8 % 65536 = high.toNat <<< 8 := by omega
  apply UInt16.toNat_inj.mp
  show high.toNat <<< 8 % 65536 ||| low.toNat = (high.toNat * 256 + low.toNat) % 65536
  rw [hshift, hor]
  omega

theorem ipv4Mapped_iff : ipv4Mapped address = true ↔ IsMapped address := by
  simp [ipv4Mapped, IsMapped, and_assoc]

variable {octets : List UInt8}

theorem writeIpv4Text_eq (hlen : octets.length = 4) : writeIpv4Text octets = dottedQuad octets := by
  have hrange : (range 4).map (fun index => octets.getD index 0) = octets := by
    apply ext_getElem
    · rw [length_map, length_range, hlen]
    · intro i hi hi'
      rw [getElem_map, getElem_range, getD_eq_getElem?_getD, getElem?_eq_getElem hi', Option.getD_some]
  rw [writeIpv4Text, writeSeparated_eq, dottedQuad]
  conv_rhs => rw [← hrange]
  congr 1
  exact map_congr_left fun index _ => writeDecimalOctet_eq

theorem writeWords_eq {count : Nat} :
    writeSeparated 58 (count + 1) (fun index => writeHexWord (ipv6Word address index)) =
      joined ((networkWords address (count + 1)).map .word) := by
  rw [writeSeparated_eq, joined, networkWords, map_map, map_map]
  congr 1
  apply map_congr_left
  intro index _
  rw [writeHexWord_eq, ipv6Word_eq]
  rfl

/-- A field behind others. -/
theorem joined_concat (hne : fields ≠ []) : joined (fields ++ [field]) = joined fields ++ 58 :: field.text := by
  cases fields with
  | nil => exact absurd rfl hne
  | cons first fields =>
    rw [cons_append, joined_cons, joined_cons, tailText, tailText, flatMap_append]
    simp

theorem writeIpv6Text_eq (hlen : address.length = 16) : writeIpv6Text address = joined (ipv6Fields address) := by
  rw [writeIpv6Text, ipv6Fields]
  by_cases hmapped : IsMapped address
  · have hquad : writeIpv4Text (address.drop 12) = dottedQuad (address.drop 12) :=
      writeIpv4Text_eq (by rw [length_drop, hlen])
    have hwords : (networkWords address 6).map Field.word ≠ [] := by simp [networkWords]
    rw [if_pos (ipv4Mapped_iff.mpr hmapped), if_pos hmapped, writeWords_eq, hquad,
      joined_concat hwords, append_assoc]
    rfl
  · rw [if_neg fun h => hmapped (ipv4Mapped_iff.mp h), if_neg hmapped, writeWords_eq]

/-! ## Bytes of the texts -/

/-- A byte that is no colon and no terminator. -/
def Inner (byte : UInt8) : Prop := byte ≠ 0 ∧ byte ≠ 58

theorem inner_digitByte : ∀ d < 16, Inner (digitByte d) := by
  simp only [Inner]
  decide

theorem inner_numeral (base : Nat) (hbase : 1 < base) (hle : base ≤ 16) (n : Nat) :
    ∀ byte ∈ numeral base n, Inner byte := by
  obtain ⟨digits, htext, hdigits⟩ := numeral_digits hbase n
  rw [htext]
  intro byte hbyte
  obtain ⟨d, hd, rfl⟩ := mem_map.mp hbyte
  exact inner_digitByte d (lt_of_lt_of_le (hdigits.lt d hd) hle)

theorem inner_dottedQuad : ∀ byte ∈ dottedQuad octets, Inner byte := by
  rw [dottedQuad]
  cases octets with
  | nil => exact nofun
  | cons octet octets =>
    have hnumeral (n : Nat) := inner_numeral 10 (by omega) (by omega) n
    rw [map_cons, intercalate_cons_flatMap, flatMap_map]
    intro byte hbyte
    rcases mem_append.mp hbyte with hbyte | hbyte
    · exact hnumeral _ byte hbyte
    · obtain ⟨next, -, hbyte⟩ := mem_flatMap.mp hbyte
      rcases mem_cons.mp hbyte with rfl | hbyte
      · exact ⟨by decide, by decide⟩
      · exact hnumeral _ byte hbyte

theorem Field.inner_text : ∀ byte ∈ field.text, Inner byte := by
  cases field with
  | word value => exact inner_numeral 16 (by omega) (by omega) _
  | quad octets => exact inner_dottedQuad

open Crabc.Libc.Field

theorem Field.text_ne_nil (h : field ≠ .quad []) : field.text ≠ [] := by
  cases field with
  | word value => exact numeral_ne_nil (by omega) _
  | quad octets =>
    cases octets with
    | nil => exact absurd rfl h
    | cons octet octets =>
      rw [text, dottedQuad, map_cons, intercalate_cons_flatMap]
      exact append_ne_nil_of_left_ne_nil (numeral_ne_nil (by omega) _) _

theorem ne_zero_joined : ∀ byte ∈ joined fields, byte ≠ 0 := by
  cases fields with
  | nil => exact nofun
  | cons field fields =>
    rw [joined_cons]
    intro byte hbyte
    rcases mem_append.mp hbyte with hbyte | hbyte
    · exact (field.inner_text byte hbyte).1
    · obtain ⟨next, -, hbyte⟩ := mem_flatMap.mp hbyte
      rcases mem_cons.mp hbyte with rfl | hbyte
      · decide
      · exact (next.inner_text byte hbyte).1

/-! ## Spans of colons and zeros -/

variable {rest : List UInt8}

theorem colonZeroSpan_zero : colonZeroSpan (48 :: rest) = colonZeroSpan rest + 1 :=
  rfl

theorem colonZeroSpan_colon : colonZeroSpan (58 :: rest) = colonZeroSpan rest + 1 := rfl

variable {n i span : Nat}

/-- A numeral that is not zero starts with another digit. -/
theorem numeral_head (base : Nat) (hbase : 1 < base) (hle : base ≤ 16) (hn : n ≠ 0) :
    ∃ byte rest, numeral base n = byte :: rest ∧ byte ≠ 58 ∧ byte ≠ 48 := by
  have hbyte : ∀ d < 16, d ≠ 0 → digitByte d ≠ 58 ∧ digitByte d ≠ 48 := by decide
  obtain ⟨digits, htext, hdigits⟩ := numeral_digits hbase n
  obtain rfl | ⟨d, rest, rfl, hd⟩ := hdigits.leading
  · exact absurd hdigits.value.symm hn
  · have hlt := hdigits.lt d mem_cons_self
    exact ⟨_, _, htext, hbyte d (by omega) hd⟩

theorem colonZeroSpan_word {value : UInt16} (h : value ≠ 0) : colonZeroSpan ((Field.word value).text ++ rest) = 0 := by
  have hn : value.toNat ≠ 0 := fun hzero => h (UInt16.toNat_inj.mp hzero)
  obtain ⟨byte, tail, htext, hbyte⟩ := numeral_head 16 (by omega) (by omega) hn
  rw [text, htext, cons_append, colonZeroSpan, if_pos hbyte]

/-- The first octet of a dotted text is zero, and followed by a dot, or starts with another digit. -/
theorem colonZeroSpan_quad (octet next : UInt8) (octets rest : List UInt8) :
    colonZeroSpan ((quad (octet :: next :: octets)).text ++ rest) ≤ 1 := by
  rw [text, dottedQuad, map_cons, map_cons, intercalate_cons_cons, append_assoc, append_assoc]
  by_cases hzero : octet = 0
  · subst hzero
    show colonZeroSpan (48 :: 46 :: _) ≤ 1
    exact le_refl 1
  · have hn : octet.toNat ≠ 0 := fun h => hzero (UInt8.toNat_inj.mp h)
    obtain ⟨byte, tail, htext, hbyte⟩ := numeral_head 10 (by omega) (by omega) hn
    rw [htext, cons_append, colonZeroSpan, if_pos hbyte]
    omega

/-- Four octets stand behind a word that is not zero, at the end. -/
def Framed : List Field → Prop
  | [] => True
  | .quad octets :: rest => rest = [] ∧ octets.length = 4
  | .word value :: rest =>
    Framed rest ∧ (value = 0 → ∀ octets, rest.head? ≠ some (.quad octets))

theorem tailText_cons : tailText (field :: fields) = 58 :: (joined (field :: fields)) := by
  rw [joined_cons, tailText, flatMap_cons]
  rfl

/-- A text whose first field is not zero. -/
theorem colonZeroSpan_nonzero (h : Framed (field :: fields)) (hzero : field.isZero = false) :
    colonZeroSpan (joined (field :: fields) ++ [0]) ≤ 1 := by
  rw [joined_cons, append_assoc]
  match field, h with
  | .quad [a, b, c, d], _ => exact colonZeroSpan_quad a b [c, d] _
  | .word value, _ =>
    rw [colonZeroSpan_word (of_decide_eq_false hzero)]
    exact zero_le 1

theorem joined_zero_cons {next : Field} : joined (.word 0 :: next :: fields) = 48 :: 58 :: joined (next :: fields) := by
  rfl

/-- A run starts with a zero word. -/
theorem eq_zero_of_run (hrun : runLength isZero (field :: fields) ≠ 0) : field = .word 0 := by
  match field with
  | .quad octets => exact absurd rfl hrun
  | .word value =>
    by_contra hzero
    exact hrun (if_neg (by simpa [isZero] using hzero))

/-- **Spans.**  A run of zero words takes two bytes for each word, one less at the end of
    the text. -/
theorem colonZeroSpan_joined (h : Framed (field :: fields)) (hrun : runLength isZero (field :: fields) ≠ 0) :
    colonZeroSpan (joined (field :: fields) ++ [0]) +
        (if runLength isZero (field :: fields) = (field :: fields).length then 1 else 0) =
      2 * runLength isZero (field :: fields) := by
  induction fields generalizing field with
  | nil =>
    obtain rfl := eq_zero_of_run hrun
    rfl
  | cons next fields ih =>
    obtain rfl := eq_zero_of_run hrun
    have hstep : runLength isZero (.word 0 :: next :: fields) = runLength isZero (next :: fields) + 1 := rfl
    rw [joined_zero_cons, cons_append, cons_append, colonZeroSpan_zero, colonZeroSpan_colon, hstep, length_cons]
    by_cases hnext : runLength isZero (next :: fields) = 0
    · -- the run ends here, and a word follows
      match next with
      | .quad octets => exact absurd rfl (h.2 rfl octets)
      | .word follower =>
        have hfollower : follower ≠ 0 := by
          rintro rfl
          cases hnext
        rw [hnext, joined_cons, append_assoc, colonZeroSpan_word hfollower, if_neg (by rw [length_cons]; omega)]
    · have hspan := ih h.1 hnext
      simp only [add_right_cancel_iff]
      omega

/-! ## The longest span is the longest run -/

/-- The bytes of a run of `l` zero words from field `s` of `n` on, with the colons before and behind it. -/
def spanLength (n s l : Nat) : Nat :=
  2 * l + (if s = 0 then 0 else 1) - (if s + l = n then 1 else 0)

/-- What is known of the span at the start of field `i`, which starts a run of `r`. -/
def SpanAt (n i r span : Nat) : Prop := (r = 0 → span ≤ 2) ∧ (r ≠ 0 → span = spanLength n i r)

/-- Without a span so far, two zero words make one. -/
theorem span_gt_three {r : Nat} (hn : 3 ≤ n) (hspan : SpanAt n i r span) : span > 3 ↔ 2 ≤ r := by
  rcases Nat.eq_zero_or_pos r with hr | hr
  · have := hspan.1 hr
    omega
  · rw [hspan.2 (by omega), spanLength]
    split <;> split <;> omega

/-- A later span is longer exactly if its run is.  The one at the start has no colon
    before it, which the extra byte makes up for. -/
theorem span_gt_spanLength {s l r : Nat} (hl : 2 ≤ l) (hi : s < i) (hir : i + r ≤ n) (hspan : SpanAt n i r span) :
    span > spanLength n s l + (if s = 0 then 1 else 0) ↔ l < r := by
  rcases Nat.eq_zero_or_pos r with hr | hr
  · have := hspan.1 hr
    rw [spanLength]
    split <;> split <;> omega
  · rw [hspan.2 (by omega), spanLength, spanLength, if_neg (by omega : i ≠ 0)]
    split <;> split <;> split <;> omega

/-- Where the text of the fields from `i` on starts, with the colon before it. -/
def position (fields : List Field) (i : Nat) : Nat := (joined (fields.take i)).length

/-- The scan keeps the span of the run that is kept. -/
structure Tracks (fields : List Field) (s : SpanScan) (kept : Nat × Nat) : Prop where
  none : kept.2 = 0 → s.best = 0 ∧ s.max = 2
  some : kept.2 ≠ 0 → 2 ≤ kept.2 ∧ kept.1 + kept.2 ≤ fields.length ∧
    s.best = position fields kept.1 ∧ s.max = spanLength fields.length kept.1 kept.2

/-- The part of a round that looks at a span. -/
def SpanScan.offer (s : SpanScan) (span : Nat) : SpanScan :=
  if span > s.max + (if s.best = 0 then 1 else 0) then { s with best := s.cursor, max := span }
  else s

variable {byte : UInt8}

theorem SpanScan.step_boundary (rest : List UInt8) (h : s.cursor = 0 ∨ byte = 58) : s.step byte rest =
      { s.offer (colonZeroSpan (byte :: rest)) with cursor := s.cursor + 1 } := by
  rw [step, if_pos h, offer]
  by_cases hlonger : colonZeroSpan (byte :: rest) > s.max + (if s.best = 0 then 1 else 0)
  · simp only [if_pos hlonger]
  · simp only [if_neg hlonger]

theorem scanSpans_boundary (hbyte : byte ≠ 0) (h : s.cursor = 0 ∨ byte = 58) : scanSpans (byte :: rest) s =
      scanSpans rest { s.offer (colonZeroSpan (byte :: rest)) with cursor := s.cursor + 1 } := by
  rw [scanSpans, if_neg hbyte, s.step_boundary rest h]

theorem scanSpans_skip {bytes : List UInt8} (hbytes : ∀ byte ∈ bytes, Inner byte) (s : SpanScan) (hs : s.cursor ≠ 0) :
    scanSpans (bytes ++ rest) s =
      scanSpans rest { s with cursor := s.cursor + bytes.length } := by
  induction bytes generalizing s with
  | nil => rfl
  | cons byte bytes ih =>
    have hbyte := hbytes byte mem_cons_self
    have hstep : s.step byte (bytes ++ rest) = { s with cursor := s.cursor + 1 } := by
      rw [step, if_neg]
      rintro (hzero | hcolon)
      · exact hs hzero
      · exact hbyte.2 hcolon
    rw [cons_append, scanSpans, if_neg hbyte.1, hstep,
      ih (fun b hb => hbytes b (mem_cons_of_mem _ hb)) _ (succ_ne_zero _)]
    congr 2
    show s.cursor + 1 + bytes.length = s.cursor + (bytes.length + 1)
    omega

theorem Framed.text_ne_nil (h : Framed (field :: fields)) : field.text ≠ [] := by
  apply Field.text_ne_nil
  rintro rfl
  cases h.2

theorem position_pos (h : Framed (field :: fields)) (hi : i ≠ 0) : position (field :: fields) i ≠ 0 := by
  obtain ⟨j, rfl⟩ := exists_eq_succ_of_ne_zero hi
  rw [position, take_succ_cons, joined_cons, length_append]
  have := length_pos_of_ne_nil h.text_ne_nil
  omega

variable {kept : Nat × Nat}

/-- Looking at the span of field `i` is a step of the pick. -/
theorem tracks_offer {r : Nat} (hn : 2 ≤ fields.length) (hframed : Framed (field :: fields))
    (htracks : Tracks (field :: fields) s kept) (hkept : kept.2 ≠ 0 → kept.1 < i)
    (hcursor : s.cursor = position (field :: fields) i) (hspan : SpanAt (field :: fields).length i r span)
    (hi : i + r ≤ (field :: fields).length) :
    Tracks (field :: fields) (s.offer span) (if 2 ≤ r ∧ kept.2 < r then (i, r) else kept) := by
  -- both sides take the span in the same cases
  have hsame : span > s.max + (if s.best = 0 then 1 else 0) ↔ 2 ≤ r ∧ kept.2 < r := by
    by_cases hnone : kept.2 = 0
    · obtain ⟨hbest, hmax⟩ := htracks.none hnone
      rw [hbest, hmax, if_pos rfl, span_gt_three (by rw [length_cons]; omega) hspan]
      omega
    · obtain ⟨htwo, -, hbest, hmax⟩ := htracks.some hnone
      have hzero : s.best = 0 ↔ kept.1 = 0 := by
        rw [hbest]
        refine ⟨fun h => ?_, fun h => by rw [h]; rfl⟩
        by_contra hne
        exact position_pos hframed hne h
      simp only [hzero]
      rw [hmax, span_gt_spanLength htwo (hkept hnone) hi hspan]
      omega
  by_cases hlonger : 2 ≤ r ∧ kept.2 < r
  · rw [if_pos hlonger, offer, if_pos (hsame.mpr hlonger)]
    refine ⟨fun hzero => ?_, fun _ => ⟨hlonger.1, hi, hcursor, hspan.2 (by omega)⟩⟩
    exact absurd hzero (by show r ≠ 0; omega)
  · rw [if_neg hlonger, offer, if_neg fun h => hlonger (hsame.mp h)]
    exact htracks

section

variable (h : Framed (field :: fields))
include h

theorem Framed.tail : Framed fields := by
  match field, h with
  | .word value, h => exact h.1
  | .quad octets, ⟨hnil, _⟩ => exact hnil ▸ trivial

theorem span_of_runLength_zero (hrun : runLength isZero (field :: fields) = 0) :
    colonZeroSpan (joined (field :: fields) ++ [0]) ≤ 1 := by
  apply colonZeroSpan_nonzero h
  by_contra hzero
  rw [runLength, if_pos (by simpa using hzero)] at hrun
  cases hrun

theorem spanAt_start : SpanAt (field :: fields).length 0 (runLength isZero (field :: fields))
      (colonZeroSpan (joined (field :: fields) ++ [0])) := by
  refine ⟨fun hrun => (span_of_runLength_zero h hrun).trans (by omega), fun hrun => ?_⟩
  have hspan := colonZeroSpan_joined h hrun
  rw [spanLength, zero_add, if_pos rfl]
  omega

theorem spanAt_colon (hi : i ≠ 0)
    (hn : n = i + (field :: fields).length) : SpanAt n i (runLength isZero (field :: fields))
      (colonZeroSpan (58 :: (joined (field :: fields) ++ [0]))) := by
  rw [colonZeroSpan_colon]
  refine ⟨fun hrun => succ_le_succ (span_of_runLength_zero h hrun), fun hrun => ?_⟩
  have hspan := colonZeroSpan_joined h hrun
  rw [spanLength, hn, if_neg hi]
  simp only [add_left_cancel_iff]
  omega

end

/-- The scan from a colon between fields on. -/
theorem tracks_scanSpans (hn : 2 ≤ fields.length) (front rest : List Field) (hne : front ≠ [])
    (hfields : field :: fields = front ++ rest) (hframed : Framed (field :: fields)) (hrest : Framed rest)
    (htracks : Tracks (field :: fields) s kept) (hkept : kept.2 ≠ 0 → kept.1 < front.length)
    (hcursor : s.cursor = (joined front).length) :
    (scanSpans (tailText rest ++ [0]) s).cursor = (joined (field :: fields)).length ∧
      Tracks (field :: fields) (scanSpans (tailText rest ++ [0]) s)
        (pickRun isZero front.length rest kept) := by
  induction rest generalizing front s kept with
  | nil =>
    rw [append_nil] at hfields
    rw [hfields]
    exact ⟨hcursor, hfields ▸ htracks⟩
  | cons next rest ih =>
    have hposition : s.cursor = position (field :: fields) front.length := by
      rw [position, hfields, take_left, hcursor]
    have hlength : front.length ≠ 0 := by simpa using hne
    have hlen : (field :: fields).length = front.length + (next :: rest).length := by rw [hfields, length_append]
    have hrun := runLength_le (p := isZero) (next :: rest)
    have hoffer := tracks_offer hn hframed htracks hkept hposition
      (spanAt_colon hrest hlength hlen) (by omega)
    have hlast : (front ++ [next]).length = front.length + 1 := by simp
    -- the colon is looked at, and the field behind it is passed over
    rw [tailText_cons, cons_append, scanSpans_boundary (by decide) (.inr rfl)]
    conv_lhs => rw [joined_cons, append_assoc]
    conv_rhs => rw [joined_cons, append_assoc]
    rw [scanSpans_skip next.inner_text _ (succ_ne_zero _), ← append_assoc, ← joined_cons, pickRun, ← hlast]
    apply ih (front ++ [next])
    · simp
    · rw [hfields, append_assoc]
      rfl
    · exact hrest.tail
    · exact ⟨hoffer.none, hoffer.some⟩
    · rw [hlast]
      split
      case isTrue => exact fun _ => lt_succ_self _
      case isFalse => exact fun hne' => lt_succ_of_lt (hkept hne')
    · show s.cursor + 1 + next.text.length = _
      rw [joined_concat hne, length_append, length_cons, hcursor]
      omega

/-- **The scan.**  It keeps the span of the leftmost longest run. -/
theorem tracks_render (hn : 2 ≤ fields.length) (hframed : Framed (field :: fields)) :
    (scanSpans (joined (field :: fields) ++ [0]) { cursor := 0, best := 0, max := 2 }).cursor =
        (joined (field :: fields)).length ∧
      Tracks (field :: fields)
        (scanSpans (joined (field :: fields) ++ [0]) { cursor := 0, best := 0, max := 2 })
        (pickRun isZero 0 (field :: fields) (0, 0)) := by
  have hstart : Tracks (field :: fields) { cursor := 0, best := 0, max := 2 } (0, 0) :=
    ⟨fun _ => ⟨rfl, rfl⟩, fun hne => absurd rfl hne⟩
  have hrun := runLength_le (p := isZero) (field :: fields)
  have hoffer := tracks_offer hn hframed hstart (fun hne => absurd rfl hne) rfl
    (spanAt_start hframed) (by omega)
  obtain ⟨byte, bytes, htext⟩ := exists_cons_of_ne_nil hframed.text_ne_nil
  have hinner := field.inner_text
  rw [htext] at hinner
  have hcons : joined (field :: fields) ++ [0] = byte :: (bytes ++ (tailText fields ++ [0])) := by
    rw [joined_cons, htext, append_assoc]
    rfl
  rw [hcons] at hoffer ⊢
  rw [scanSpans_boundary (hinner byte mem_cons_self).1 (.inl rfl),
    scanSpans_skip (fun b hb => hinner b (mem_cons_of_mem _ hb)) _ (succ_ne_zero _),
    pickRun]
  apply tracks_scanSpans hn [field] fields
  · exact cons_ne_nil _ _
  · rfl
  · exact hframed
  · exact hframed.tail
  · exact ⟨hoffer.none, hoffer.some⟩
  · split
    case isTrue => exact fun _ => zero_lt_one
    case isFalse => exact fun hne => absurd rfl hne
  · show 0 + 1 + bytes.length = (joined [field]).length
    rw [joined_cons, htext, length_append, length_cons]
    show 0 + 1 + bytes.length = bytes.length + 1 + 0
    omega

/-! ## The text with the run shortened -/

theorem cString_append {text : List UInt8} (htext : ∀ byte ∈ text, byte ≠ 0) : cString (text ++ 0 :: rest) = text := by
  rw [cString, takeWhile_append_of_pos (by simpa using htext)]
  simp

/-- A span is replaced by two colons. -/
theorem cString_shortenSpan {text front span back : List UInt8} (htext : text = front ++ span ++ back)
    (hcursor : s.cursor = text.length) (hbest : s.best = front.length) (hmax : s.max = span.length)
    (hspan : 3 < span.length) (hfront : ∀ byte ∈ front, byte ≠ 0) (hback : ∀ byte ∈ back, byte ≠ 0) :
    cString (shortenSpan (text ++ [0]) s) = front ++ [58, 58] ++ back := by
  subst htext
  obtain ⟨a, b, gap, rfl⟩ : ∃ a b gap, span = a :: b :: gap := by
    match span, hspan with
    | a :: b :: gap, _ => exact ⟨a, b, gap, rfl⟩
  have hset : ((front ++ a :: b :: gap ++ back ++ [0]).set front.length 58).set
      (front.length + 1) 58 = (front ++ [58, 58]) ++ gap ++ (back ++ [0]) := by
    simp [set_append_right]
  obtain ⟨rest, hrest⟩ := append_prefix_moveDown
  rw [shortenSpan, hmax, if_pos hspan, hbest, hcursor]
  rw [hset]
  have hcount : (front ++ a :: b :: gap ++ back).length - front.length - (a :: b :: gap).length + 1 =
      (back ++ [0]).length := by
    simp only [length_append, length_cons, length_nil]
    omega
  have hdst : front.length + 2 = (front ++ [58, 58]).length := by simp
  have hsrc : front.length + (a :: b :: gap).length = (front ++ [58, 58]).length + gap.length := by
    simp only [length_append, length_cons, length_nil]
    omega
  rw [hcount, hsrc, hdst, ← hrest, ← append_assoc, append_assoc _ [0]]
  apply cString_append
  simp only [mem_append]
  rintro byte ((hbyte | hbyte) | hbyte)
  · exact hfront byte hbyte
  · rcases mem_cons.mp hbyte with rfl | hbyte
    · decide
    · rw [mem_singleton.mp hbyte]
      decide
  · exact hback byte hbyte

/-- The colon between two lists of fields. -/
def between (fields fields' : List Field) : List UInt8 :=
  if fields = [] ∨ fields' = [] then [] else [58]

theorem joined_append (fields fields' : List Field) :
    joined (fields ++ fields') = joined fields ++ between fields fields' ++ joined fields' := by
  cases fields with
  | nil => rfl
  | cons field fields =>
    cases fields' with
    | nil =>
      rw [between, if_pos (.inr rfl), append_nil, append_nil]
      exact (append_nil _).symm
    | cons field' fields' =>
      rw [between, if_neg (by simp), cons_append, joined_cons, tailText,
        flatMap_append, joined_cons, ← tailText, ← tailText, tailText_cons]
      simp

theorem length_joined_zeros {l : Nat} : (joined (replicate (l + 1) (.word 0))).length = 2 * l + 1 := by
  induction l with
  | zero => rfl
  | succ l ih =>
    rw [replicate_succ, replicate_succ, joined_zero_cons, length_cons, length_cons, ← replicate_succ, ih]
    omega

theorem Field.eq_zero (h : field.isZero = true) : field = .word 0 := by
  match field, h with
  | .word value, h => rw [of_decide_eq_true h]

/-- The text around a run of zeros. -/
theorem joined_run {s l : Nat} (hl : 2 ≤ l) (hrun : IsRun isZero fields s l) :
    ∃ span, joined fields = joined (fields.take s) ++ span ++ joined (fields.drop (s + l)) ∧
      span.length = spanLength fields.length s l := by
  obtain ⟨k, rfl⟩ : ∃ k, l = k + 1 := ⟨l - 1, by omega⟩
  have hfields := eq_append_stretch fields s (k + 1)
  have hzeros := hrun.eq_replicate fun _ => eq_zero
  generalize (fields.drop s).take (k + 1) = run at hfields hzeros
  have hinside := hrun.inside
  have hne : run ≠ [] := hzeros ▸ cons_ne_nil _ _
  refine ⟨between (fields.take s) run ++ joined run ++ between run (fields.drop (s + (k + 1))), ?_, ?_⟩
  · have hbetween : between (fields.take s) (run ++ fields.drop (s + (k + 1))) = between (fields.take s) run := by
      simp [between, hne]
    conv_lhs => rw [hfields, append_assoc, joined_append, joined_append run, hbetween]
    simp only [append_assoc]
  · have hstart : fields.take s = [] ↔ s = 0 := by
      rw [take_eq_nil_iff]
      refine or_iff_left fun hnil => ?_
      rw [hnil, length_nil] at hinside
      omega
    have hend : fields.drop (s + (k + 1)) = [] ↔ s + (k + 1) = fields.length := by
      rw [drop_eq_nil_iff]
      omega
    rw [length_append, length_append, between, between, hzeros, length_joined_zeros, ← hzeros, spanLength]
    simp only [hne, or_false, false_or, hstart, hend]
    split <;> split <;> simp only [length_nil, length_singleton] <;> omega

/-- **The text.**  What the loop and the move leave is the canonical text. -/
theorem canonicalText_shortenSpan (hn : 2 ≤ fields.length) (hframed : Framed (field :: fields)) :
    CanonicalText (field :: fields) (cString (shortenSpan (joined (field :: fields) ++ [0])
      (scanSpans (joined (field :: fields) ++ [0]) { cursor := 0, best := 0, max := 2 }))) := by
  obtain ⟨hcursor, htracks⟩ := tracks_render hn hframed
  by_cases hnone : (pickRun isZero 0 (field :: fields) (0, 0)).2 = 0
  · obtain ⟨-, hmax⟩ := htracks.none hnone
    rw [shortenSpan, if_neg (by omega), cString_append ne_zero_joined]
    exact .plain (pickRun_none hnone)
  · obtain ⟨htwo, hrun⟩ := longestRun_pickRun hnone
    obtain ⟨-, -, hbest, hmax⟩ := htracks.some hnone
    obtain ⟨span, htext, hspan⟩ := joined_run htwo hrun.toIsRun
    have hlong : 3 < span.length := by
      rw [hspan, spanLength]
      have : (field :: fields).length = fields.length + 1 := rfl
      split <;> split <;> omega
    rw [cString_shortenSpan htext hcursor hbest (hmax.trans hspan.symm) hlong ne_zero_joined
      ne_zero_joined]
    exact .shortened htwo hrun

theorem framed_words {words : List UInt16} : Framed (words.map .word) := by
  induction words with
  | nil => trivial
  | cons word words ih =>
    refine ⟨ih, fun _ octets => ?_⟩
    cases words with
    | nil => exact nofun
    | cons next words => exact nofun

theorem networkWord_mapped (h : IsMapped address) : networkWord address 5 = 65535 := by
  rw [networkWord, h.2.1, h.2.2]
  rfl

theorem framed_ipv6Fields (hlen : address.length = 16) : Framed (ipv6Fields address) := by
  rw [ipv6Fields]
  split
  case isFalse => exact framed_words
  case isTrue hmapped =>
    have hquad : (address.drop 12).length = 4 := by rw [length_drop, hlen]
    have hlast : networkWord address 5 ≠ 0 := by
      rw [networkWord_mapped hmapped]
      decide
    -- only the last word stands before the IPv4 address
    exact ⟨⟨⟨⟨⟨⟨⟨rfl, hquad⟩, fun hzero => absurd hzero hlast⟩, fun _ _ => nofun⟩, fun _ _ => nofun⟩,
      fun _ _ => nofun⟩, fun _ _ => nofun⟩, fun _ _ => nofun⟩

theorem canonicalText_renderIpv6 (hlen : address.length = 16) :
    CanonicalText (ipv6Fields address) (renderIpv6 address) := by
  rw [renderIpv6, writeIpv6Text_eq hlen]
  have hframed := framed_ipv6Fields hlen
  have hlength : 7 ≤ (ipv6Fields address).length := by
    rw [ipv6Fields]
    split <;> simp [networkWords]
  match hfields : ipv6Fields address with
  | [] =>
    rw [hfields] at hlength
    cases hlength
  | field :: fields =>
    rw [hfields] at hframed hlength
    exact canonicalText_shortenSpan (by rw [length_cons] at hlength; omega) hframed

end Crabc.Libc
