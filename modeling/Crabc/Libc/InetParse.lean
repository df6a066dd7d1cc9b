/-
  Crabc.Libc.InetParse

  `inet_pton` reads what `inet_ntop` renders: the parsers on dotted decimal texts and on
  the canonical texts of IPv6 addresses, and the round trip over both families.
-/

import Crabc.Lib.Buffer
import Crabc.Libc.InetText

namespace Crabc.Libc

open Crabc.Lib

/-! ## Numerals -/

section

open List Nat

variable {rest octets address destination : List UInt8} {byte octet : UInt8} {rounds component : Nat}
  {s : Ipv6Scan} {words : List UInt16} {digit : UInt8 → Option Nat}

theorem readByte_append (front : List UInt8) : readByte (front ++ rest) front.length = readByte rest 0 := by
  rw [readByte, readByte, getD_eq_getElem?_getD, getD_eq_getElem?_getD, getElem?_append_right .refl, Nat.sub_self]

theorem readByte_nil : readByte [] 0 = 0 := rfl

theorem readByte_cons : readByte (byte :: rest) 0 = byte := rfl

/-- Digits are read up to a byte that is no digit. -/
theorem scanDigits_map (base : Nat) {digits : List Nat}
    (hdigits : ∀ d ∈ digits, digit (digitByte d) = some d) (hrest : digit (readByte rest 0) = none)
    (front : List UInt8) (rounds value : Nat) (hrounds : digits.length ≤ rounds) :
    scanDigits digit base (front ++ (digits.map digitByte ++ rest)) rounds value front.length =
      (digitsValue base value digits, front.length + digits.length) := by
  induction digits generalizing front rounds value with
  | nil =>
    cases rounds with
    | zero => rfl
    | succ rounds =>
      rw [scanDigits, readByte_append, map_nil, nil_append, hrest]
      rfl
  | cons d digits ih =>
    cases rounds with
    | zero => cases hrounds
    | succ rounds =>
      have hd := hdigits d mem_cons_self
      have hsplit : front ++ ((d :: digits).map digitByte ++ rest) =
          (front ++ [digitByte d]) ++ (digits.map digitByte ++ rest) := by simp
      have hih := ih (fun d' hd' => hdigits d' (mem_cons_of_mem _ hd'))
        (front ++ [digitByte d]) rounds (base * value + d) (le_of_succ_le_succ hrounds)
      rw [← hsplit, length_append, length_singleton] at hih
      rw [scanDigits, readByte_append,
        show readByte ((d :: digits).map digitByte ++ rest) 0 = digitByte d from rfl, hd]
      dsimp only
      rw [hih, length_cons, digitsValue, digitsValue, foldl_cons]
      congr 1
      omega

theorem decimalDigit_digitByte : ∀ d < 10, decimalDigit (digitByte d) = some d := by decide

theorem hexValue_digitByte : ∀ d < 16, hexValue (digitByte d) = some d := by decide

/-- A whole numeral is read. -/
theorem scanDigits_numeral (base : Nat) {n : Nat} (hbase : 1 < base) (hdigit : ∀ d < base, digit (digitByte d) = some d)
    (hrest : digit (readByte rest 0) = none) (hrounds : (numeral base n).length ≤ rounds) :
    scanDigits digit base (numeral base n ++ rest) rounds 0 0 = (n, (numeral base n).length) := by
  obtain ⟨digits, htext, hdigits⟩ := numeral_digits hbase n
  rw [htext, length_map] at hrounds
  have hscan := scanDigits_map base (fun d hd => hdigit d (hdigits.lt d hd)) hrest [] rounds 0 hrounds
  rw [nil_append, length_nil, zero_add, hdigits.value] at hscan
  rw [htext, hscan, length_map]

theorem length_numeral_word (word : UInt16) : (numeral 16 word.toNat).length ≤ 4 :=
  length_numeral_le (by omega) word.toNat_lt

theorem length_numeral_octet (octet : UInt8) : (numeral 10 octet.toNat).length ≤ 3 :=
  length_numeral_le (by omega) (lt_trans octet.toNat_lt (by omega))

/-! ## Dotted decimal texts -/

/-- No numeral of more than one digit starts with a zero. -/
theorem numeral_leading : ¬ ((numeral 10 octet.toNat).length > 1 ∧
      readByte (numeral 10 octet.toNat ++ rest) 0 = 48) := by
  rintro ⟨hlength, hfirst⟩
  by_cases hzero : octet.toNat = 0
  · rw [hzero] at hlength
    exact absurd hlength (by decide)
  · obtain ⟨byte, tail, htext, hbyte⟩ := numeral_head 10 (by omega) (by omega) hzero
    rw [htext] at hfirst
    exact hbyte.2 hfirst

/-- The test of a component passes. -/
theorem component_ok : ¬ ((numeral 10 octet.toNat).length = 0 ∨
      ((numeral 10 octet.toNat).length > 1 ∧
        readByte (numeral 10 octet.toNat ++ rest) 0 = 48) ∨ octet.toNat > 255) := by
  have hlt : octet.toNat < 256 := octet.toNat_lt
  have hne := length_pos_of_ne_nil (numeral_ne_nil (by omega : 1 < 10) octet.toNat)
  rintro (hzero | hleading | hlarge)
  · omega
  · exact numeral_leading hleading
  · omega

theorem drop_delimiter (front : List UInt8) : (front ++ byte :: rest).drop (front.length + 1) = rest := by
  rw [← drop_drop, drop_left]
  rfl

theorem ptonIpv4Loop_dot : ptonIpv4Loop (rounds + 1) component (numeral 10 octet.toNat ++ 46 :: rest) destination =
      ptonIpv4Loop rounds (component + 1) rest (destination.set component octet) := by
  have hrest : decimalDigit (readByte (46 :: rest) 0) = none := rfl
  rw [ptonIpv4Loop, scanDigits_numeral 10 (by omega) decimalDigit_digitByte hrest
    (length_numeral_octet octet)]
  dsimp only
  rw [if_neg component_ok, readByte_append, UInt8.ofNat_toNat, readByte_cons,
    if_neg fun h => absurd h.1 (by decide), if_neg (by decide), drop_delimiter]

theorem ptonIpv4Loop_end :
    ptonIpv4Loop (rounds + 1) 3 (numeral 10 octet.toNat) destination = (1, destination.set 3 octet) := by
  have hrest : decimalDigit (readByte [] 0) = none := rfl
  rw [← append_nil (numeral 10 octet.toNat), ptonIpv4Loop,
    scanDigits_numeral 10 (by omega) decimalDigit_digitByte hrest (length_numeral_octet octet)]
  dsimp only
  rw [if_neg component_ok, readByte_append, UInt8.ofNat_toNat, readByte_nil, if_pos ⟨rfl, rfl⟩]

theorem dottedQuad_four (a b c d : UInt8) : dottedQuad [a, b, c, d] = numeral 10 a.toNat ++ 46 ::
      (numeral 10 b.toNat ++ 46 :: (numeral 10 c.toNat ++ 46 :: numeral 10 d.toNat)) := by
  simp [dottedQuad, intercalate_cons_cons]

/-- The four octets of a dotted text are read into the destination. -/
theorem inetPtonIpv4_dottedQuad (hoctets : octets.length = 4) (hroom : 4 ≤ destination.length) :
    inetPtonIpv4 (dottedQuad octets) destination = (1, octets ++ destination.drop 4) := by
  match octets, hoctets, destination, hroom with
  | [a, b, c, d], _, _ :: _ :: _ :: _ :: rest, _ =>
    rw [dottedQuad_four, inetPtonIpv4, ptonIpv4Loop_dot, ptonIpv4Loop_dot, ptonIpv4Loop_dot, ptonIpv4Loop_end]
    rfl

/-! ## Words of IPv6 texts -/

theorem readByte_field (field : Field) (hfield : field.text ≠ []) (rest : List UInt8) :
    readByte (field.text ++ rest) 0 ≠ 58 ∧ readByte (field.text ++ rest) 0 ≠ 0 := by
  obtain ⟨byte, bytes, htext⟩ := exists_cons_of_ne_nil hfield
  have hinner := field.inner_text byte (by rw [htext]; exact mem_cons_self)
  rw [htext]
  exact ⟨hinner.2, hinner.1⟩

open Ipv6Scan

/-- A round on a field reads a word. -/
theorem Ipv6Scan.round_field (field : Field) (hfield : field.text ≠ [])
    (hsource : s.source = field.text ++ rest) : s.round = s.word := by
  rw [round, hsource, if_neg fun h => (readByte_field field hfield rest).1 h.1]

open UInt16

section Words

variable {words front : List UInt16} {breakIndex : Option Nat} (word : UInt16)

/-- The state in which `front` has been read. -/
def scanState (words front : List UInt16) (breakIndex : Option Nat) (source : List UInt8) :
    Ipv6Scan :=
  { words, index := front.length, breakIndex, source }

/-- A word that a colon follows. -/
theorem ptonIpv6Loop_colon (hroom : front.length < 7) : ptonIpv6Loop (rounds + 1)
        (scanState words front breakIndex (numeral 16 word.toNat ++ 58 :: rest)) =
      ptonIpv6Loop rounds
        (scanState (words.set front.length word) (front ++ [word]) breakIndex rest) := by
  have hrest : hexValue (readByte (58 :: rest) 0) = none := by
    show hexValue 58 = none
    decide
  have hne := numeral_ne_nil (by omega : 1 < 16) word.toNat
  have hpos := length_pos_of_ne_nil hne
  rw [ptonIpv6Loop, round_field (.word word) hne rfl, Ipv6Scan.word, scanState]
  rw [scanDigits_numeral 16 (by omega) hexValue_digitByte hrest (length_numeral_word word)]
  dsimp only
  rw [if_neg (by omega), readByte_append, readByte_cons, if_neg fun h => absurd h.1 (by decide),
    if_neg (by omega), if_neg (by decide), drop_delimiter, UInt16.ofNat_toNat,
    mod_eq_of_lt (by omega : front.length < 8)]
  rw [scanState, length_append]
  rfl

/-- The last word of the text. -/
theorem ptonIpv6Loop_end (hroom : front.length < 8) (hend : breakIndex.isSome ∨ front.length = 7) :
    ptonIpv6Loop (rounds + 1) (scanState words front breakIndex (numeral 16 word.toNat)) =
      some ({ words := words.set front.length word, index := front.length, breakIndex,
              source := numeral 16 word.toNat }, false) := by
  have hrest : hexValue (readByte [] 0) = none := by
    show hexValue 0 = none
    decide
  have hne := numeral_ne_nil (by omega : 1 < 16) word.toNat
  have hpos := length_pos_of_ne_nil hne
  rw [← append_nil (numeral 16 word.toNat), ptonIpv6Loop, round_field (.word word) hne rfl, Ipv6Scan.word, scanState]
  rw [scanDigits_numeral 16 (by omega) hexValue_digitByte hrest (length_numeral_word word)]
  dsimp only
  rw [if_neg (by omega), readByte_append, readByte_nil, if_pos ⟨rfl, hend⟩, UInt16.ofNat_toNat, mod_eq_of_lt hroom]

/-- Words with a colon behind each. -/
def colonWords (words : List UInt16) : List UInt8 :=
  words.flatMap fun word => numeral 16 word.toNat ++ [58]

/-- Words that colons follow. -/
theorem ptonIpv6Loop_words (breakIndex : Option Nat) (more : List UInt16) (hfilled : Filled words 8 front)
    (hroom : front.length + more.length ≤ 7) (rounds : Nat) (rest : List UInt8) :
    ∃ words', Filled words' 8 (front ++ more) ∧ ptonIpv6Loop (rounds + more.length)
          (scanState words front breakIndex (colonWords more ++ rest)) =
        ptonIpv6Loop rounds (scanState words' (front ++ more) breakIndex rest) := by
  induction more generalizing words front with
  | nil => exact ⟨words, by rwa [append_nil], by rw [append_nil]; rfl⟩
  | cons word more ih =>
    rw [length_cons] at hroom
    have hset := hfilled.set word rfl (by omega)
    obtain ⟨words', hfilled', hloop⟩ := ih hset (by simp; omega)
    rw [append_assoc] at hfilled' hloop
    refine ⟨words', hfilled', ?_⟩
    rw [colonWords, flatMap_cons, append_assoc, append_assoc, length_cons, ← add_assoc]
    exact (ptonIpv6Loop_colon word (by omega)).trans hloop

/-- The second colon of a gap, with words behind it. -/
theorem ptonIpv6Loop_gap (hroom : front.length < 7) (hrest : readByte rest 0 ≠ 0) :
    ptonIpv6Loop (rounds + 1) (scanState words front none (58 :: rest)) = ptonIpv6Loop rounds
        (scanState (words.set front.length 0) (front ++ [0]) (some front.length) rest) := by
  rw [ptonIpv6Loop, Ipv6Scan.round, scanState, if_pos ⟨rfl, rfl⟩, gap]
  dsimp only
  rw [drop_one, tail_cons, if_neg hrest, if_neg (by omega), mod_eq_of_lt (by omega : front.length < 8)]
  rw [scanState, length_append]
  rfl

/-- The second colon of a gap at the end. -/
theorem ptonIpv6Loop_gap_end (hroom : front.length < 8) : ptonIpv6Loop (rounds + 1) (scanState words front none [58]) =
      some ({ words := words.set front.length 0, index := front.length,
              breakIndex := some front.length, source := [] }, false) := by
  rw [ptonIpv6Loop, Ipv6Scan.round, scanState, if_pos ⟨rfl, rfl⟩, gap]
  rw [drop_one, tail_cons, if_pos readByte_nil, mod_eq_of_lt hroom]

/-- An IPv4 address at the end: the round reads its first octet as a word. -/
theorem ptonIpv6Loop_quad (words front : List UInt16) (breakIndex : Option Nat) (a b c d : UInt8)
    (hroom : front.length < 7)
    (hgap : breakIndex.isSome) (rounds : Nat) : ∃ first, ptonIpv6Loop (rounds + 1)
        (scanState words front breakIndex (dottedQuad [a, b, c, d])) =
      some ({ words := (words.set front.length first).set (front.length + 1) 0,
              index := front.length + 1, breakIndex, source := dottedQuad [a, b, c, d] }, true) := by
  obtain ⟨digits, htext, hdigits⟩ := numeral_digits (by omega : 1 < 10) a.toNat
  have hpos := length_pos_of_ne_nil (numeral_ne_nil (by omega : 1 < 10) a.toNat)
  have hlength := length_numeral_octet a
  have hlen : digits.length = (numeral 10 a.toNat).length := by rw [htext, length_map]
  have hrest (rest : List UInt8) : hexValue (readByte (46 :: rest) 0) = none := by
    show hexValue 46 = none
    decide
  have hscan (rest : List UInt8) := scanDigits_map 16
    (fun d hd => hexValue_digitByte d (lt_trans (hdigits.lt d hd) (by omega))) (hrest rest) [] 4 0
    (by omega)
  simp only [nil_append, length_nil, zero_add, ← htext] at hscan
  have hsource : dottedQuad [a, b, c, d] = (Field.quad [a, b, c, d]).text ++ [] :=
    (append_nil _).symm
  refine ⟨ofNat (digitsValue 16 0 digits), ?_⟩
  rw [ptonIpv6Loop, round_field (.quad [a, b, c, d]) (Field.text_ne_nil nofun) hsource, Ipv6Scan.word, scanState]
  rw [dottedQuad_four, hscan]
  dsimp only
  rw [hlen, if_neg (by omega), readByte_append, readByte_cons, if_neg fun h => absurd h.1 (by decide),
    if_neg (by omega), if_pos (by decide), if_neg, mod_eq_of_lt (by omega),
    mod_eq_of_lt (by omega)]
  rintro (hne | ⟨-, hnone⟩)
  · exact hne rfl
  · rw [hnone] at hgap
    cases hgap

end Words

/-! ## The gap -/

/-- The words behind the gap are moved to the end. -/
theorem expandGap_filled {front back : List UInt16} (hfilled : Filled s.words 8 (front ++ back))
    (hbreak : s.breakIndex = some front.length) (hindex : s.index + 1 = front.length + back.length) :
    expandGap s = front ++ replicate (7 - s.index) 0 ++ back := by
  have hle := hfilled.le
  rw [length_append] at hle
  have hdst : front.length + 7 - s.index = front.length + (7 - s.index) := by omega
  have hcount : s.index + 1 - front.length = back.length := by omega
  rw [expandGap, hbreak]
  dsimp only
  rw [hdst, hcount]
  exact fillAt_moveUp hfilled.front (by rw [hfilled.length]; omega)

theorem length_wordBytes (words : List UInt16) : (wordBytes words).length = 2 * words.length := by
  induction words with
  | nil => rfl
  | cons word words ih =>
    rw [wordBytes, flatMap_cons, length_append, ← wordBytes, ih, length_cons]
    simp
    omega

/-! ## Whole texts -/

theorem joined_words_concat (words : List UInt16) (field : Field) :
    joined (words.map .word ++ [field]) = colonWords words ++ field.text := by
  induction words with
  | nil =>
    exact append_nil _
  | cons word words ih =>
    obtain ⟨next, fields, hfields⟩ := exists_cons_of_ne_nil
      (append_ne_nil_of_right_ne_nil (words.map Field.word) (cons_ne_nil field []))
    rw [hfields] at ih
    rw [map_cons, cons_append, joined_cons, hfields, tailText_cons, ih, colonWords,
      colonWords, flatMap_cons, append_assoc, append_assoc]
    rfl

theorem exists_concat (hne : words ≠ []) : ∃ front last, words = front ++ [last] :=
  ⟨words.dropLast, words.getLast hne, (dropLast_append_getLast hne).symm⟩

theorem joined_words_colon (hne : words ≠ []) : joined (words.map .word) ++ 58 :: rest = colonWords words ++ rest := by
  obtain ⟨front, last, rfl⟩ := exists_concat hne
  rw [map_append, map_singleton, joined_words_concat, colonWords, colonWords,
    flatMap_append, append_assoc, append_assoc, flatMap_singleton,
    append_assoc]
  rfl

/-- A text that starts with a word. -/
theorem inetPtonIpv6_word (word : UInt16) : inetPtonIpv6 (numeral 16 word.toNat ++ rest) destination =
      ptonIpv6Scan (numeral 16 word.toNat ++ rest) destination := by
  have hfirst := readByte_field (.word word) (numeral_ne_nil (by omega) word.toNat) rest
  exact if_neg hfirst.1

/-- The loop starts at the words before the gap. -/
theorem inetPtonIpv6_gap (front : List UInt16) :
    inetPtonIpv6 (joined (front.map .word) ++ [58, 58] ++ rest) destination =
      ptonIpv6Scan (colonWords front ++ 58 :: rest) destination := by
  cases front with
  | nil => rfl
  | cons word front =>
    have htext : joined ((word :: front).map .word) ++ [58, 58] ++ rest = colonWords (word :: front) ++ 58 :: rest := by
      rw [append_assoc]
      exact joined_words_colon (cons_ne_nil _ _)
    rw [htext, colonWords, flatMap_cons, append_assoc, append_assoc, inetPtonIpv6_word]

theorem filled_zeros : Filled (replicate 8 (0 : UInt16)) 8 [] := filled_nil

/-- What is left of the rounds. -/
theorem ptonIpv6Scan_of_loop {source : List UInt8} {tail : Bool} (hrounds : rounds = 8)
    (hloop : ptonIpv6Loop rounds (scanState (replicate 8 0) [] none source) = some (s, tail)) :
    ptonIpv6Scan source destination = ptonIpv6Finish s tail destination := by
  subst hrounds
  rw [ptonIpv6Scan, show ptonIpv6Loop 8 ⟨replicate 8 0, 0, none, source⟩ = some (s, tail) from hloop]

/-- Finishing without an IPv4 address. -/
theorem ptonIpv6Finish_words (hwords : expandGap s = words) (hlength : words.length = 8) :
    ptonIpv6Finish s false destination = (1, wordBytes words ++ destination.drop 16) := by
  rw [ptonIpv6Finish, hwords]
  rw [if_neg Bool.false_ne_true, length_wordBytes, hlength]

/-- Eight words are read. -/
theorem inetPtonIpv6_words (hwords : words.length = 8) :
    inetPtonIpv6 (joined (words.map .word)) destination = (1, wordBytes words ++ destination.drop 16) := by
  obtain ⟨front, last, rfl⟩ := exists_concat (ne_nil_of_length_pos (by omega : 0 < words.length))
  have hfront : front.length = 7 := by simpa using hwords
  obtain ⟨words', hfilled, hloop⟩ := ptonIpv6Loop_words none front filled_zeros
    (by rw [hfront]; exact le_refl 7) 1 (numeral 16 last.toNat)
  rw [nil_append] at hfilled hloop
  rw [ptonIpv6Loop_end last (by omega) (.inr hfront)] at hloop
  have hset := hfilled.set last rfl (by omega)
  have hstart : inetPtonIpv6 (colonWords front ++ numeral 16 last.toNat) destination =
      ptonIpv6Scan (colonWords front ++ numeral 16 last.toNat) destination := by
    match front, hfront with
    | word :: front, _ =>
      rw [colonWords, flatMap_cons, append_assoc, append_assoc, inetPtonIpv6_word]
  rw [map_append, map_singleton, joined_words_concat]
  show inetPtonIpv6 (colonWords front ++ numeral 16 last.toNat) destination = _
  rw [hstart, ptonIpv6Scan_of_loop (by omega) hloop]
  apply ptonIpv6Finish_words _ hwords
  exact hset.eq hwords

/-- Words and a field do not start with the terminator. -/
theorem readByte_colonWords (words : List UInt16) (field : Field) (hfield : field.text ≠ []) :
    readByte (colonWords words ++ field.text) 0 ≠ 0 := by
  cases words with
  | nil =>
    have hfirst := readByte_field field hfield []
    rw [append_nil] at hfirst
    exact hfirst.2
  | cons word words =>
    rw [colonWords, flatMap_cons, append_assoc, append_assoc]
    exact (readByte_field (.word word) (numeral_ne_nil (by omega) _) _).2

/-- The words before a gap, and the gap. -/
theorem ptonIpv6Loop_front (front : List UInt16) (hroom : front.length < 7) (rounds : Nat)
    (hrest : readByte rest 0 ≠ 0) : ∃ words, Filled words 8 (front ++ [0]) ∧ ptonIpv6Loop (rounds + 1 + front.length)
          (scanState (replicate 8 0) [] none (colonWords front ++ 58 :: rest)) =
        ptonIpv6Loop rounds (scanState words (front ++ [0]) (some front.length) rest) := by
  obtain ⟨words, hfilled, hloop⟩ := ptonIpv6Loop_words none front filled_zeros
    (by rw [length_nil]; omega) (rounds + 1) (58 :: rest)
  rw [nil_append] at hfilled hloop
  refine ⟨words.set front.length 0, hfilled.set 0 rfl (by omega), ?_⟩
  rw [hloop, ptonIpv6Loop_gap hroom hrest]

/-- Words before and behind a gap are read. -/
theorem inetPtonIpv6_shortened {front back : List UInt16} (hlength : front.length + back.length ≤ 6) :
    inetPtonIpv6 (joined (front.map .word) ++ [58, 58] ++ joined (back.map .word)) destination =
      (1, wordBytes (front ++ replicate (8 - front.length - back.length) 0 ++ back) ++ destination.drop 16) := by
  have hgap : front ++ replicate (8 - front.length - back.length) 0 ++ back =
      front ++ replicate (7 - front.length - back.length) 0 ++ (0 :: back) := by
    rw [show 8 - front.length - back.length = (7 - front.length - back.length) + 1 by omega,
      replicate_succ', ← append_assoc, append_assoc _ [0]]
    rfl
  have hsum : (front ++ replicate (8 - front.length - back.length) 0 ++ back).length = 8 := by
    simp only [length_append, length_replicate]
    omega
  rw [inetPtonIpv6_gap]
  by_cases hback : back = []
  · subst hback
    obtain ⟨words, hfilled, hloop⟩ := ptonIpv6Loop_words none front filled_zeros
      (by omega) (7 - front.length + 1) [58]
    rw [nil_append] at hfilled hloop
    rw [ptonIpv6Loop_gap_end (by omega)] at hloop
    have hset := hfilled.set 0 rfl (by omega)
    show ptonIpv6Scan (colonWords front ++ [58]) destination = _
    rw [ptonIpv6Scan_of_loop (by omega) hloop]
    exact ptonIpv6Finish_words (hgap ▸ expandGap_filled hset rfl rfl) hsum
  · obtain ⟨middle, last, rfl⟩ := exists_concat hback
    rw [length_append, length_singleton] at hlength
    have hrest : readByte (colonWords middle ++ numeral 16 last.toNat) 0 ≠ 0 :=
      readByte_colonWords middle (.word last) (numeral_ne_nil (by omega) _)
    obtain ⟨words, hfilled, hloop⟩ := ptonIpv6Loop_front front (by omega)
      (6 - front.length - middle.length + 1 + middle.length) hrest
    obtain ⟨words', hfilled', hloop'⟩ := ptonIpv6Loop_words (some front.length) middle hfilled
      (by rw [length_append, length_singleton]; omega)
      (6 - front.length - middle.length + 1) (numeral 16 last.toNat)
    have hindex : (front ++ [0] ++ middle).length = front.length + 1 + middle.length := by
      rw [length_append, length_append, length_singleton]
    rw [hloop', ptonIpv6Loop_end last (by omega) (.inl rfl)] at hloop
    have hset := hfilled'.set last rfl (by omega)
    rw [map_append, map_singleton, joined_words_concat]
    show ptonIpv6Scan (colonWords front ++ 58 :: (colonWords middle ++ numeral 16 last.toNat))
      destination = _
    rw [ptonIpv6Scan_of_loop (by omega) hloop]
    have hwords : front ++ [0] ++ middle ++ [last] = front ++ (0 :: (middle ++ [last])) := by simp
    rw [hwords] at hset
    apply ptonIpv6Finish_words _ hsum
    rw [hgap, expandGap_filled hset rfl (by simp; omega), hindex]
    simp only [length_append, length_singleton]
    congr 3
    omega

/-- Finishing with an IPv4 address, which overwrites the last four bytes. -/
theorem ptonIpv6Finish_quad (hoctets : octets.length = 4) (hwords : (expandGap s).length = 8)
    (hsource : s.source = dottedQuad octets) :
    ptonIpv6Finish s true destination = (1, (wordBytes (expandGap s)).take 12 ++ (octets ++ destination.drop 16)) := by
  have hbytes := length_wordBytes (expandGap s)
  rw [hwords] at hbytes
  have hdrop : (wordBytes (expandGap s) ++ destination.drop 16).drop 12 =
      (wordBytes (expandGap s)).drop 12 ++ destination.drop 16 := drop_append_of_le_length (by omega)
  have hrest : ((wordBytes (expandGap s)).drop 12 ++ destination.drop 16).drop 4 =
      destination.drop 16 := drop_left' (by rw [length_drop]; omega)
  have hroom : 4 ≤ ((wordBytes (expandGap s)).drop 12 ++ destination.drop 16).length := by
    rw [length_append, length_drop]
    omega
  rw [ptonIpv6Finish]
  rw [if_pos rfl, hbytes, hsource, hdrop, inetPtonIpv4_dottedQuad hoctets hroom, hrest,
    take_append_of_le_length (by omega)]
  exact if_neg (show ¬ (1 : Int) ≤ 0 by decide)

/-- The text of a mapped address is read. -/
theorem inetPtonIpv6_mapped (hoctets : octets.length = 4) (destination : List UInt8) :
    inetPtonIpv6 ([58, 58] ++ joined [.word 65535, .quad octets]) destination =
      (1, replicate 10 0 ++ [255, 255] ++ (octets ++ destination.drop 16)) := by
  match octets, hoctets with
  | [a, b, c, d], _ =>
    have hrest : readByte (colonWords [65535] ++ dottedQuad [a, b, c, d]) 0 ≠ 0 :=
      readByte_colonWords [65535] (.quad [a, b, c, d]) (Field.text_ne_nil nofun)
    obtain ⟨words, hfilled, hloop⟩ := ptonIpv6Loop_front [] (by decide) 7 hrest
    obtain ⟨words', hfilled', hloop'⟩ := ptonIpv6Loop_words (some 0) [65535] hfilled (by decide) 6
      (dottedQuad [a, b, c, d])
    obtain ⟨first, hquad⟩ := ptonIpv6Loop_quad words' [0, 65535] (some 0) a b c d (by decide) rfl 5
    have hset : Filled ((words'.set 2 first).set 3 0) 8 ([] ++ [0, 65535, first, 0]) :=
      (hfilled'.set first rfl (by decide)).set 0 rfl (by simp)
    have hexpand : expandGap ⟨(words'.set 2 first).set 3 0, 3, some 0, dottedQuad [a, b, c, d]⟩ =
        [0, 0, 0, 0, 0, 65535, first, 0] := by
      rw [expandGap_filled (s := ⟨_, 3, some 0, _⟩) hset rfl rfl]
      rfl
    have htext : [58, 58] ++ joined [.word 65535, .quad [a, b, c, d]] =
        joined (([] : List UInt16).map .word) ++ [58, 58] ++ (colonWords [65535] ++ dottedQuad [a, b, c, d]) :=
      congrArg ([58, 58] ++ ·) (joined_words_concat [65535] (.quad [a, b, c, d]))
    rw [htext, inetPtonIpv6_gap, ptonIpv6Scan_of_loop rfl ((hloop.trans hloop').trans hquad)]
    refine (ptonIpv6Finish_quad rfl (congrArg length hexpand) rfl).trans ?_
    rw [hexpand]
    rfl

/-! ## The round trip -/

theorem word_bytes (high low : UInt8) : wordBytes [ofNat (high.toNat * 256 + low.toNat)] = [high, low] := by
  have hhigh : high.toNat < 256 := high.toNat_lt
  have hlow : low.toNat < 256 := low.toNat_lt
  have hword : (ofNat (high.toNat * 256 + low.toNat)).toNat = high.toNat * 256 + low.toNat := by
    rw [toNat_ofNat']
    omega
  have hfirst : (ofNat (high.toNat * 256 + low.toNat) >>> 8).toUInt8 = high := by
    apply UInt8.toNat_inj.mp
    rw [toNat_toUInt8, UInt16.toNat_shiftRight, hword]
    show (high.toNat * 256 + low.toNat) >>> 8 % 256 = high.toNat
    omega
  have hsecond : (ofNat (high.toNat * 256 + low.toNat)).toUInt8 = low := by
    apply UInt8.toNat_inj.mp
    rw [toNat_toUInt8, hword]
    omega
  show [(ofNat _ >>> 8).toUInt8, (ofNat _).toUInt8] = [high, low]
  rw [hfirst, hsecond]

theorem wordBytes_networkWords (address : List UInt8) (count : Nat) (hcount : 2 * count ≤ address.length) :
    wordBytes (networkWords address count) = address.take (2 * count) := by
  induction count with
  | zero => rfl
  | succ count ih =>
    have hhigh : 2 * count < address.length := by omega
    have hlow : 2 * count + 1 < address.length := by omega
    have hword : wordBytes [networkWord address count] = [address[2 * count], address[2 * count + 1]] := by
      rw [networkWord, word_bytes, getD_eq_getElem?_getD, getD_eq_getElem?_getD,
        getElem?_eq_getElem hhigh, getElem?_eq_getElem hlow]
      rfl
    rw [networkWords, range_succ, map_append, wordBytes, flatMap_append,
      ← wordBytes, ← networkWords, ih (by omega), map_singleton, ← wordBytes, hword,
      show 2 * (count + 1) = 2 * count + 1 + 1 by omega, take_succ_eq_append_getElem hlow,
      take_succ_eq_append_getElem hhigh, append_assoc]
    rfl

theorem networkWords_mapped (h : IsMapped address) : networkWords address 6 = [0, 0, 0, 0, 0, 65535] := by
  have hzero : ∀ index < 5, networkWord address index = 0 := by
    intro index hindex
    rw [networkWord, h.1 _ (by omega), h.1 _ (by omega)]
    rfl
  show [networkWord address 0, networkWord address 1, networkWord address 2,
    networkWord address 3, networkWord address 4, networkWord address 5] = _
  rw [hzero 0 (by omega), hzero 1 (by omega), hzero 2 (by omega), hzero 3 (by omega),
    hzero 4 (by omega), networkWord_mapped h]

/-- A mapped address is its first twelve bytes and its octets. -/
theorem eq_of_isMapped (hlen : address.length = 16) (h : IsMapped address) :
    address = replicate 10 0 ++ [255, 255] ++ address.drop 12 := by
  have htake : address.take 12 = replicate 10 0 ++ [255, 255] := by
    rw [← wordBytes_networkWords address 6 (by omega), networkWords_mapped h]
    rfl
  rw [← htake, take_append_drop]

theorem isRun_mapped : IsRun Field.isZero
      (([0, 0, 0, 0, 0, 65535] : List UInt16).map .word ++ [.quad octets]) 0 5 :=
  isRun_iff.mpr ⟨by show 5 ≤ 7; omega, by show 5 ≤ 5; omega⟩

/-- The run of a mapped address is its five zero words. -/
theorem longestRun_mapped {s l : Nat}
    (hrun : LongestRun Field.isZero (([0, 0, 0, 0, 0, 65535] : List UInt16).map .word ++ [.quad octets]) s l) :
    s = 0 ∧ l = 5 := by
  have hle := hrun.longest 0 5 isRun_mapped
  have hinside : s + l ≤ 7 := hrun.inside
  -- the sixth field is not zero
  have hend : s + l ≤ 5 := by
    by_contra hlt
    obtain ⟨field, hfield, hzero⟩ := hrun.all 5 (by omega) (by omega)
    cases hfield
    cases hzero
  omega

/-- The canonical text of an address is read as the address. -/
theorem inetPtonIpv6_canonical {text : List UInt8} (hlen : address.length = 16)
    (htext : CanonicalText (ipv6Fields address) text) :
    inetPtonIpv6 text destination = (1, address ++ destination.drop 16) := by
  rw [ipv6Fields] at htext
  split at htext
  case isTrue hmapped =>
    have hoctets : (address.drop 12).length = 4 := by rw [length_drop, hlen]
    rw [networkWords_mapped hmapped] at htext
    cases htext with
    | plain hnone =>
      have hshort := hnone 0 5 isRun_mapped
      omega
    | shortened htwo hrun =>
      obtain ⟨rfl, rfl⟩ := longestRun_mapped hrun
      have hparse := inetPtonIpv6_mapped hoctets destination
      rw [← append_assoc, ← eq_of_isMapped hlen hmapped] at hparse
      exact hparse
  case isFalse =>
    have hbytes : wordBytes (networkWords address 8) = address := by
      rw [wordBytes_networkWords address 8 (by omega), take_of_length_le (by omega)]
    have hwords : (networkWords address 8).length = 8 := by simp [networkWords]
    cases htext with
    | plain hnone => rw [inetPtonIpv6_words hwords, hbytes]
    | @shortened s l htwo hrun =>
      have hinside := hrun.inside
      rw [length_map, hwords] at hinside
      have hzeros : ((networkWords address 8).drop s).take l = replicate l 0 := by
        have hfields := hrun.toIsRun.eq_replicate fun _ => Field.eq_zero
        rw [← map_drop, ← map_take, ← map_replicate] at hfields
        exact (map_inj_right fun _ _ => Field.word.inj).mp hfields
      have hfront : ((networkWords address 8).take s).length = s := by
        rw [length_take, hwords]
        omega
      have hback : ((networkWords address 8).drop (s + l)).length = 8 - (s + l) := by rw [length_drop, hwords]
      rw [← map_take, ← map_drop, inetPtonIpv6_shortened (by omega), hfront, hback,
        show 8 - s - (8 - (s + l)) = l by omega, ← hzeros, ← eq_append_stretch, hbytes]

/-- The text of the address, as the two functions exchange it. -/
structure RoundTrips (family : Int) (address text : List UInt8) : Prop where
  /-- With room for the text and its terminator, it is rendered. -/
  renders : ∀ length m, text.length < length → inetNtop family address length m = (true, m.write (text ++ [0]))
  /-- With less room there is an error. -/
  refuses : ∀ length m, length ≤ text.length → (inetNtop family address length m).1 = false ∧
      (inetNtop family address length m).2.errno = noSpace
  /-- The text is a C string. -/
  terminated : ∀ byte ∈ text, byte ≠ 0
  /-- The text is accepted, and gives the bytes of the address. -/
  parses : ∀ m : CallerMemory, address.length ≤ m.destination.length → inetPton family text m = (1, m.write address)

theorem roundTrips_ipv4 (hlen : octets.length = 4) : RoundTrips afInet octets (dottedQuad octets) where
  renders length m hlength := by
    rw [inetNtop, if_pos rfl, writeIpv4Text_eq hlen]
    rw [if_pos hlength, snprintfIpv4Copy, if_neg (by omega), min_eq_left (by omega), take_length]
  refuses length m hlength := by
    rw [inetNtop, if_pos rfl, writeIpv4Text_eq hlen]
    rw [if_neg (by omega)]
    exact ⟨rfl, rfl⟩
  terminated byte hbyte := (inner_dottedQuad byte hbyte).1
  parses m hroom := by
    rw [inetPton, if_pos rfl, inetPtonIpv4_dottedQuad hlen (hlen ▸ hroom)]
    rw [CallerMemory.write, hlen]

theorem roundTrips_ipv6 (hlen : address.length = 16) : RoundTrips afInet6 address (renderIpv6 address) where
  renders length m hlength := by
    rw [inetNtop, if_neg (by decide), if_pos rfl]
    rw [if_pos hlength]
  refuses length m hlength := by
    rw [inetNtop, if_neg (by decide), if_pos rfl]
    rw [if_neg (by omega)]
    exact ⟨rfl, rfl⟩
  terminated byte hbyte := by
    exact of_decide_eq_true (all_eq_true.mp all_takeWhile byte hbyte)
  parses m hroom := by
    rw [inetPton, if_neg (by decide), if_pos rfl, inetPtonIpv6_canonical hlen (canonicalText_renderIpv6 hlen)]
    rw [CallerMemory.write, hlen]

end

/-- **The round trip.**  Every address of either family is rendered as its canonical
    text, and that text is read as the address. -/
theorem inetNtop_inetPton_roundTrips :
    (∀ octets : Vector UInt8 4, RoundTrips afInet octets.toList (dottedQuad octets.toList)) ∧
      ∀ address : Vector UInt8 16, ∃ text, CanonicalText (ipv6Fields address.toList) text ∧
        RoundTrips afInet6 address.toList text :=
  ⟨fun octets => roundTrips_ipv4 octets.length_toList, fun address =>
    ⟨renderIpv6 address.toList, canonicalText_renderIpv6 address.length_toList, roundTrips_ipv6 address.length_toList⟩⟩

end Crabc.Libc
