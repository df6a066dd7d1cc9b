/-
  Crabc.Libc.Locale

  What the C matchers see of the locale: the wide character classes and case maps of
  `wide_character.rs` and the decoder behind `mbtowc` of `locale_multibyte.rs`.

  The Unicode tables are embedded for the first 256 characters and are a parameter for
  the blocks above.
-/

import Crabc.Lib.Byte

namespace Crabc.Libc

open Crabc.Lib

/-! ## Wide characters -/

/-- The tables of `wide_character_tables.rs` for the characters from 0x100 to 0x1ffff. -/
structure WideTables where
  alpha : UInt32 → Bool
  punct : UInt32 → Bool
  caseMap : UInt32 → UInt32 → UInt32

/-- The first block of `ALPHA`. -/
def alphaBlock : List UInt8 :=
  [0, 0, 0, 0, 0, 0, 0, 0, 254, 255, 255, 7, 254, 255, 255, 7,
   0, 0, 0, 0, 0, 4, 32, 4, 255, 255, 127, 255, 255, 255, 127, 255]

/-- The first block of `PUNCT`. -/
def punctBlock : List UInt8 :=
  [0, 0, 0, 0, 254, 255, 0, 252, 1, 0, 0, 248, 1, 0, 0, 120, 0, 0, 0, 0, 255, 251, 223, 251, 0, 0, 128, 0, 0, 0, 128, 0]

/-- The first block of `CASE_TAB`: three vectors a byte, in base six. -/
def caseBlock : List UInt32 :=
  [0, 0, 0, 0, 0, 0, 0, 0, 0, 0, 0, 0, 0, 0, 0, 0, 0, 0, 0, 0, 0, 36, 43, 43, 43, 43, 43, 43, 43,
   43, 1, 0, 84, 86, 86, 86, 86, 86, 86, 86, 86, 0, 0, 0, 0, 0, 0, 0, 0, 0, 0, 0, 0, 0, 0, 0, 0,
   0, 0, 0, 24, 0, 0, 0, 43, 43, 43, 43, 43, 43, 43, 7, 43, 43, 91, 86, 86, 86, 86, 86, 86, 86,
   74, 86, 86, 5]

/-- The rules of that block: its part of `CASE_RULES`. -/
def caseRules : List Int := [0, 8193, -8192, 1949440, 190208, 30976]

/-- `property`. -/
def property (block : List UInt8) (blocks : UInt32 → Bool) (character : UInt32) : Bool :=
  if character < 0x100 then
    (block.getD (character >>> 3).toNat 0 >>> (character &&& 7).toUInt8) &&& 1 != 0
  else blocks character

/-- `case_map`; no rule of the first block refers to the exceptions. -/
def caseMap (tables : WideTables) (character direction : UInt32) : UInt32 :=
  if 0x20000 ≤ character then character
  else if character < 0x100 then
    let shift : UInt32 := [2048, 342, 57].getD (character % 3).toNat 0
    let vector := ((caseBlock.getD (character / 3).toNat 0 * shift) >>> 11) % 6
    let rule := caseRules.getD vector.toNat 0
    if rule % 256 = direction.toNat then character else character + UInt32.ofInt (rule / 256)
  else tables.caseMap character direction

def towlower (tables : WideTables) (character : UInt32) : UInt32 := caseMap tables character 0

def towupper (tables : WideTables) (character : UInt32) : UInt32 := caseMap tables character 1

def iswalpha (tables : WideTables) (character : UInt32) : Bool :=
  if character < 0x20000 then property alphaBlock tables.alpha character
  else character < 0x2fffe

def iswdigit (character : UInt32) : Bool := character - 0x30 < 10

def iswalnum (tables : WideTables) (character : UInt32) : Bool :=
  iswdigit character || iswalpha tables character

def iswblank (character : UInt32) : Bool := character == 0x20 || character == 0x09

def iswcntrl (character : UInt32) : Bool :=
  character < 32 || character - 0x7f < 33 || character - 0x2028 < 2 || character - 0xfff9 < 3

def iswprint (character : UInt32) : Bool :=
  if character < 0xff then ((character + 1) &&& 0x7f) ≥ 0x21
  else if character < 0x2028 ∨ character - 0x202a < 0xd800 - 0x202a ∨ character - 0xe000 < 0xfff9 - 0xe000 then true
  else if character - 0xfffc > 0x10ffff - 0xfffc ∨ character &&& 0xfffe = 0xfffe then false
  else true

def iswspace (character : UInt32) : Bool :=
  character == 0x20 || character == 0x09 || character == 0x0a || character == 0x0d ||
    character == 0x0b || character == 0x0c || character == 0x85 ||
    (0x2000 ≤ character && character ≤ 0x2006) || (0x2008 ≤ character && character ≤ 0x200a) ||
    character == 0x2028 || character == 0x2029 || character == 0x205f || character == 0x3000

def iswgraph (character : UInt32) : Bool := !iswspace character && iswprint character

def iswlower (tables : WideTables) (character : UInt32) : Bool :=
  towupper tables character != character

def iswupper (tables : WideTables) (character : UInt32) : Bool :=
  towlower tables character != character

def iswpunct (tables : WideTables) (character : UInt32) : Bool :=
  character < 0x20000 && property punctBlock tables.punct character

def iswxdigit (character : UInt32) : Bool :=
  character - 0x30 < 10 || (character ||| 32) - 0x61 < 6

/-- `WCTYPE_ALNUM` to `WCTYPE_XDIGIT`. -/
inductive WideClass where
  | alnum | alpha | blank | cntrl | digit | graph
  | lower | print | punct | space | upper | xdigit
deriving DecidableEq, Repr

/-- `NAMES`, the byte strings of the source. -/
def wideClassNames : List (List UInt8 × WideClass) :=
  [([0x61, 0x6c, 0x6e, 0x75, 0x6d], .alnum),         -- b"alnum"
   ([0x61, 0x6c, 0x70, 0x68, 0x61], .alpha),         -- b"alpha"
   ([0x62, 0x6c, 0x61, 0x6e, 0x6b], .blank),         -- b"blank"
   ([0x63, 0x6e, 0x74, 0x72, 0x6c], .cntrl),         -- b"cntrl"
   ([0x64, 0x69, 0x67, 0x69, 0x74], .digit),         -- b"digit"
   ([0x67, 0x72, 0x61, 0x70, 0x68], .graph),         -- b"graph"
   ([0x6c, 0x6f, 0x77, 0x65, 0x72], .lower),         -- b"lower"
   ([0x70, 0x72, 0x69, 0x6e, 0x74], .print),         -- b"print"
   ([0x70, 0x75, 0x6e, 0x63, 0x74], .punct),         -- b"punct"
   ([0x73, 0x70, 0x61, 0x63, 0x65], .space),         -- b"space"
   ([0x75, 0x70, 0x70, 0x65, 0x72], .upper),         -- b"upper"
   ([0x78, 0x64, 0x69, 0x67, 0x69, 0x74], .xdigit)]  -- b"xdigit"

/-- `wctype`; `none` is the descriptor 0. -/
def wctype (name : List UInt8) : Option WideClass :=
  (wideClassNames.find? (·.1 == name)).map (·.2)

/-- `iswctype`. -/
def iswctype (tables : WideTables) (character : UInt32) : Option WideClass → Bool
  | some .alnum => iswalnum tables character
  | some .alpha => iswalpha tables character
  | some .blank => iswblank character
  | some .cntrl => iswcntrl character
  | some .digit => iswdigit character
  | some .graph => iswgraph character
  | some .lower => iswlower tables character
  | some .print => iswprint character
  | some .punct => iswpunct tables character
  | some .space => iswspace character
  | some .upper => iswupper tables character
  | some .xdigit => iswxdigit character
  | none => false

/-- `WEOF`. -/
def weof : UInt32 := 0xffffffff

/-- The end-of-file value is in no class. -/
theorem iswctype_weof (tables : WideTables) (class_ : Option WideClass) : iswctype tables weof class_ = false := by
  cases class_ with
  | none => rfl
  | some c => cases c <;> rfl

/-! ## Multibyte characters -/

/-- The locale of a call: `locale_ctype_is_utf8` and the tables. -/
structure Locale where
  utf8 : Bool
  tables : WideTables

/-- The C locale, for text in the first 256 characters. -/
def asciiLocale : Locale := ⟨false, ⟨fun _ => false, fun _ => false, fun character _ => character⟩⟩

/-- `codeunit`: what a byte above 0x7f is in the C locale. -/
def codeunit (byte : UInt8) : UInt32 := 0xdfff &&& byte.toInt8.toInt32.toUInt32

/-- `BITTAB`, for the lead bytes from 0xc2 on. -/
def bittab : List UInt32 :=
  [0xc0000002, 0xc0000003, 0xc0000004, 0xc0000005, 0xc0000006, 0xc0000007, 0xc0000008, 0xc0000009,
   0xc000000a, 0xc000000b, 0xc000000c, 0xc000000d, 0xc000000e, 0xc000000f, 0xc0000010, 0xc0000011,
   0xc0000012, 0xc0000013, 0xc0000014, 0xc0000015, 0xc0000016, 0xc0000017, 0xc0000018, 0xc0000019,
   0xc000001a, 0xc000001b, 0xc000001c, 0xc000001d, 0xc000001e, 0xc000001f, 0xb3000000, 0xc3000001,
   0xc3000002, 0xc3000003, 0xc3000004, 0xc3000005, 0xc3000006, 0xc3000007, 0xc3000008, 0xc3000009,
   0xc300000a, 0xc300000b, 0xc300000c, 0xd300000d, 0xc300000e, 0xc300000f, 0xbb0c0000, 0xc30c0001,
   0xc30c0002, 0xc30c0003, 0xdb0c0004]

/-- `mb_oob`. -/
def mbOob (state : UInt32) (byte : UInt8) : UInt32 :=
  let bucket : UInt32 := (byte >>> 3).toUInt32
  ((bucket - (0x10 : UInt32)) ||| (bucket + (state.toInt32 >>> (26 : Int32)).toUInt32)) &&& ~~~7

/-- How many bytes the decoder looks at, and the character with its length; `none` is `EILSEQ`. -/
structure Decoded where
  looked : Nat
  outcome : Option (UInt32 × Nat)
deriving DecidableEq, Repr

/-- The continuation bytes: `accept` is the test of the next one. -/
def decodeRest (accept : UInt8 → Bool) (state : UInt32) (consumed : Nat) :
    Nat → List UInt8 → Decoded
  | 0, _ => ⟨consumed, none⟩
  | _ + 1, [] => ⟨consumed, none⟩
  | remaining + 1, byte :: rest =>
    if accept byte then
      let next : UInt32 := state <<< 6 ||| (byte - 0x80).toUInt32
      if next &&& 0x80000000 = 0 then ⟨consumed + 1, some (next, consumed + 1)⟩
      else decodeRest (· - 0x80 < 0x40) next (consumed + 1) remaining rest
    else ⟨consumed + 1, none⟩

/-- `mbtowc` at the bytes `bytes`, of which it may look at `count`. -/
def mbtowc (utf8 : Bool) (bytes : List UInt8) (count : Nat) : Decoded :=
  match count, bytes with
  | 0, _ => ⟨0, none⟩
  | _ + 1, [] => ⟨0, none⟩
  | remaining + 1, first :: rest =>
    if first < 0x80 then ⟨1, some (first.toUInt32, if first = 0 then 0 else 1)⟩
    else if !utf8 then ⟨1, some (codeunit first, 1)⟩
    else if first - 0xc2 > 0xf4 - 0xc2 then ⟨1, none⟩
    else
      let state := bittab.getD (first - 0xc2).toNat 0
      decodeRest (mbOob state · == 0) state 1 remaining rest

/-- There is a byte above 0x7f at position `i`. -/
def HighAt (bytes : List UInt8) (i : Nat) : Prop := ∃ byte, bytes[i]? = some byte ∧ 0x80 ≤ byte

/-- What the decoder tells of `bytes`: it looks on only behind bytes above 0x7f, and a
    character it makes of several bytes has such bytes only. -/
structure Decoded.Sound (bytes : List UInt8) (d : Decoded) : Prop where
  looked_le : d.looked ≤ bytes.length
  high : ∀ i, i + 1 < d.looked → HighAt bytes i
  length_pos : ∀ w n, d.outcome = some (w, n) → 0 < n
  highs : ∀ w n, d.outcome = some (w, n) → ∀ i < n, HighAt bytes i
  wide_lt : ∀ w n, d.outcome = some (w, n) → w < 0x80000000

theorem continuation_high (b : UInt8) (h : decide (b - 0x80 < 0x40) = true) : 0x80 ≤ b := by
  revert b
  exact forall_byte (by decide +kernel)

variable {state : UInt32} {bytes : List UInt8}

/-- The continuation bytes, behind a front of bytes above 0x7f. -/
theorem decodeRest_sound {accept : UInt8 → Bool} (haccept : ∀ b, accept b = true → 0x80 ≤ b)
    (front : List UInt8) {remaining : Nat}
    (hfront : ∀ i < front.length, HighAt (front ++ bytes) i) (hpos : 0 < front.length) :
    (decodeRest accept state front.length remaining bytes).Sound (front ++ bytes) := by
  have stopped : (Decoded.mk front.length none).Sound (front ++ bytes) :=
    ⟨by simp, fun i hi => hfront i (by simpa using Nat.lt_of_succ_lt hi), nofun, nofun, nofun⟩
  induction remaining generalizing accept state front bytes with
  | zero =>
    exact stopped
  | succ remaining ih =>
    cases bytes with
    | nil =>
      exact stopped
    | cons byte rest =>
      have hat : (front ++ byte :: rest)[front.length]? = some byte := by simp
      rw [decodeRest]
      split
      · rename_i hok
        -- the byte is one of the character, whether or not the character ends here
        have hfront' : ∀ i < front.length + 1, HighAt (front ++ byte :: rest) i := by
          intro i hi
          rcases Nat.lt_succ_iff_lt_or_eq.mp hi with hi | rfl
          · exact hfront i hi
          · exact ⟨byte, hat, haccept byte hok⟩
        dsimp only
        split
        · rename_i hsign
          refine ⟨by simp, fun i hi => hfront' i (Nat.lt_of_succ_lt hi), ?_, ?_, ?_⟩
          · rintro w n ⟨⟩
            exact Nat.succ_pos _
          · rintro w n ⟨⟩
            exact hfront'
          · rintro w n ⟨⟩
            exact lt_of_and_sign_eq_zero hsign
        · have hassoc : front ++ byte :: rest = (front ++ [byte]) ++ rest := by simp
          have hlen : front.length + 1 = (front ++ [byte]).length := by simp
          rw [hassoc, hlen] at hfront'
          rw [hassoc, hlen]
          apply ih continuation_high (front ++ [byte]) hfront' (by simp)
          exact ⟨by simp, fun i hi => hfront' i (by simpa using Nat.lt_of_succ_lt hi), nofun, nofun, nofun⟩
      · exact ⟨by simp, fun i hi => hfront i (by simpa using hi), nofun, nofun, nofun⟩

theorem mbOob_high (b : UInt8) (h : (mbOob state b == 0) = true) : 0x80 ≤ b := by
  have hzero : ((b >>> 3).toUInt32 - 0x10) &&& ~~~7 = 0 := by
    rw [mbOob, beq_iff_eq] at h
    exact and_eq_zero_of_or_and_eq_zero h
  clear h
  revert b
  exact forall_byte (by decide +kernel)

theorem codeunit_lt (b : UInt8) : codeunit b < 0x80000000 := by
  revert b
  exact forall_byte (by decide +kernel)

@[simp] theorem mbtowc_ascii (utf8 : Bool) {byte : UInt8} (h : byte < 0x80) (hne : byte ≠ 0)
    (rest : List UInt8) (count : Nat) :
    mbtowc utf8 (byte :: rest) (count + 1) = ⟨1, some (byte.toUInt32, 1)⟩ := by
  rw [mbtowc, if_pos h, if_neg hne]

/-- A character that starts with a byte above 0x7f. -/
theorem mbtowc_sound {utf8 : Bool} {byte : UInt8} (h : 0x80 ≤ byte) {rest : List UInt8}
    {count : Nat} : (mbtowc utf8 (byte :: rest) (count + 1)).Sound (byte :: rest) := by
  have hfirst : ∀ i < 1, HighAt (byte :: rest) i := by
    intro i hi
    rw [Nat.lt_one_iff.mp hi]
    exact ⟨byte, rfl, h⟩
  rw [mbtowc, if_neg (UInt8.not_lt.mpr h)]
  split
  · refine ⟨by simp, fun i hi => hfirst i (Nat.lt_of_succ_lt hi), ?_, ?_, ?_⟩
    · rintro w n ⟨⟩
      exact Nat.one_pos
    · rintro w n ⟨⟩
      exact hfirst
    · rintro w n ⟨⟩
      exact codeunit_lt byte
  · split
    · exact ⟨by simp, fun i hi => hfirst i (Nat.lt_of_succ_lt hi), nofun, nofun, nofun⟩
    · exact decodeRest_sound mbOob_high [byte] hfirst Nat.one_pos

/-- The decoder looks on only behind bytes above 0x7f. -/
theorem mbtowc_high (utf8 : Bool) (bytes : List UInt8) (count i : Nat)
    (h : i + 1 < (mbtowc utf8 bytes count).looked) : HighAt bytes i := by
  match count, bytes with
  | 0, _ => cases h
  | _ + 1, [] => cases h
  | count + 1, first :: rest =>
    by_cases hfirst : first < 0x80
    · rw [mbtowc, if_pos hfirst] at h
      exact absurd h (Nat.not_lt.mpr (Nat.le_add_left 1 i))
    · exact (mbtowc_sound (UInt8.not_lt.mp hfirst)).high i h

theorem byte_lt_sign (byte : UInt8) : byte.toUInt32 < 0x80000000 := by
  revert byte
  exact forall_byte (by decide +kernel)

/-- The sign bit of a decoded character is clear. -/
theorem mbtowc_wide_lt {utf8 : Bool} {count n : Nat} {w : UInt32}
    (h : (mbtowc utf8 bytes count).outcome = some (w, n)) : w < 0x80000000 := by
  match count, bytes with
  | 0, _ => cases h
  | _ + 1, [] => cases h
  | count + 1, first :: rest =>
    by_cases hfirst : first < 0x80
    · rw [mbtowc, if_pos hfirst] at h
      cases h
      exact byte_lt_sign first
    · exact (mbtowc_sound (UInt8.not_lt.mp hfirst)).wide_lt w n h

end Crabc.Libc
