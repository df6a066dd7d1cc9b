/-
  Crabc.Iconv.Codec

  Scalar decoding and encoding of `crabc-core/src/iconv.rs`: `decode_scalar`
  and `encode_scalar` over every encoding, with the UTF-8, UTF-16 and UTF-32
  decoders they dispatch to.

  A scalar is a `Nat`; `as u8` and `as u16` casts reduce it.  A decoder returns
  the scalar and the number of source bytes it stands for.  An encoder returns
  the bytes `encoded[..len]` of the four-byte buffer the source fills.
-/

import Crabc.Iconv.Iso8859

namespace Crabc.Iconv

/-- `iconv.rs::Encoding`. -/
inductive Encoding where
  | utf8 | ascii | utf16Le | utf16Be | utf32Le | utf32Be | wchar
  | latin1 | windows1252 | windows1251 | koi8R | gbk | gb2312 | big5 | eucJp | shiftJis
  | iso8859_2 | iso8859_3 | iso8859_4 | iso8859_5 | iso8859_6 | iso8859_7 | iso8859_8
  | iso8859_9 | iso8859_10 | iso8859_11 | iso8859_13 | iso8859_14 | iso8859_15 | iso8859_16
deriving DecidableEq, Repr

/-- `Encoding::is_supported`. -/
def Encoding.isSupported : Encoding → Bool
  | .utf8 | .ascii | .utf16Le | .utf16Be | .utf32Le | .utf32Be | .wchar
  | .iso8859_2 | .iso8859_3 | .iso8859_4 | .iso8859_5 | .iso8859_6 | .iso8859_7 | .iso8859_8
  | .iso8859_9 | .iso8859_10 | .iso8859_11 | .iso8859_13 | .iso8859_14 | .iso8859_15
  | .iso8859_16 => true
  | _ => false

/-- `Iso8859::from_encoding`. -/
def Iso8859.fromEncoding : Encoding → Option Iso8859
  | .iso8859_2 => some .iso8859_2
  | .iso8859_3 => some .iso8859_3
  | .iso8859_4 => some .iso8859_4
  | .iso8859_5 => some .iso8859_5
  | .iso8859_6 => some .iso8859_6
  | .iso8859_7 => some .iso8859_7
  | .iso8859_8 => some .iso8859_8
  | .iso8859_9 => some .iso8859_9
  | .iso8859_10 => some .iso8859_10
  | .iso8859_11 => some .iso8859_11
  | .iso8859_13 => some .iso8859_13
  | .iso8859_14 => some .iso8859_14
  | .iso8859_15 => some .iso8859_15
  | .iso8859_16 => some .iso8859_16
  | _ => none

/-- `Iso8859::encoding`. -/
def Iso8859.encoding : Iso8859 → Encoding
  | .iso8859_2 => .iso8859_2
  | .iso8859_3 => .iso8859_3
  | .iso8859_4 => .iso8859_4
  | .iso8859_5 => .iso8859_5
  | .iso8859_6 => .iso8859_6
  | .iso8859_7 => .iso8859_7
  | .iso8859_8 => .iso8859_8
  | .iso8859_9 => .iso8859_9
  | .iso8859_10 => .iso8859_10
  | .iso8859_11 => .iso8859_11
  | .iso8859_13 => .iso8859_13
  | .iso8859_14 => .iso8859_14
  | .iso8859_15 => .iso8859_15
  | .iso8859_16 => .iso8859_16

inductive DecodeError where
  | incomplete
  | invalid
deriving DecidableEq, Repr

/-! ## Decoding -/

def decodeAscii : List UInt8 → Except DecodeError (Nat × Nat)
  | [] => .error .incomplete
  | byte :: _ => if byte < 0x80 then .ok (byte.toNat, 1) else .error .invalid

/-- The lead-byte table of `decode_utf8`: length, range of the second byte and the payload bits of the lead byte. -/
def utf8Lead (first : UInt8) : Option (Nat × UInt8 × UInt8 × Nat) :=
  if 0xc2 ≤ first ∧ first ≤ 0xdf then some (2, 0x80, 0xbf, (first &&& 0x1f).toNat)
  else if first = 0xe0 then some (3, 0xa0, 0xbf, (first &&& 0x0f).toNat)
  else if (0xe1 ≤ first ∧ first ≤ 0xec) ∨ (0xee ≤ first ∧ first ≤ 0xef) then
    some (3, 0x80, 0xbf, (first &&& 0x0f).toNat)
  else if first = 0xed then some (3, 0x80, 0x9f, (first &&& 0x0f).toNat)
  else if first = 0xf0 then some (4, 0x90, 0xbf, (first &&& 0x07).toNat)
  else if 0xf1 ≤ first ∧ first ≤ 0xf3 then some (4, 0x80, 0xbf, (first &&& 0x07).toNat)
  else if first = 0xf4 then some (4, 0x80, 0x8f, (first &&& 0x07).toNat)
  else none

/-- One continuation byte shifted into the scalar. -/
def utf8Push (codepoint : Nat) (byte : UInt8) : Nat := codepoint <<< 6 ||| (byte &&& 0x3f).toNat

def decodeUtf8 : List UInt8 → Except DecodeError (Nat × Nat)
  | [] => .error .incomplete
  | first :: rest =>
    if first < 0x80 then .ok (first.toNat, 1)
    else
      match utf8Lead first with
      | none => .error .invalid
      | some (length, minimumSecond, maximumSecond, initial) =>
        -- the bytes after the lead that are there, at most `length - 1` of them
        let available := rest.take (length - 1)
        if available.head?.any fun second => second < minimumSecond || second > maximumSecond then
          .error .invalid
        else if (available.drop 1).any fun byte => byte &&& 0xc0 != 0x80 then .error .invalid
        else if rest.length + 1 < length then .error .incomplete
        else .ok (available.foldl utf8Push initial, length)

/-- `u16::from_be_bytes` and `u16::from_le_bytes`. -/
def unit16 (bigEndian : Bool) (b0 b1 : UInt8) : Nat :=
  if bigEndian then b0.toNat * 256 + b1.toNat else b0.toNat + b1.toNat * 256

def decodeUtf16 (bigEndian : Bool) : List UInt8 → Except DecodeError (Nat × Nat)
  | b0 :: b1 :: rest =>
    let first := unit16 bigEndian b0 b1
    if 0xd800 ≤ first ∧ first ≤ 0xdbff then
      match rest with
      | b2 :: b3 :: _ =>
        let second := unit16 bigEndian b2 b3
        if 0xdc00 ≤ second ∧ second ≤ 0xdfff then
          .ok ((first - 0xd800) <<< 10 + (second - 0xdc00) + 0x10000, 4)
        else .error .invalid
      | _ => .error .incomplete
    else if 0xdc00 ≤ first ∧ first ≤ 0xdfff then .error .invalid
    else .ok (first, 2)
  | _ => .error .incomplete

/-- `u32::from_be_bytes` and `u32::from_le_bytes`. -/
def unit32 (bigEndian : Bool) (b0 b1 b2 b3 : UInt8) : Nat :=
  if bigEndian then ((b0.toNat * 256 + b1.toNat) * 256 + b2.toNat) * 256 + b3.toNat
  else b0.toNat + (b1.toNat + (b2.toNat + b3.toNat * 256) * 256) * 256

def decodeUtf32 (bigEndian : Bool) : List UInt8 → Except DecodeError (Nat × Nat)
  | b0 :: b1 :: b2 :: b3 :: _ =>
    let codepoint := unit32 bigEndian b0 b1 b2 b3
    if codepoint > 0x10ffff ∨ (0xd800 ≤ codepoint ∧ codepoint ≤ 0xdfff) then .error .invalid
    else .ok (codepoint, 4)
  | _ => .error .incomplete

/-- `decode_scalar`. -/
def decodeScalar (encoding : Encoding) (input : List UInt8) : Except DecodeError (Nat × Nat) :=
  match encoding with
  | .utf8 => decodeUtf8 input
  | .ascii => decodeAscii input
  | .utf16Le => decodeUtf16 false input
  | .utf16Be => decodeUtf16 true input
  | .utf32Le | .wchar => decodeUtf32 false input
  | .utf32Be => decodeUtf32 true input
  | encoding =>
    match Iso8859.fromEncoding encoding with
    | none => .error .invalid
    | some table =>
      match input with
      | [] => .error .incomplete
      | byte :: _ => .ok (table.decode byte, 1)

/-! ## Encoding -/

/-- The low byte of a value, as the cast `as u8` takes it. -/
def lowByte (n : Nat) : UInt8 := UInt8.ofNat n

def encodeUtf8 (codepoint : Nat) : List UInt8 :=
  if codepoint < 0x80 then [lowByte codepoint]
  else if codepoint < 0x800 then
    [(0xc0 : UInt8) ||| lowByte (codepoint >>> 6), (0x80 : UInt8) ||| lowByte (codepoint &&& 0x3f)]
  else if codepoint < 0x10000 then
    [(0xe0 : UInt8) ||| lowByte (codepoint >>> 12), (0x80 : UInt8) ||| lowByte (codepoint >>> 6 &&& 0x3f),
      (0x80 : UInt8) ||| lowByte (codepoint &&& 0x3f)]
  else
    [(0xf0 : UInt8) ||| lowByte (codepoint >>> 18), (0x80 : UInt8) ||| lowByte (codepoint >>> 12 &&& 0x3f),
      (0x80 : UInt8) ||| lowByte (codepoint >>> 6 &&& 0x3f), (0x80 : UInt8) ||| lowByte (codepoint &&& 0x3f)]

/-- `u16::to_be_bytes` and `u16::to_le_bytes` of the low sixteen bits. -/
def bytes16 (bigEndian : Bool) (unit : Nat) : List UInt8 :=
  if bigEndian then [lowByte (unit / 256), lowByte unit] else [lowByte unit, lowByte (unit / 256)]

def encodeUtf16 (bigEndian : Bool) (codepoint : Nat) : List UInt8 :=
  if codepoint < 0x10000 then bytes16 bigEndian codepoint
  else
    let scalar := codepoint - 0x10000
    bytes16 bigEndian (0xd800 + scalar >>> 10) ++ bytes16 bigEndian (0xdc00 + (scalar &&& 0x3ff))

/-- `u32::to_be_bytes` and `u32::to_le_bytes`. -/
def bytes32 (bigEndian : Bool) (c : Nat) : List UInt8 :=
  if bigEndian then
    [lowByte (c / 0x1000000), lowByte (c / 0x10000), lowByte (c / 0x100), lowByte c]
  else [lowByte c, lowByte (c / 0x100), lowByte (c / 0x10000), lowByte (c / 0x1000000)]

/-- `encode_scalar`; `none` is `EncodeError::Unrepresentable`. -/
def encodeScalar (encoding : Encoding) (codepoint : Nat) : Option (List UInt8) :=
  match encoding with
  | .utf8 => some (encodeUtf8 codepoint)
  | .ascii => if codepoint < 0x80 then some [lowByte codepoint] else none
  | .utf16Le => some (encodeUtf16 false codepoint)
  | .utf16Be => some (encodeUtf16 true codepoint)
  | .utf32Le | .wchar => some (bytes32 false codepoint)
  | .utf32Be => some (bytes32 true codepoint)
  | encoding =>
    match Iso8859.fromEncoding encoding with
    | none => none
    | some table => (table.encode codepoint).map fun byte => [byte]

end Crabc.Iconv
