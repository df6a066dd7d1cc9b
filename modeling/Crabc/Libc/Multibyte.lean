/-
  Crabc.Libc.Multibyte

  The restartable conversions of `locale_multibyte.rs`: `mbrtowc` with its state word,
  `wcrtomb`, and the string conversions `mbsrtowcs` and `wcsrtombs`.

  A pointer into a string is the rest of the string from there on, and `none` is a read
  past the end of the object.  A `wchar_t` is its 32 bits.
-/

import Crabc.Libc.Locale

namespace Crabc.Libc

/-- `MB_RET_ILSEQ`. -/
def mbRetIlseq : Nat := 2 ^ 64 - 1

/-- `MB_RET_INCOMPLETE`. -/
def mbRetIncomplete : Nat := 2 ^ 64 - 2

/-! ## One character in -/

structure DecodeOutcome where
  result : Nat
  nextState : UInt32
  wide : UInt32
  writesWide : Bool
  error : Bool
deriving DecidableEq, Repr

/-- The outcome with `EILSEQ`: the state is dropped. -/
def DecodeOutcome.ilseq : DecodeOutcome := ⟨mbRetIlseq, 0, 0, false, true⟩

/-- The outcome at the end of the bytes: the state is kept. -/
def DecodeOutcome.incomplete (state : UInt32) : DecodeOutcome :=
  ⟨mbRetIncomplete, state, 0, false, false⟩

/-- The outcome with a character. -/
def DecodeOutcome.character (result : Nat) (wide : UInt32) : DecodeOutcome :=
  ⟨result, 0, wide, true, false⟩

/-- The state word behind one more continuation byte. -/
def mbPush (state : UInt32) (byte : UInt8) : UInt32 := state <<< 6 ||| (byte - 0x80).toUInt32

/-- The continuation bytes of `decode_mbrtowc`: `accept` is the test of the next one,
    `mb_oob` for the first and the plain range for the others. -/
def decodeContinuation (originalCount : Nat) (accept : UInt8 → Bool) (state : UInt32) :
    Nat → List UInt8 → Option DecodeOutcome
  | 0, _ => some (.incomplete state)
  | _ + 1, [] => none
  | remaining + 1, byte :: rest =>
    if accept byte then
      let next := mbPush state byte
      if next &&& 0x80000000 = 0 then some (.character (originalCount - remaining) next)
      else decodeContinuation originalCount (· - 0x80 < 0x40) next remaining rest
    else some .ilseq

/-- `decode_mbrtowc`; the source is null or the readable bytes from the pointer on. -/
def decodeMbrtowc (current : UInt32) (source : Option (List UInt8)) (count : Nat) (utf8 : Bool) :
    Option DecodeOutcome :=
  match source with
  | none => if current != 0 then some .ilseq else some ⟨0, 0, 0, false, false⟩
  | some bytes =>
    if count = 0 then some (.incomplete current)
    else if current = 0 then
      match bytes with
      | [] => none
      | first :: rest =>
        if first < 0x80 then some (.character (if first != 0 then 1 else 0) first.toUInt32)
        else if !utf8 then some (.character 1 (codeunit first))
        else if first - 0xc2 > 0xf4 - 0xc2 then some .ilseq
        else
          let state := bittab.getD (first - 0xc2).toNat 0
          decodeContinuation count (mbOob state · == 0) state (count - 1) rest
    else decodeContinuation count (mbOob current · == 0) current count bytes

/-! ## One character out -/

/-- `is_codeunit`. -/
def isCodeunit (wide : UInt32) : Bool := wide - 0xdf80 < 0x80

/-- `encode_for_locale` with a destination: the bytes it writes; `none` is `EILSEQ`. -/
def encodeForLocale (wide : UInt32) (utf8 : Bool) : Option (List UInt8) :=
  if wide < 0x80 then some [wide.toUInt8]
  else if !utf8 then
    if !isCodeunit wide then none else some [wide.toUInt8]
  else if wide < 0x800 then
    some [((0xc0 : UInt32) ||| wide >>> 6).toUInt8, ((0x80 : UInt32) ||| wide &&& 0x3f).toUInt8]
  else if wide < 0xd800 ∨ wide - 0xe000 < 0x2000 then
    some [((0xe0 : UInt32) ||| wide >>> 12).toUInt8,
      ((0x80 : UInt32) ||| wide >>> 6 &&& 0x3f).toUInt8, ((0x80 : UInt32) ||| wide &&& 0x3f).toUInt8]
  else if wide - 0x10000 < 0x100000 then
    some [((0xf0 : UInt32) ||| wide >>> 18).toUInt8, ((0x80 : UInt32) ||| wide >>> 12 &&& 0x3f).toUInt8,
      ((0x80 : UInt32) ||| wide >>> 6 &&& 0x3f).toUInt8, ((0x80 : UInt32) ||| wide &&& 0x3f).toUInt8]
  else none

/-! ## Strings -/

/-- What a string conversion leaves in `*source`; `before rest` is the address one below
    `rest`, which is formed and not read. -/
inductive SourcePointer (α : Type) where
  | null
  | at (rest : List α)
  | before (rest : List α)
deriving DecidableEq, Repr

/-- The effects of one string conversion: the value returned, the elements stored at the
    destination, `*source` and whether `errno` is set to `EILSEQ`. -/
structure Converted (α β : Type) where
  result : Nat
  written : List β
  source : SourcePointer α
  error : Bool
deriving DecidableEq, Repr

/-- `c_string_len`. -/
def cStringLen : List UInt8 → Option Nat
  | [] => none
  | byte :: rest => if byte != 0 then (cStringLen rest).map (· + 1) else some 0

/-- The counting loop of `mbsrtowcs`; `none` inside is `EILSEQ`.  Every pass behind the
    first moves the cursor, so `fuel` is a bound on the bytes left. -/
def countCharacters (utf8 : Bool) : Nat → UInt32 → List UInt8 → Option (Option Nat)
  | 0, _, _ => none
  | fuel + 1, pending, cursor =>
    if pending = 0 ∧ cursor = [] then none
    else if pending = 0 ∧ cursor.head? = some 0 then some (some 0)
    else if pending = 0 ∧ !utf8 then
      (countCharacters utf8 fuel 0 cursor.tail).map (·.map (· + 1))
    else do
      let outcome ← decodeMbrtowc pending (some cursor) 4 true
      if outcome.error ∨ outcome.result = mbRetIncomplete then some none
      else (countCharacters utf8 fuel 0 (cursor.drop outcome.result)).map (·.map (· + 1))

/-- The converting loop of `mbsrtowcs`, with `remaining` of `count` slots left.  A pending
    state is resumed with a slot left only: `mbsrtowcs` tests that before the loop. -/
def convertCharacters (utf8 : Bool) (count : Nat) (written : List UInt32) :
    Nat → UInt32 → List UInt8 → Option (Converted UInt8 UInt32)
  | 0, _, cursor => some ⟨count, written, .at cursor, false⟩
  | remaining + 1, pending, cursor =>
    if pending = 0 ∧ cursor = [] then none
    else if pending = 0 ∧ cursor.head? = some 0 then
      some ⟨count - (remaining + 1), written ++ [0], .null, false⟩
    else if pending = 0 ∧ !utf8 then
      convertCharacters utf8 count (written ++ [codeunit (cursor.headD 0)]) remaining 0 cursor.tail
    else do
      let outcome ← decodeMbrtowc pending (some cursor) 4 true
      if outcome.error ∨ outcome.result = mbRetIncomplete then
        some ⟨mbRetIlseq, written, if pending != 0 then .before cursor else .at cursor, true⟩
      else
        convertCharacters utf8 count (written ++ [outcome.wide]) remaining 0
          (cursor.drop outcome.result)

/-- `mbsrtowcs`: `destination` tells whether it is there; `source` is the string at `*source` and `state` the word of
    the caller's state. It is stored back next to the other effects: the converting loop starts by clearing it. -/
def mbsrtowcs (utf8Now destination : Bool) (source : List UInt8) (count : Nat) (state : UInt32) :
    Option (Converted UInt8 UInt32 × UInt32) :=
  if destination && count == 0 then some (⟨0, [], .at source, false⟩, state)
  else
    let utf8 := utf8Now || state != 0
    if !destination then
      if state = 0 ∧ !utf8Now then
        (cStringLen source).map fun length => (⟨length, [], .at source, false⟩, state)
      else
        (countCharacters utf8 (source.length + 1) state source).map fun
          | some produced => (⟨produced, [], .at source, false⟩, state)
          | none => (⟨mbRetIlseq, [], .at source, true⟩, state)
    else (convertCharacters utf8 count [] count state source).map fun converted => (converted, 0)

/-- The counting loop of `wcsrtombs`; `none` inside is `EILSEQ`. -/
def countBytes (utf8 : Bool) : List UInt32 → Option (Option Nat)
  | [] => none
  | wide :: rest =>
    if wide = 0 then some (some 0)
    else if wide ≥ 0x80 then
      match encodeForLocale wide utf8 with
      | none => some none
      | some bytes => (countBytes utf8 rest).map (·.map (bytes.length + ·))
    else (countBytes utf8 rest).map (·.map (1 + ·))

/-- The second loop of `wcsrtombs`, for a destination with less than four bytes left: through a scratch array. -/
def convertTail (utf8 : Bool) (count : Nat) (written : List UInt8) (remaining : Nat) :
    List UInt32 → Option (Converted UInt32 UInt8)
  | [] => if remaining = 0 then some ⟨count, written, .at [], false⟩ else none
  | wide :: rest =>
    if remaining = 0 then some ⟨count, written, .at (wide :: rest), false⟩
    else if wide - 1 ≥ 0x7f then
      if wide = 0 then some ⟨count - remaining, written ++ [0], .null, false⟩
      else
        match encodeForLocale wide utf8 with
        | none => some ⟨mbRetIlseq, written, .at (wide :: rest), true⟩
        | some bytes =>
          if bytes.length > remaining then
            some ⟨count - remaining, written, .at (wide :: rest), false⟩
          else convertTail utf8 count (written ++ bytes) (remaining - bytes.length) rest
    else convertTail utf8 count (written ++ [wide.toUInt8]) (remaining - 1) rest

/-- The first loop of `wcsrtombs`, while any character fits. -/
def convertBulk (utf8 : Bool) (count : Nat) (written : List UInt8) (remaining : Nat) :
    List UInt32 → Option (Converted UInt32 UInt8)
  | [] => if remaining ≥ 4 then none else convertTail utf8 count written remaining []
  | wide :: rest =>
    if remaining ≥ 4 then
      if wide - 1 ≥ 0x7f then
        if wide = 0 then some ⟨count - remaining, written ++ [0], .null, false⟩
        else
          match encodeForLocale wide utf8 with
          | none => some ⟨mbRetIlseq, written, .at (wide :: rest), true⟩
          | some bytes =>
            convertBulk utf8 count (written ++ bytes) (remaining - bytes.length) rest
      else convertBulk utf8 count (written ++ [wide.toUInt8]) (remaining - 1) rest
    else convertTail utf8 count written remaining (wide :: rest)

/-- `wcsrtombs`; it does not touch the state, which is left out. -/
def wcsrtombs (utf8 destination : Bool) (source : List UInt32) (count : Nat) :
    Option (Converted UInt32 UInt8) :=
  if !destination then
    (countBytes utf8 source).map fun
      | some total => ⟨total, [], .at source, false⟩
      | none => ⟨mbRetIlseq, [], .at source, true⟩
  else convertBulk utf8 count [] count source

end Crabc.Libc
