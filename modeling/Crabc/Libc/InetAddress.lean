/-
  Crabc.Libc.InetAddress

  `inet_ntop` and `inet_pton` of `libc/src/c_abi/x86_64/inet_address.rs`, with the
  private renderers and scanners they call.

  A source string is the list of its bytes; a read at or behind its end gives the
  terminator.  The local buffer of `inet_ntop` is a C string, terminator included.  An
  address is read at the offsets of its family, which the caller's contract covers.
-/

import Crabc.Lib.Move

namespace Crabc.Libc

open Crabc.Lib

def afInet : Int := 2

def afInet6 : Int := 10

/-- `EAFNOSUPPORT`. -/
def noAddressFamily : Nat := 97

/-- `ENOSPC`. -/
def noSpace : Nat := 28

/-- The byte of a C string at an offset. -/
def readByte (source : List UInt8) (offset : Nat) : UInt8 := source.getD offset 0

/-- What the caller sees of a call: the destination bytes and `errno`. -/
structure CallerMemory where
  destination : List UInt8
  errno : Nat
deriving DecidableEq

/-! ## Digits -/

/-- `decimal_digit`, with the value of the digit. -/
def decimalDigit (byte : UInt8) : Option Nat :=
  if byte - 48 < 10 then some (byte - 48).toNat else none

/-- `hex_value`, where `none` is -1. -/
def hexValue (byte : UInt8) : Option Nat :=
  if byte - 48 < 10 then some (byte - 48).toNat
  else
    let lower := byte ||| 32
    if lower - 97 < 6 then some (lower - 97 + 10).toNat else none

/-! ## Rendering -/

/-- `write_decimal_octet`. -/
def writeDecimalOctet (value : UInt8) : List UInt8 :=
  if value ≥ 100 then [48 + value / 100, 48 + value / 10 % 10, 48 + value % 10]
  else if value ≥ 10 then [48 + value / 10, 48 + value % 10]
  else [48 + value % 10]

/-- The byte that `write_hex_word` writes for a digit. -/
def hexByte (digit : UInt8) : UInt8 := if digit < 10 then 48 + digit else 97 + digit - 10

/-- A round of `write_hex_word`, on whether a digit was written and the bytes so far. -/
def writeHexDigit (word : UInt16) : Bool × List UInt8 → Nat → Bool × List UInt8
  | (emitted, output), shift =>
    let digit := UInt8.ofNat (word.toNat / 2 ^ shift % 16)
    if emitted ∨ digit ≠ 0 ∨ shift = 0 then (true, output ++ [hexByte digit]) else (emitted, output)

/-- `write_hex_word`. -/
def writeHexWord (word : UInt16) : List UInt8 :=
  ([12, 8, 4, 0].foldl (writeHexDigit word) (false, [])).2

/-- A loop over `0..count` that writes a separator before every piece but the first. -/
def writeSeparated (separator : UInt8) (count : Nat) (piece : Nat → List UInt8) : List UInt8 :=
  (List.range count).flatMap fun index =>
    (if index ≠ 0 then [separator] else []) ++ piece index

/-- `write_ipv4_text`. -/
def writeIpv4Text (address : List UInt8) : List UInt8 :=
  writeSeparated 46 4 fun index => writeDecimalOctet (address.getD index 0)

/-- `ipv6_word`. -/
def ipv6Word (address : List UInt8) (index : Nat) : UInt16 :=
  (address.getD (index * 2) 0).toUInt16 <<< 8 ||| (address.getD (index * 2 + 1) 0).toUInt16

/-- `ipv4_mapped`. -/
def ipv4Mapped (address : List UInt8) : Bool :=
  (List.range 10).all (fun index => address.getD index 0 = 0) && address.getD 10 0 = 255 &&
    address.getD 11 0 = 255

/-- The text of `inet_ntop` before a run of zeros is shortened. -/
def writeIpv6Text (address : List UInt8) : List UInt8 :=
  if ipv4Mapped address then
    writeSeparated 58 6 (fun index => writeHexWord (ipv6Word address index)) ++ [58] ++ writeIpv4Text (address.drop 12)
  else writeSeparated 58 8 fun index => writeHexWord (ipv6Word address index)

/-- `colon_zero_span`. -/
def colonZeroSpan : List UInt8 → Nat
  | [] => 0
  | byte :: rest => if byte ≠ 58 ∧ byte ≠ 48 then 0 else colonZeroSpan rest + 1

/-- The variables of the loop that looks for the longest span. -/
structure SpanScan where
  cursor : Nat
  best : Nat
  max : Nat
deriving DecidableEq

/-- A round of that loop, on the string from the cursor on. -/
def SpanScan.step (s : SpanScan) (byte : UInt8) (rest : List UInt8) : SpanScan :=
  if s.cursor = 0 ∨ byte = 58 then
    let span := colonZeroSpan (byte :: rest)
    if span > s.max + (if s.best = 0 then 1 else 0) then
      { cursor := s.cursor + 1, best := s.cursor, max := span }
    else { s with cursor := s.cursor + 1 }
  else { s with cursor := s.cursor + 1 }

/-- The loop, up to the terminator. -/
def scanSpans : List UInt8 → SpanScan → SpanScan
  | [], s => s
  | byte :: rest, s => if byte = 0 then s else scanSpans rest (s.step byte rest)

/-- The span found is overwritten with two colons, and what follows is moved down with the terminator. -/
def shortenSpan (buffer : List UInt8) (s : SpanScan) : List UInt8 :=
  if s.max > 3 then
    let buffer := (buffer.set s.best 58).set (s.best + 1) 58
    moveDown buffer (s.best + 2) (s.best + s.max) (s.cursor - s.best - s.max + 1)
  else buffer

/-- The bytes before the terminator. -/
def cString (buffer : List UInt8) : List UInt8 := buffer.takeWhile (· ≠ 0)

/-- The text of `inet_ntop(AF_INET6)`. -/
def renderIpv6 (address : List UInt8) : List UInt8 :=
  let buffer := writeIpv6Text address ++ [0]
  cString (shortenSpan buffer (scanSpans buffer { cursor := 0, best := 0, max := 2 }))

/-- The first bytes of the destination are overwritten. -/
def CallerMemory.write (m : CallerMemory) (bytes : List UInt8) : CallerMemory :=
  { m with destination := bytes ++ m.destination.drop bytes.length }

/-- `snprintf_ipv4_copy`. -/
def snprintfIpv4Copy (m : CallerMemory) (capacity : Nat) (source : List UInt8) : CallerMemory :=
  if capacity = 0 then m else m.write (source.take (min source.length (capacity - 1)) ++ [0])

/-- `inet_ntop`: whether the result is not null, and what the caller sees. -/
def inetNtop (family : Int) (address : List UInt8) (length : Nat) (m : CallerMemory) :
    Bool × CallerMemory :=
  if family = afInet then
    let text := writeIpv4Text address
    let m := snprintfIpv4Copy m length text
    if text.length < length then (true, m) else (false, { m with errno := noSpace })
  else if family = afInet6 then
    let text := renderIpv6 address
    if text.length < length then (true, m.write (text ++ [0]))
    else (false, { m with errno := noSpace })
  else (false, { m with errno := noAddressFamily })

/-! ## Parsing -/

/-- A loop over at most so many digits: their value and their number. -/
def scanDigits (digit : UInt8 → Option Nat) (base : Nat) (source : List UInt8) :
    Nat → Nat → Nat → Nat × Nat
  | 0, value, digits => (value, digits)
  | rounds + 1, value, digits =>
    match digit (readByte source digits) with
    | none => (value, digits)
    | some d => scanDigits digit base source rounds (base * value + d) (digits + 1)

/-- The loop of `inet_pton_ipv4`. -/
def ptonIpv4Loop : Nat → Nat → List UInt8 → List UInt8 → Int × List UInt8
  | 0, _, _, destination => (0, destination)
  | rounds + 1, component, source, destination =>
    let (value, digits) := scanDigits decimalDigit 10 source 3 0 0
    let delimiter := readByte source digits
    let first := readByte source 0
    if digits = 0 ∨ (digits > 1 ∧ first = 48) ∨ value > 255 then (0, destination)
    else
      let destination := destination.set component (UInt8.ofNat value)
      if delimiter = 0 ∧ component = 3 then (1, destination)
      else if delimiter ≠ 46 then (0, destination)
      else ptonIpv4Loop rounds (component + 1) (source.drop (digits + 1)) destination

/-- `inet_pton_ipv4`. -/
def inetPtonIpv4 (source destination : List UInt8) : Int × List UInt8 :=
  ptonIpv4Loop 4 0 source destination

/-- The variables of the loop of `inet_pton_ipv6`; a `breakIndex` of -1 is `none`. -/
structure Ipv6Scan where
  words : List UInt16
  index : Nat
  breakIndex : Option Nat
  source : List UInt8
deriving DecidableEq

/-- What a round decides. -/
inductive Ipv6Round where
  | fail
  | again (s : Ipv6Scan)
  | stop (s : Ipv6Scan) (needsIpv4Tail : Bool)

/-- The branch of a round for the second colon of a gap. -/
def Ipv6Scan.gap (s : Ipv6Scan) : Ipv6Round :=
  let s' := { s with
    breakIndex := some s.index
    words := s.words.set (s.index % 8) 0
    source := s.source.drop 1 }
  if readByte s'.source 0 = 0 then .stop s' false
  else if s.index = 7 then .fail
  else .again { s' with index := s.index + 1 }

/-- The branch of a round for a word. -/
def Ipv6Scan.word (s : Ipv6Scan) : Ipv6Round :=
  let (value, digits) := scanDigits hexValue 16 s.source 4 0 0
  if digits = 0 then .fail
  else
    let s' := { s with words := s.words.set (s.index % 8) (UInt16.ofNat value) }
    let delimiter := readByte s.source digits
    if delimiter = 0 ∧ (s.breakIndex.isSome ∨ s.index = 7) then .stop s' false
    else if s.index = 7 then .fail
    else if delimiter ≠ 58 then
      if delimiter ≠ 46 ∨ (s.index < 6 ∧ s.breakIndex = none) then .fail
      else
        .stop { s' with
          index := s.index + 1
          words := s'.words.set ((s.index + 1) % 8) 0 } true
    else .again { s' with index := s.index + 1, source := s.source.drop (digits + 1) }

def Ipv6Scan.round (s : Ipv6Scan) : Ipv6Round :=
  if readByte s.source 0 = 58 ∧ s.breakIndex = none then s.gap else s.word

/-- The loop of `inet_pton_ipv6`; a round of the eighth word leaves it. -/
def ptonIpv6Loop : Nat → Ipv6Scan → Option (Ipv6Scan × Bool)
  | 0, _ => none
  | rounds + 1, s =>
    match s.round with
    | .fail => none
    | .again s' => ptonIpv6Loop rounds s'
    | .stop s' tail => some (s', tail)

/-- The words behind the gap are moved to the end, and the gap is filled with zeros. -/
def expandGap (s : Ipv6Scan) : List UInt16 :=
  match s.breakIndex with
  | none => s.words
  | some breakIndex =>
    let words := moveUp s.words (breakIndex + 7 - s.index) breakIndex (s.index + 1 - breakIndex)
    fillAt words breakIndex 0 (7 - s.index)

/-- The bytes of the words in network order. -/
def wordBytes (words : List UInt16) : List UInt8 :=
  words.flatMap fun word : UInt16 => [(word >>> 8).toUInt8, word.toUInt8]

/-- What `inet_pton_ipv6` does after its loop. -/
def ptonIpv6Finish (s : Ipv6Scan) (needsIpv4Tail : Bool) (destination : List UInt8) :
    Int × List UInt8 :=
  let bytes := wordBytes (expandGap s)
  let destination := bytes ++ destination.drop bytes.length
  if needsIpv4Tail then
    let (result, tail) := inetPtonIpv4 s.source (destination.drop 12)
    if result ≤ 0 then (0, destination.take 12 ++ tail) else (1, destination.take 12 ++ tail)
  else (1, destination)

/-- `inet_pton_ipv6` behind a first colon. -/
def ptonIpv6Scan (source destination : List UInt8) : Int × List UInt8 :=
  match ptonIpv6Loop 8
      { words := List.replicate 8 0, index := 0, breakIndex := none, source } with
  | none => (0, destination)
  | some (s, needsIpv4Tail) => ptonIpv6Finish s needsIpv4Tail destination

/-- `inet_pton_ipv6`. -/
def inetPtonIpv6 (source destination : List UInt8) : Int × List UInt8 :=
  if readByte source 0 = 58 then
    if readByte source 1 ≠ 58 then (0, destination) else ptonIpv6Scan (source.drop 1) destination
  else ptonIpv6Scan source destination

/-- `inet_pton`. -/
def inetPton (family : Int) (source : List UInt8) (m : CallerMemory) : Int × CallerMemory :=
  if family = afInet then
    let (result, destination) := inetPtonIpv4 source m.destination
    (result, { m with destination })
  else if family = afInet6 then
    let (result, destination) := inetPtonIpv6 source m.destination
    (result, { m with destination })
  else (-1, { m with errno := noAddressFamily })

end Crabc.Libc
