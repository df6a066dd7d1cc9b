/-
  Crabc.Dns.Name

  Domain names and queries of `crabc-core/src/resolver.rs`: `write_wire_name`,
  `encode_query`, `skip_name`, `expand_name` and `DnsResponse::parse`.

  Slices are lists of bytes.  A slice is shorter than the address space, so the
  `checked_add`s on offsets have no failing case.  An index out of a slice panics,
  and so does a loop that uses up its number of rounds.
-/

import Crabc.Lib.Buffer

namespace Crabc.Dns

open Crabc.Lib

/-! ## Errors and words -/

/-- A raw Linux error number. -/
abbrev Errno := Nat

/-- `INVAL`. -/
def invalid : Errno := 22

/-- `BADMSG`. -/
def malformed : Errno := 74

def nameTooLong : Errno := 36

def msgSize : Errno := 90

def highByte (word : UInt16) : UInt8 := UInt8.ofNat (word.toNat / 256)

def lowByte (word : UInt16) : UInt8 := UInt8.ofNat word.toNat

/-- `u16::from_be_bytes`. -/
def fromBeBytes (high low : UInt8) : UInt16 := UInt16.ofNat (high.toNat * 256 + low.toNat)

/-- The big-endian word at an offset. -/
def wordAt (packet : List UInt8) (offset : Nat) : Checked Errno UInt16 := do
  let high ← .index packet offset
  let low ← .index packet (offset + 1)
  pure (fromBeBytes high low)

/-- `MAX_NAME_WIRE`. -/
def maxNameWire : Nat := 256

def classIn : UInt16 := 1

/-! ## Writing names -/

/-- The variables of the loop of `write_wire_name`. -/
structure NameWriter where
  index : Nat
  labelStart : Nat
  written : Nat
  output : List UInt8

/-- The label that ends at `index`. -/
def NameWriter.label (name : List UInt8) (w : NameWriter) : Checked Errno NameWriter :=
  let labelLength := w.index - w.labelStart
  if labelLength = 0 then
    -- an empty label is only the end of the name behind a final dot
    if w.index = name.length ∧ w.index ≠ 0 then do
      let previous ← .index name (w.index - 1)
      if previous = 46 then pure w else .error invalid
    else .error invalid
  else if labelLength > 63 then .error invalid
  else if w.written + labelLength + 1 ≥ w.output.length then .error nameTooLong
  else do
    let output ← .store w.output w.written (UInt8.ofNat labelLength)
    let label ← .slice name w.labelStart w.index
    let output ← .blit output (w.written + 1) label
    pure { w with written := w.written + labelLength + 1, output }

/-- The loop of `write_wire_name`, with the rounds that are left of `name.len() + 1`. -/
def writeLabels (name : List UInt8) : Nat → NameWriter → Checked Errno NameWriter
  | 0, w => pure w
  | rounds + 1, w =>
    if w.index = name.length then w.label name
    else do
      let byte ← .index name w.index
      if byte ≠ 46 then writeLabels name rounds { w with index := w.index + 1 }
      else
        let w ← w.label name
        writeLabels name rounds { w with index := w.index + 1, labelStart := w.index + 1 }

/-- `write_wire_name`: the number of bytes written, and the buffer. -/
def writeWireName (name output : List UInt8) : Checked Errno (Nat × List UInt8) :=
  if name = [] ∨ output = [] then .error invalid
  else do
    let w ← writeLabels name (name.length + 1) { index := 0, labelStart := 0, written := 0, output }
    if w.written ≥ w.output.length then .error nameTooLong
    else
      let output ← .store w.output w.written 0
      pure (w.written + 1, output)

/-- `encode_query`: the length of the packet, and the buffer. -/
def encodeQuery (name : List UInt8) (recordType queryId : UInt16) (output : List UInt8) :
    Checked Errno (Nat × List UInt8) :=
  if output.length < 12 then .error msgSize
  else do
    let (nameLength, wireName) ← writeWireName name (List.replicate maxNameWire 0)
    let total := 12 + nameLength + 4
    if total > output.length then .error msgSize
    else
      let output ← .blit output 0 (List.replicate total 0)
      let output ← .store output 0 (highByte queryId)
      let output ← .store output 1 (lowByte queryId)
      let output ← .store output 2 1
      let output ← .store output 5 1
      let wire ← .slice wireName 0 nameLength
      let output ← .blit output 12 wire
      let qtype := 12 + nameLength
      let output ← .store output qtype (highByte recordType)
      let output ← .store output (qtype + 1) (lowByte recordType)
      let output ← .store output (qtype + 2) 0
      let output ← .store output (qtype + 3) (lowByte classIn)
      pure (total, output)

/-! ## Reading names -/

/-- `compression_target`. -/
def compressionTarget (packet : List UInt8) (offset : Nat) : Checked Errno Nat :=
  if offset + 1 ≥ packet.length then .error malformed
  else do
    let high ← .index packet offset
    let low ← .index packet (offset + 1)
    let target := (high &&& 0x3f).toNat * 256 + low.toNat
    if target < 12 ∨ target ≥ offset then .error malformed else pure target

/-- The loop of `skip_name`. -/
def skipNameLoop (packet : List UInt8) : Nat → Nat → Option Nat → Nat → Checked Errno Nat
  | 0, _, _, _ => .panic
  | rounds + 1, offset, encodedEnd, steps =>
    if offset ≥ packet.length then .error malformed
    else do
      let length ← .index packet offset
      if length &&& 0xc0 = 0xc0 then
        let target ← compressionTarget packet offset
        let encodedEnd := encodedEnd.or (some (offset + 2))
        if steps + 1 > 128 then .error malformed
        else skipNameLoop packet rounds target encodedEnd (steps + 1)
      else if length > 63 then .error malformed
      else if length = 0 then pure (encodedEnd.getD (offset + 1))
      else if offset + 1 + length.toNat > packet.length then .error malformed
      else if steps + 1 > 128 then .error malformed
      else skipNameLoop packet rounds (offset + 1 + length.toNat) encodedEnd (steps + 1)

/-- `skip_name`. -/
def skipName (packet : List UInt8) (offset : Nat) : Checked Errno Nat :=
  skipNameLoop packet 129 offset none 0

/-- The variables of the loop of `expand_name`; what it counts as `consumed` is not used. -/
structure NameReader where
  offset : Nat
  written : Nat
  jumps : Nat
  output : List UInt8

/-- The dot before all labels but the first. -/
def NameReader.dot (r : NameReader) : Checked Errno NameReader :=
  if r.written ≠ 0 then
    if r.written + 1 ≥ r.output.length then .error msgSize
    else do
      let output ← .store r.output r.written 46
      pure { r with written := r.written + 1, output }
  else pure r

/-- The label at `offset + 1`. -/
def NameReader.label (packet : List UInt8) (length : Nat) (r : NameReader) :
    Checked Errno NameReader :=
  let offset := r.offset + 1
  if offset + length > packet.length then .error malformed
  else do
    let r ← r.dot
    if r.written + length ≥ r.output.length then .error msgSize
    else
      let label ← .slice packet offset (offset + length)
      let output ← .blit r.output r.written label
      pure { r with offset := offset + length, written := r.written + length, output }

/-- The loop of `expand_name`. -/
def expandNameLoop (packet : List UInt8) : Nat → NameReader → Checked Errno (Nat × List UInt8)
  | 0, _ => .panic
  | rounds + 1, r =>
    if r.offset ≥ packet.length then .error malformed
    else do
      let length ← .index packet r.offset
      if length &&& 0xc0 = 0xc0 then
        let target ← compressionTarget packet r.offset
        if r.jumps + 1 > 128 then .error malformed
        else expandNameLoop packet rounds { r with offset := target, jumps := r.jumps + 1 }
      else if length > 63 then .error malformed
      else if length = 0 then
        if r.written = 0 then
          if r.output = [] then .error msgSize
          else
            let output ← .store r.output 0 46
            pure (1, output)
        else pure (r.written, r.output)
      else
        let r ← r.label packet length.toNat
        expandNameLoop packet rounds r

/-- `expand_name`: the length of the text, and the buffer.  Between two jumps, of
    which there are at most 128, the offset grows. -/
def expandName (packet : List UInt8) (start : Nat) (output : List UInt8) :
    Checked Errno (Nat × List UInt8) :=
  expandNameLoop packet (129 * (packet.length + 1) + 1)
    { offset := start, written := 0, jumps := 0, output }

/-! ## Responses -/

structure DnsResponse where
  packet : List UInt8
  answerOffset : Nat
  answerCount : UInt16
  responseCode : UInt8
  truncated : Bool
deriving DecidableEq, Repr

/-- The header tests of `DnsResponse::parse`. -/
def headerOk (packet : List UInt8) (queryId : UInt16) : Checked Errno Bool := do
  let id ← wordAt packet 0
  let flags ← .index packet 2
  if id ≠ queryId ∨ flags &&& 0x80 = 0 ∨ flags &&& 0x78 ≠ 0 then pure false
  else
    let questions ← wordAt packet 4
    pure (questions = 1)

/-- The question test of `DnsResponse::parse`, for a name that ends at `questionEnd`. -/
def questionOk (packet expected : List UInt8) (recordType : UInt16) (questionEnd : Nat) :
    Checked Errno Bool :=
  if questionEnd + 4 > packet.length ∨ questionEnd - 12 ≠ expected.length then pure false
  else do
    let name ← .slice packet 12 questionEnd
    let kind ← wordAt packet questionEnd
    let dnsClass ← wordAt packet (questionEnd + 2)
    pure (name = expected ∧ kind = recordType ∧ dnsClass = classIn)

/-- `DnsResponse::parse`. -/
def DnsResponse.parse (packet queryName : List UInt8) (recordType queryId : UInt16) :
    Checked Errno DnsResponse :=
  if packet.length < 12 then .error malformed
  else do
    if !(← headerOk packet queryId) then .error malformed
    else
      let (expectedLength, expectedName) ←
        writeWireName queryName (List.replicate maxNameWire 0)
      let expected ← .slice expectedName 0 expectedLength
      let questionEnd ← skipName packet 12
      if !(← questionOk packet expected recordType questionEnd) then .error malformed
      else
        let flags ← .index packet 2
        let code ← .index packet 3
        let answers ← wordAt packet 6
        pure
          { packet
            answerOffset := questionEnd + 4
            answerCount := answers
            responseCode := code &&& 0x0f
            truncated := flags &&& 0x02 ≠ 0 }

end Crabc.Dns
