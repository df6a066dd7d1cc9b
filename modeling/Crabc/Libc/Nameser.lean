/-
  Crabc.Libc.Nameser

  The DNS message reader of libc: `dn_skipname`, `dn_expand`, `ns_skiprr` and the handle
  of `nameser_message_parser.rs`.

  A pointer into the message is its offset, and the end of the message is its length.  A
  message has fewer than `2 ^ 31` bytes, the length being a `c_int`.
-/

import Mathlib

namespace Crabc.Libc

/-- `ENODEV`. -/
def enodev : Nat := 19

/-- `EMSGSIZE`. -/
def emsgsize : Nat := 90

/-- The byte at an offset; the readers below look inside the message only. -/
def octetAt (message : List UInt8) (offset : Nat) : Nat := (message.getD offset 0).toNat

/-- `ns_get16`. -/
def nsGet16 (message : List UInt8) (offset : Nat) : Nat :=
  octetAt message offset * 256 + octetAt message (offset + 1)

/-- `ns_get32`. -/
def nsGet32 (message : List UInt8) (offset : Nat) : Nat :=
  nsGet16 message offset * 65536 + nsGet16 message (offset + 2)

/-! ## Names -/

/-- The loop of `dn_skipname`; a label takes a byte at least, so `fuel` is a bound on the bytes left. -/
def dnSkipnameLoop (message : List UInt8) (source : Nat) : Nat → Nat → Option Nat
  | 0, _ => none
  | fuel + 1, cursor =>
    if cursor < message.length then
      let label := octetAt message cursor
      if label = 0 then some (cursor - source + 1)
      else if label ≥ 192 then
        if cursor + 1 < message.length then some (cursor - source + 2) else none
      else if message.length - cursor < label + 1 then none
      else dnSkipnameLoop message source fuel (cursor + (label + 1))
    else none

/-- `dn_skipname`, up to the end of the message; `none` is -1. -/
def dnSkipname (message : List UInt8) (source : Nat) : Option Nat :=
  dnSkipnameLoop message source (message.length + 1 - source) source

/-- `space > 254 { 254 }`. -/
def dnExpandSpace : Nat := 254

/-- The loop of `__dn_expand`: two of the `iteration`s of the source are one of `fuel`,
    `output` is the text so far and `consumed` is there behind the first pointer. -/
def dnExpandLoop (message : List UInt8) (source : Nat) :
    Nat → Nat → List UInt8 → Option Nat → Option (Nat × List UInt8)
  | 0, _, _, _ => none
  | fuel + 1, cursor, output, consumed =>
    let label := octetAt message cursor
    if label ≥ 64 then  -- `label & 0xc0 != 0`
      if cursor + 1 = message.length then none
      else
        let offset := label % 64 * 256 + octetAt message (cursor + 1)
        if offset ≥ message.length then none
        else dnExpandLoop message source fuel offset output
          (some (consumed.getD (cursor + 2 - source)))
    else if label ≠ 0 then
      let output := if output ≠ [] then output ++ [0x2e] else output
      if label ≥ message.length - (cursor + 1) ∨ label ≥ dnExpandSpace - output.length then none
      else
        dnExpandLoop message source fuel (cursor + 1 + label)
          (output ++ (message.drop (cursor + 1)).take label) consumed
    else some (consumed.getD (cursor + 1 - source), output)

/-- `__dn_expand` into `NS_MAXDNAME` bytes: the bytes consumed and the text; `none` is -1. -/
def dnExpand (message : List UInt8) (source : Nat) : Option (Nat × List UInt8) :=
  if source = message.length then none
  else dnExpandLoop message source ((message.length + 1) / 2) source [] none

/-! ## Records -/

/-- `ns_skiprr` from `ptr + consumed` on. -/
def nsSkiprrLoop (message : List UInt8) (ptr section_ : Nat) : Nat → Nat → Option Nat
  | consumed, 0 => some consumed
  | consumed, remainingRecords + 1 => do
    let totalBytes := message.length - ptr
    let nameBytes ← dnSkipname message (ptr + consumed)
    if nameBytes + 4 > totalBytes - consumed then none
    else
      let consumed := consumed + (nameBytes + 4)
      if section_ ≠ 0 then
        if 6 > totalBytes - consumed then none
        else
          let rdataBytes := nsGet16 message (ptr + (consumed + 4))
          let consumed := consumed + 4 + 2
          if rdataBytes > totalBytes - consumed then none
          else nsSkiprrLoop message ptr section_ (consumed + rdataBytes) remainingRecords
      else nsSkiprrLoop message ptr section_ consumed remainingRecords

/-- `ns_skiprr`; `none` is -1, with `EMSGSIZE`. -/
def nsSkiprr (message : List UInt8) (ptr section_ count : Nat) : Option Nat :=
  nsSkiprrLoop message ptr section_ 0 count

/-- `ns_msg`; the four counts and section starts, null for an empty section. -/
structure NsMsg where
  message : List UInt8
  id : Nat
  flags : Nat
  counts : List Nat
  sections : List (Option Nat)
  section_ : Int
  recordNumber : Int
  messageCursor : Option Nat
deriving DecidableEq, Repr

/-- `ns_rr`; `rdata` is null in a question. -/
structure NsRr where
  name : List UInt8
  recordType : Nat
  recordClass : Nat
  ttl : Nat
  rdataLength : Nat
  rdata : Option Nat
deriving DecidableEq, Repr

/-- The sections of `ns_initparse` from a cursor on: their starts and the end. -/
def initSections (message : List UInt8) (counts : List Nat) :
    List Nat → Nat → Option (List (Option Nat) × Nat)
  | [], cursor => some ([], cursor)
  | index :: rest, cursor => do
    let count := counts.getD index 0
    if count ≠ 0 then
      let skipped ← nsSkiprr message cursor index count
      let (starts, end_) ← initSections message counts rest (cursor + skipped)
      some (some cursor :: starts, end_)
    else
      let (starts, end_) ← initSections message counts rest cursor
      some (none :: starts, end_)

/-- `ns_initparse`; `none` is -1. -/
def nsInitparse (message : List UInt8) : Option NsMsg :=
  if message.length < 12 then none
  else
    let counts := [nsGet16 message 4, nsGet16 message 6, nsGet16 message 8, nsGet16 message 10]
    match initSections message counts [0, 1, 2, 3] 12 with
    | none => none
    | some (sections, cursor) =>
      if cursor ≠ message.length then none
      else some ⟨message, nsGet16 message 0, nsGet16 message 2, counts, sections, 4, -1, none⟩

/-- The record at a cursor, with the cursor as `ns_parserr` leaves it behind. -/
def readRecord (message : List UInt8) (section_ cursor : Nat) : Except Nat NsRr × Nat :=
  match dnExpand message cursor with
  | none => (.error emsgsize, cursor)
  | some (nameBytes, name) =>
    let cursor := cursor + nameBytes
    if 4 > message.length - cursor then (.error emsgsize, cursor)
    else
      let recordType := nsGet16 message cursor
      let recordClass := nsGet16 message (cursor + 2)
      let cursor := cursor + 4
      if section_ ≠ 0 then
        if 6 > message.length - cursor then (.error emsgsize, cursor)
        else
          let ttl := nsGet32 message cursor
          let rdataLength := nsGet16 message (cursor + 4)
          let cursor := cursor + 6
          if rdataLength > message.length - cursor then (.error emsgsize, cursor)
          else
            (.ok ⟨name, recordType, recordClass, ttl, rdataLength, some cursor⟩, cursor + rdataLength)
      else (.ok ⟨name, recordType, recordClass, 0, 0, none⟩, cursor)

/-- The handle with a section made the active one. -/
def NsMsg.activate (handle : NsMsg) (section_ : Int) : NsMsg :=
  if section_ ≠ handle.section_ then
    { handle with
      section_ := section_
      recordNumber := 0
      messageCursor := handle.sections.getD section_.toNat none }
  else handle

/-- The handle back at the start of the section, if it is behind the record. -/
def NsMsg.rewind (handle : NsMsg) (section_ recordNumber : Int) : NsMsg :=
  if recordNumber < handle.recordNumber then
    { handle with
      recordNumber := 0
      messageCursor := handle.sections.getD section_.toNat none }
  else handle

/-- The handle with its cursor at the record `recordNumber` of the active section; `false`
    is a failed `ns_skiprr`, which leaves the handle as it is. -/
def NsMsg.forward (handle : NsMsg) (section_ recordNumber : Int) : NsMsg × Bool :=
  if recordNumber > handle.recordNumber then
    let cursor := handle.messageCursor.getD 0
    match nsSkiprr handle.message cursor section_.toNat
      (recordNumber - handle.recordNumber).toNat with
    | none => (handle, false)
    | some skipped =>
      ({ handle with recordNumber := recordNumber, messageCursor := some (cursor + skipped) }, true)
  else (handle, true)

/-- The handle behind a record that was read: the next number, and the next section if that
    is more than there are. -/
def NsMsg.advance (handle : NsMsg) (section_ : Int) (count : Nat) : NsMsg :=
  let handle := { handle with recordNumber := handle.recordNumber + 1 }
  if handle.recordNumber > (count : Int) then
    if section_ + 1 = 4 then
      { handle with section_ := section_ + 1, recordNumber := -1, messageCursor := none }
    else { handle with section_ := section_ + 1, recordNumber := 0 }
  else handle

/-- `ns_parserr`: the record or `errno`, and the handle. -/
def nsParserr (handle : NsMsg) (section_ recordNumber : Int) : Except Nat NsRr × NsMsg :=
  if section_ < 0 ∨ 4 ≤ section_ then (.error enodev, handle)
  else
    let handle := handle.activate section_
    let recordNumber := if recordNumber = -1 then handle.recordNumber else recordNumber
    let count := handle.counts.getD section_.toNat 0
    if recordNumber < 0 ∨ recordNumber ≥ count then (.error enodev, handle)
    else
      match (handle.rewind section_ recordNumber).forward section_ recordNumber with
      | (handle, false) => (.error emsgsize, handle)
      | (handle, true) =>
        match readRecord handle.message section_.toNat (handle.messageCursor.getD 0) with
        | (.error errno, cursor) => (.error errno, { handle with messageCursor := some cursor })
        | (.ok record, cursor) =>
          (.ok record, { handle with messageCursor := some cursor }.advance section_ count)

end Crabc.Libc
