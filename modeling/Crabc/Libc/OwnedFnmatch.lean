/-
  Crabc.Libc.OwnedFnmatch

  The tokens and the bracket matcher of `owned_fnmatch.rs`, in the mode of the C entry:
  `str_next`, `pat_next_c`, `casefold` and `match_bracket_c`.

  A C string is the list of its bytes before the terminating NUL, from the pointer on.
  `match_bracket_c` is given no bound, so its model logs the positions it looks at and
  the positions at which it starts on a member; it fails when it looks behind the NUL.
-/

import Crabc.Lib.Logged
import Crabc.Libc.Locale
import Crabc.Pattern.Fnmatch

namespace Crabc.Libc

open Crabc.Lib Crabc.Pattern

/-! ## Tokens -/

/-- The bytes of a C string and its NUL. -/
def cells (string : List UInt8) : List UInt8 := string ++ [0]

/-- What `pat_next` reports: `END`, `UNMATCHABLE`, `BRACKET`, `QUESTION`, `STAR` or a character. -/
inductive PatToken where
  | end
  | unmatchable
  | bracket
  | question
  | star
  | literal (character : UInt32)
deriving DecidableEq, Repr

/-- The loops of `pat_next_c` over a bracket expression, from `cursor` on: where the closing bracket is, and
    the nested elements passed on the way, from their `[` to their `]`. Inside an element the mode is its
    opening and its delimiter, and the bytes start one before `cursor`. -/
def bracketWalk : Option (Nat × UInt8) → Nat → List UInt8 → Option (Nat × List (Nat × Nat))
  | _, _, [] => none
  | none, cursor, byte :: rest =>
    if byte = close then some (cursor, [])
    else if byte = open_ then
      match rest with
      | [] => none
      | delimiter :: rest' =>
        if isDelimiter delimiter then bracketWalk (some (cursor, delimiter)) (cursor + 3) rest'
        else bracketWalk none (cursor + 1) (delimiter :: rest')
    else bracketWalk none (cursor + 1) rest
  | some (opening, delimiter), cursor, previous :: rest =>
    match rest with
    | [] => none
    | byte :: rest' =>
      if previous = delimiter ∧ byte = close then
        (bracketWalk none (cursor + 1) rest').map fun r => (r.1, (opening, cursor) :: r.2)
      else bracketWalk (some (opening, delimiter)) (cursor + 1) (byte :: rest')

/-- The closing bracket and the nested elements of the expression that `pat_next_c`
    finds in `bytes`, which start with its `[`. -/
def bracketClose (bytes : List UInt8) : Option (Nat × List (Nat × Nat)) :=
  let cursor := 1 + bracketIntro (bytes.drop 1)
  bracketWalk none cursor (bytes.drop cursor)

/-- The end of `pat_next_c`: one character, behind `escaped` bytes. -/
def patLiteral (locale : Locale) (string : List UInt8) (count escaped : Nat) : PatToken × Nat :=
  match string with
  | [] => (.literal 0, 1 + escaped)
  | first :: _ =>
    if first ≥ 128 then
      match (mbtowc locale.utf8 (cells string) count).outcome with
      | none => (.unmatchable, 0)
      | some (character, decoded) => (.literal character, decoded + escaped)
    else (.literal first.toUInt32, 1 + escaped)

/-- `pat_next_c`: the token and the step. -/
def patNextC (locale : Locale) (string : List UInt8) (count : Nat) (flags : UInt32) :
    PatToken × Nat :=
  match count, string with
  | 0, _ => (.end, 0)
  | _ + 1, [] => (.end, 0)
  | _ + 1, first :: rest =>
    if first = backslash ∧ rest ≠ [] ∧ has flags fnmNoescape = false then
      patLiteral locale rest count 1
    else if first = open_ then
      match bracketClose (string.take count) with
      | none => (.literal open_.toUInt32, 1)
      | some (closing, _) => (.bracket, closing + 1)
    else if first = 0x2a then (.star, 1)
    else if first = 0x3f then (.question, 1)
    else patLiteral locale string count 0

/-- `casefold`. -/
def casefold (locale : Locale) (character : UInt32) : UInt32 :=
  let upper := towupper locale.tables character
  if upper = character then towlower locale.tables character else upper

/-! ## The bracket matcher -/

/-- `match_bracket_c` looks at a byte, or is at the head of its loop. -/
inductive Event where
  | look (position : Nat)
  | enter (position : Nat)
deriving DecidableEq, Repr

/-- `byte`. -/
def byteAt (string : List UInt8) (position : Nat) : Logged Event UInt8 :=
  ⟨[.look position], (cells string)[position]?⟩

/-- The bytes that `copy_nonoverlapping` takes. -/
def bytesAt (string : List UInt8) (position length : Nat) : Logged Event (List UInt8) :=
  ⟨(List.range length).map fun i => .look (position + i),
    if position + length ≤ (cells string).length then
      some (((cells string).drop position).take length)
    else none⟩

/-- `mbtowc` with the bound of four bytes. -/
def mbtowcAt (locale : Locale) (string : List UInt8) (position : Nat) :
    Logged Event (Option (UInt32 × Nat)) :=
  let decoded := mbtowc locale.utf8 ((cells string).drop position) 4
  ⟨(List.range decoded.looked).map fun i => .look (position + i),
    if position < (cells string).length then some decoded.outcome else none⟩

/-- Where the loop of `match_bracket_c` is: `pattern` and `wide`. -/
structure Member where
  position : Nat
  wide : UInt32
deriving DecidableEq, Repr

/-- The two characters that `match_bracket_c` looks for. -/
structure Sought where
  character : UInt32
  folded : UInt32
deriving DecidableEq, Repr

/-- The test of a range. -/
def Sought.within (sought : Sought) (wide high : UInt32) : Bool :=
  wide ≤ high && (sought.character - wide ≤ high - wide || sought.folded - wide ≤ high - wide)

/-- The test of a class. -/
def Sought.inClass (sought : Sought) (locale : Locale) (name : List UInt8) : Bool :=
  iswctype locale.tables sought.character (wctype name) ||
    iswctype locale.tables sought.folded (wctype name)

/-- A range: its start is the last single member, its end behind the hyphen. -/
def rangeRound (locale : Locale) (string : List UInt8) (sought : Sought) (inverted : Bool)
    (m : Member) : Logged Event (Next Member Bool) := do
  match ← mbtowcAt locale string (m.position + 1) with
  | none => pure (.done false)
  | some (high, decoded) =>
    if sought.within m.wide high then pure (.done !inverted)
    else pure (.again ⟨m.position + (decoded + 1), m.wide⟩)

/-- The inner loop over a nested element: where its `]` is. -/
def nestedClose (string : List UInt8) (delimiter : UInt8) (start : Nat) : Logged Event Nat :=
  Logged.loop
    (fun position => do
      let previous ← byteAt string (position - 1)
      if previous ≠ delimiter then pure (.again (position + 1))
      else
        let byte ← byteAt string position
        if byte ≠ close then pure (.again (position + 1)) else pure (.done position))
    ((cells string).length + 1) start

/-- A nested element. -/
def nestedRound (locale : Locale) (string : List UInt8) (sought : Sought) (inverted : Bool)
    (m : Member) : Logged Event (Next Member Bool) := do
  let delimiter ← byteAt string (m.position + 1)
  let closing ← nestedClose string delimiter (m.position + 3)
  let classLength := closing - (m.position + 2) - 1
  if delimiter = 0x3a ∧ classLength < 16 then
    let name ← bytesAt string (m.position + 2) classLength
    if sought.inClass locale name then pure (.done !inverted)
    else pure (.again ⟨closing + 1, m.wide⟩)
  else pure (.again ⟨closing + 1, m.wide⟩)

/-- The test of a single member that ends at `last`: it counts unless it starts a range. -/
def singleTest (string : List UInt8) (sought : Sought) (inverted : Bool) (last : Nat)
    (wide : UInt32) : Logged Event (Next Member Bool) := do
  if wide = sought.character ∨ wide = sought.folded then
    let next ← byteAt string (last + 1)
    if next ≠ dash then pure (.done !inverted)
    else
      let after ← byteAt string (last + 2)
      if after = close then pure (.done !inverted) else pure (.again ⟨last + 1, wide⟩)
  else pure (.again ⟨last + 1, wide⟩)

/-- A single member. -/
def singleRound (locale : Locale) (string : List UInt8) (sought : Sought) (inverted : Bool)
    (position : Nat) (byte : UInt8) : Logged Event (Next Member Bool) := do
  if byte < 128 then singleTest string sought inverted position byte.toUInt32
  else
    match ← mbtowcAt locale string position with
    | none => pure (.done false)
    | some (wide, decoded) =>
      singleTest string sought inverted (position + (decoded - 1)) wide

/-- One round of the loop of `match_bracket_c`. -/
def memberRound (locale : Locale) (string : List UInt8) (sought : Sought) (inverted : Bool)
    (m : Member) : Logged Event (Next Member Bool) := do
  Logged.emit (.enter m.position)
  let byte ← byteAt string m.position
  if byte = close then pure (.done inverted)
  else if byte = dash then
    let next ← byteAt string (m.position + 1)
    if next ≠ close then rangeRound locale string sought inverted m
    else singleRound locale string sought inverted m.position byte
  else if byte = open_ then
    let next ← byteAt string (m.position + 1)
    if isDelimiter next then nestedRound locale string sought inverted m
    else singleRound locale string sought inverted m.position byte
  else singleRound locale string sought inverted m.position byte

/-- The loop of `match_bracket_c`; the byte before the first member seeds a range. -/
def matchMembers (locale : Locale) (string : List UInt8) (sought : Sought) (inverted : Bool)
    (start : Nat) : Logged Event Bool := do
  let seed ← byteAt string (start - 1)
  Logged.loop (memberRound locale string sought inverted) ((cells string).length + 1)
    ⟨start, seed.toUInt32⟩

/-- `match_bracket_c` at the `[` that `string` starts with. -/
def matchBracketC (locale : Locale) (string : List UInt8) (character folded : UInt32) :
    Logged Event Bool := do
  let first ← byteAt string 1
  let inverted : Bool := first == 0x5e || first == 0x21
  let start := if inverted then 2 else 1
  let leading ← byteAt string start
  if leading = close ∨ leading = dash then
    if character = leading.toUInt32 then pure !inverted
    else matchMembers locale string ⟨character, folded⟩ inverted (start + 1)
  else matchMembers locale string ⟨character, folded⟩ inverted start

end Crabc.Libc
