/-
  Crabc.Text.VersionCmp

  The three copies of the `strverscmp` comparison: the slice version
  `crabc-core/src/text.rs::version_cmp` and the two C-string versions,
  `libc/src/strverscmp.rs::strverscmp` and
  `libc/src/c_abi/x86_64/byte_strings.rs::version_name_compare`.

  All three first walk the maximal common prefix, remembering where its last
  digit run starts and whether that run is all zeros.  The index loops are
  recursions on the two suffixes at the current index.  A C string is the list
  of the bytes of its object, terminator included, and a read past that list
  makes the whole run `none`.
-/

import Mathlib

namespace Crabc.Text

/-! ## The walk over the common prefix -/

/-- The loop variables `index`, `digit_prefix` and `all_zero`. -/
structure VersionScan where
  index : Nat := 0
  digitPrefix : Nat := 0
  allZero : Bool := true
deriving DecidableEq, Repr

/-- One round of the prefix loop, on a byte the two strings share. -/
def VersionScan.step (digit : UInt8 → Bool) (s : VersionScan) (byte : UInt8) : VersionScan :=
  if !digit byte then
    { index := s.index + 1, digitPrefix := s.index + 1, allZero := true }
  else if byte ≠ 48 then
    { s with index := s.index + 1, allZero := false }
  else
    { s with index := s.index + 1 }

/-- The musl test `c - '1' < 9U`: a byte of `'1'..'9'`. -/
def nonzeroDigit (byte : UInt8) : Bool := byte - 49 < 9

/-! ## The slice version -/

/-- `text.rs::is_ascii_digit`. -/
def isAsciiDigit (byte : UInt8) : Bool := byte ≥ 48 && byte ≤ 57

/-- The prefix loop of `version_cmp`: stops at the end of either slice or at the first difference. -/
def commonPrefix : List UInt8 → List UInt8 → VersionScan → VersionScan
  | a :: left, b :: right, s =>
    if a = b then commonPrefix left right (s.step isAsciiDigit a) else s
  | _, _, s => s

/-- The digit-run loop of `version_cmp`, from `index` on: the longer run is the
    greater one, `none` when the runs are equally long. -/
def longerRun : List UInt8 → List UInt8 → Option Ordering
  | a :: left, right =>
    if isAsciiDigit a then
      match right with
      | b :: right => if isAsciiDigit b then longerRun left right else some .gt
      | [] => some .gt
    else if right.head?.any isAsciiDigit then some .lt else none
  | [], right => if right.head?.any isAsciiDigit then some .lt else none

/-- `text.rs::version_cmp`. -/
def versionCmp (left right : List UInt8) : Ordering :=
  let s := commonPrefix left right {}
  if s.index = left.length ∧ s.index = right.length then .eq
  else
    let bytes := compare ((left[s.index]?).getD 0) ((right[s.index]?).getD 0)
    if (left[s.digitPrefix]?).any nonzeroDigit && (right[s.digitPrefix]?).any nonzeroDigit then
      (longerRun (left.drop s.index) (right.drop s.index)).getD bytes
    else if s.allZero && s.digitPrefix < s.index &&
        ((left[s.index]?).any isAsciiDigit || (right[s.index]?).any isAsciiDigit) then
      -- an exhausted side is read as `b'0'` here
      compare ((left[s.index]?).getD 48 - 48) ((right[s.index]?).getD 48 - 48)
    else bytes

/-! ## The C-string versions -/

/-- The prefix loop on C strings.  `some none` is the early `return 0` at a
    shared terminator, `some (some s)` the first difference. -/
def commonPrefixC (digit : UInt8 → Bool) :
    List UInt8 → List UInt8 → VersionScan → Option (Option VersionScan)
  | a :: left, b :: right, s =>
    if a = b then
      if a = 0 then some none else commonPrefixC digit left right (s.step digit a)
    else some (some s)
  | _, _, _ => none

/-- The digit-run loop on C strings: `some none` falls through to the final byte difference. -/
def longerRunC (digit : UInt8 → Bool) : List UInt8 → List UInt8 → Option (Option Int)
  | a :: left, b :: right =>
    if digit a then
      if digit b then longerRunC digit left right else some (some 1)
    else if digit b then some (some (-1)) else some none
  | _, _ => none

/-- The musl state machine over two C strings, shared by both C entries. -/
def versionCompareC (digit : UInt8 → Bool) (left right : List UInt8) : Option Int := do
  match ← commonPrefixC digit left right {} with
  | none => return 0
  | some s =>
    let l ← left[s.index]?
    let r ← right[s.index]?
    let leftStart ← left[s.digitPrefix]?
    let rightStart ← right[s.digitPrefix]?
    if nonzeroDigit leftStart && nonzeroDigit rightStart then
      let run ← longerRunC digit (left.drop s.index) (right.drop s.index)
      return run.getD ((l.toNat : Int) - r.toNat)
    else if s.allZero && s.digitPrefix < s.index && (digit l || digit r) then
      return ((l - 48).toNat : Int) - (r - 48).toNat
    else
      return (l.toNat : Int) - r.toNat

/-- `c_abi.rs::isdigit`, on the `c_int` value of an unsigned byte: outside
    `0..127` the class table is not consulted. -/
def isdigit (c : Int) : Int :=
  if c < 0 ∨ c > 127 then 0 else if 48 ≤ c ∧ c ≤ 57 then 1 else 0

/-- `libc/src/strverscmp.rs::strverscmp`. -/
def strverscmp (a b : List UInt8) : Option Int :=
  versionCompareC (fun c => isdigit c.toNat ≠ 0) a b

/-- `byte_strings.rs::is_decimal_digit`. -/
def isDecimalDigit (byte : UInt8) : Bool := byte - 48 < 10

/-- `byte_strings.rs::version_name_compare`. -/
def versionNameCompare (left right : List UInt8) : Option Int :=
  versionCompareC isDecimalDigit left right

end Crabc.Text
