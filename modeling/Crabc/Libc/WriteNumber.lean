/-
  Crabc.Libc.WriteNumber

  `write_number`: the bytes that an integer conversion hands to the sink.  The digits are
  written from the last slot of a buffer of 24 bytes to the front.
-/

import Mathlib

namespace Crabc.Libc

open List

/-- The parameters of a conversion. -/
structure NumberFormat where
  base : Nat
  uppercase : Bool
  sign : Option UInt8
  alternate : Bool
  width : Nat
  precision : Option Nat
  flags : UInt8

def saturatingAdd (a b : Nat) : Nat := min (a + b) 0xffffffffffffffff

theorem saturatingAdd_eq {a b : Nat} (h : a + b ≤ 0x7fffffff) : saturatingAdd a b = a + b :=
  Nat.min_eq_left (h.trans (by decide))

namespace NumberFormat

variable (f : NumberFormat)

/-- The divisor of the digit loop. -/
def radix : Nat := if f.base = 10 then 10 else if f.base = 8 then 8 else 16

def digit (d : Nat) : UInt8 :=
  if f.base = 10 ∨ f.base = 8 ∨ d < 10 then 48 + .ofNat d else (if f.uppercase then 65 - 10 else 97 - 10) + .ofNat d

/-- The loop over the slots that are left; `written` is the end of the buffer. -/
def digitLoop : Nat → Nat → List UInt8 → List UInt8
  | 0, _, written => written
  | slots + 1, value, written =>
    let written := f.digit (value % f.radix) :: written
    if value / f.radix = 0 then written else digitLoop slots (value / f.radix) written

variable (value : Nat)

/-- The sign and the prefix of a hexadecimal number. -/
def front : List UInt8 :=
  f.sign.toList ++ if f.alternate ∧ f.base = 16 ∧ value ≠ 0 then [48, if f.uppercase then 88 else 120] else []

/-- `write_number` behind `count` bytes; a field that does not fit is not written. -/
def writeNumber (count : Nat) : Option (List UInt8) :=
  let digits := if value ≠ 0 then f.digitLoop 24 value [] else if f.precision ≠ some 0 then [48] else []
  let zeroPrecision := f.precision.getD 0 - digits.length
  let octalZero := if f.alternate ∧ f.base = 8 ∧
    (digits.length = 0 ∨ value ≠ 0 ∧ zeroPrecision = 0 ∧ digits.head? ≠ some 48) then [48] else []
  let content := saturatingAdd (f.front value).length
    (saturatingAdd (saturatingAdd digits.length zeroPrecision) octalZero.length)
  let padding := f.width - content
  let minus := f.flags &&& 1 ≠ 0
  let zeroWidth := f.flags &&& 8 ≠ 0 ∧ ¬minus ∧ f.precision = none
  if count + max f.width content > 0x7fffffff then none
  else some ((if ¬minus ∧ ¬zeroWidth then replicate padding 32 else []) ++ f.front value ++
    (if ¬minus ∧ zeroWidth then replicate padding 48 else []) ++ octalZero ++ replicate zeroPrecision 48 ++ digits ++
    if minus then replicate padding 32 else [])

/-- The digits without leading zeros; none for zero with precision zero. -/
def digits : List UInt8 :=
  if value ≠ 0 then ((Nat.digits f.base value).map f.digit).reverse else if f.precision ≠ some 0 then [48] else []

/-- The digits behind the zeros of the precision. -/
def padded : List UInt8 := replicate (f.precision.getD 0 - (f.digits value).length) 48 ++ f.digits value

/-- With `#` an octal number starts with a zero. -/
def octal : List UInt8 := if f.alternate ∧ f.base = 8 ∧ (f.padded value).head? ≠ some 48 then [48] else []

def number : List UInt8 := f.octal value ++ f.padded value

/-- The whole field. -/
def field : List UInt8 :=
  let padding := f.width - (f.front value ++ f.number value).length
  if f.flags &&& 1 ≠ 0 then f.front value ++ f.number value ++ replicate padding 32
  else if f.flags &&& 8 ≠ 0 ∧ f.precision = none then f.front value ++ replicate padding 48 ++ f.number value
  else replicate padding 32 ++ f.front value ++ f.number value

variable {f value}

theorem digitLoop_eq (hbase : f.radix = f.base) {slots : Nat} {written : List UInt8} (hne : value ≠ 0)
    (hlt : value < f.base ^ slots) :
    f.digitLoop slots value written = ((Nat.digits f.base value).map f.digit).reverse ++ written := by
  have hone : 1 < f.base := by
    rw [← hbase, radix]
    split_ifs <;> decide
  induction slots generalizing value written with
  | zero =>
    rw [pow_zero] at hlt
    omega
  | succ slots ih =>
    rw [digitLoop, hbase, Nat.digits_def' hone (by omega), map_cons, reverse_cons, append_assoc]
    by_cases hzero : value / f.base = 0
    · rw [if_pos hzero, hzero, Nat.digits_zero]
      rfl
    · rw [if_neg hzero, ih hzero (Nat.div_lt_of_lt_mul (by rwa [pow_succ'] at hlt))]
      rfl

/-- **The layout.** -/
theorem writeNumber_layout {count : Nat} (hbase : f.base = 8 ∨ f.base = 10 ∨ f.base = 16) (hvalue : value < 2 ^ 64)
    (hfits : count + max f.width (f.front value ++ f.number value).length ≤ 0x7fffffff) :
    f.writeNumber value count = some (f.field value) ∧
    (f.field value).length = max f.width (f.front value ++ f.number value).length ∧
    f.precision.getD 0 ≤ (f.number value).length ∧
    (f.alternate → f.base = 8 → (f.number value).head? = some 48) := by
  have hradix : f.radix = f.base := by
    rw [radix]
    rcases hbase with h | h | h <;> simp [h]
  have hlt : value < f.base ^ 24 := by
    rcases hbase with h | h | h <;> rw [h] <;> omega
  have hdigits : (if value ≠ 0 then f.digitLoop 24 value [] else if f.precision ≠ some 0 then [48] else []) =
      f.digits value := by
    rw [digits]
    split_ifs with hne
    · rw [digitLoop_eq hradix hne hlt, append_nil]
    all_goals rfl
  -- the source asks for the octal zero where the padded digits do not start with one
  have hoctal : (if f.alternate ∧ f.base = 8 ∧ ((f.digits value).length = 0 ∨ value ≠ 0 ∧
      f.precision.getD 0 - (f.digits value).length = 0 ∧ (f.digits value).head? ≠ some 48) then [48] else []) =
      f.octal value := by
    rw [octal, padded, head?_append, head?_replicate, digits]
    grind [Nat.digits_ne_nil_iff_ne_zero]
  have hlength : (f.number value).length = (f.digits value).length +
      (f.precision.getD 0 - (f.digits value).length) + (f.octal value).length := by
    simp only [number, padded, length_append, length_replicate]
    omega
  refine ⟨?_, ?_, by omega, ?_⟩
  · simp only [length_append, hlength] at hfits
    simp only [writeNumber, hdigits, hoctal]
    rw [saturatingAdd_eq (a := (f.digits value).length) (by omega),
      saturatingAdd_eq (a := (f.digits value).length + _) (by omega), saturatingAdd_eq (by omega),
      if_neg (Nat.not_lt.mpr hfits), ← hlength, ← length_append, field, number, padded]
    by_cases hminus : f.flags &&& 1 = 0
    · by_cases hzero : f.flags &&& 8 ≠ 0 ∧ f.precision = none <;> simp [hminus, hzero]
    · simp [hminus]
  · rw [field]
    split_ifs <;> simp only [length_append, length_replicate] <;> omega
  · intro halternate hbase
    rw [number, octal]
    grind

theorem writeNumber_layout_seven : writeNumber ⟨10, false, none, false, 3, none, 0⟩ 7 0 = some [32, 32, 55] := by
  refine (writeNumber_layout (.inr (.inl rfl)) (by decide) ?_).1.trans ?_
  all_goals simp [field, number, octal, padded, digits, front, digit]

end NumberFormat

end Crabc.Libc
