/-
  Crabc.Lib.Numeral

  Numerals as bytes: the digits of a number in a base up to sixteen, in lower case and
  without leading zeros, and what reading such a numeral digit by digit gives.
-/

import Mathlib

namespace Crabc.Lib

open List

/-- The byte of a digit. -/
def digitByte (d : Nat) : UInt8 := UInt8.ofNat (Nat.digitChar d).toNat

/-- The numeral of `n` in a base. -/
def numeral (base n : Nat) : List UInt8 :=
  (Nat.toDigits base n).map fun c => UInt8.ofNat c.toNat

/-- The value of a list of digits that follows digits of value `start`. -/
def digitsValue (base start : Nat) (digits : List Nat) : Nat :=
  digits.foldl (fun value d => base * value + d) start

/-- The digits of a number, without leading zeros. -/
structure Digits (base n : Nat) (digits : List Nat) : Prop where
  lt : ∀ d ∈ digits, d < base
  value : digitsValue base 0 digits = n
  leading : digits = [0] ∨ ∃ d rest, digits = d :: rest ∧ d ≠ 0

variable {base n : Nat}

theorem numeral_of_lt (h : n < base) : numeral base n = [digitByte n] := by
  rw [numeral, Nat.toDigits_of_lt_base h]
  rfl

/-- The last digit comes off the end. -/
theorem numeral_step (hbase : 1 < base) (h : base ≤ n) :
    numeral base n = numeral base (n / base) ++ [digitByte (n % base)] := by
  rw [numeral, Nat.toDigits_eq_if hbase, if_neg (by omega), map_append]
  rfl

theorem numeral_digits (hbase : 1 < base) (n : Nat) :
    ∃ digits, numeral base n = digits.map digitByte ∧ Digits base n digits := by
  induction n using Nat.strongRecOn with
  | ind n ih =>
    by_cases h : n < base
    · refine ⟨[n], numeral_of_lt h, ?_, ?_, ?_⟩
      · rintro d (_ | ⟨_, ⟨⟩⟩)
        exact h
      · show base * 0 + n = n
        omega
      · by_cases hzero : n = 0
        · exact .inl (by rw [hzero])
        · exact .inr ⟨n, [], rfl, hzero⟩
    · have hpos : 0 < n / base := Nat.div_pos (by omega) (by omega)
      obtain ⟨digits, htext, hdigits⟩ := ih (n / base) (Nat.div_lt_self (by omega) hbase)
      refine ⟨digits ++ [n % base], ?_, ?_, ?_, ?_⟩
      · rw [numeral_step hbase (by omega), htext, map_append]
        rfl
      · intro d hd
        rcases mem_append.mp hd with hd | hd
        · exact hdigits.lt d hd
        · rw [mem_singleton.mp hd]
          exact Nat.mod_lt _ (by omega)
      · rw [digitsValue, foldl_append]
        show base * digitsValue base 0 digits + n % base = n
        rw [hdigits.value]
        exact Nat.div_add_mod n base
      · right
        obtain hdigits' | ⟨d, rest, rfl, hd⟩ := hdigits.leading
        · -- a leading zero would be the numeral of zero
          have hvalue := hdigits.value
          rw [hdigits'] at hvalue
          exact absurd hvalue (by show base * 0 + 0 ≠ n / base; omega)
        · exact ⟨d, rest ++ [n % base], rfl, hd⟩

theorem length_numeral_le {k : Nat} (hk : 0 < k) (h : n < base ^ k) : (numeral base n).length ≤ k := by
  rw [numeral, length_map]
  exact Nat.toDigits_length base n k hk h

theorem numeral_ne_nil (hbase : 1 < base) (n : Nat) : numeral base n ≠ [] := by
  obtain ⟨digits, htext, hdigits⟩ := numeral_digits hbase n
  rw [htext]
  obtain rfl | ⟨d, rest, rfl, -⟩ := hdigits.leading
  · exact cons_ne_nil _ _
  · exact cons_ne_nil _ _

end Crabc.Lib
