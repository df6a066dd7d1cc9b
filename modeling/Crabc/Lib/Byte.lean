/-
  Crabc.Lib.Byte

  Facts on bytes and machine words that are settled by looking at all of them or at
  one bit.
-/

import Mathlib

namespace Crabc.Lib

/-- A property of bytes holds everywhere once it holds of the 256 numerals. -/
theorem forall_byte {P : UInt8 → Prop} (h : ∀ n < 256, P (UInt8.ofNat n)) (b : UInt8) : P b := by
  have hb := h b.toNat b.toNat_lt
  rwa [UInt8.ofNat_toNat] at hb

/-- A word without its sign bit is a word below the sign bit. -/
theorem lt_of_and_sign_eq_zero {w : UInt32} (h : w &&& 0x80000000 = 0) : w < 0x80000000 := by
  have hbit : w.toNat.testBit 31 = false := by
    have hnat := congrArg UInt32.toNat h
    rw [UInt32.toNat_and] at hnat
    have hand := congrArg (Nat.testBit · 31) hnat
    rw [Nat.testBit_and] at hand
    have hsign : Nat.testBit (UInt32.toNat 0x80000000) 31 = true := by decide
    rwa [hsign, Bool.and_true] at hand
  have hw := w.toNat_lt
  by_contra hge
  have hle : 2 ^ 31 ≤ w.toNat := Nat.le_of_not_lt hge
  have hdiv : w.toNat / 2 ^ 31 = 1 := by omega
  rw [Nat.testBit_eq_decide_div_mod_eq, hdiv] at hbit
  exact absurd hbit (by decide)

/-- A mask that clears a disjunction clears its parts. -/
theorem and_eq_zero_of_or_and_eq_zero {a b mask : UInt32} (h : (a ||| b) &&& mask = 0) : a &&& mask = 0 := by
  rw [← UInt32.toBitVec_inj] at h ⊢
  rw [UInt32.toBitVec_and, UInt32.toBitVec_or] at h
  rw [UInt32.toBitVec_and]
  ext i hi
  have hbit := congrArg (fun v : BitVec 32 => v.getLsbD i) h
  simp only [BitVec.getLsbD_and, BitVec.getLsbD_or, UInt32.toBitVec_zero, BitVec.getLsbD_zero] at hbit
  grind

end Crabc.Lib
