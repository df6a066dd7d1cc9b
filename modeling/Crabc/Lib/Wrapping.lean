/-
  Crabc.Lib.Wrapping

  Signed machine arithmetic over the integers.  Every operation wraps; a computation
  remembers whether some operation wrapped a value out of its range.  `Yields` says that
  none did and what the value is, and is established one operation at a time; the ranges
  are found by arithmetic where they can be.
-/

import Mathlib

namespace Crabc.Lib

/-- A value, and whether every operation on the way was exact. -/
structure Wrapping (α : Type) where
  value : α
  exact : Bool
deriving DecidableEq, Repr

namespace Wrapping

variable {α β : Type}

def pure (value : α) : Wrapping α := ⟨value, true⟩

def bind (c : Wrapping α) (f : α → Wrapping β) : Wrapping β :=
  ⟨(f c.value).value, c.exact && (f c.value).exact⟩

instance : Monad Wrapping where
  pure := pure
  bind := bind

/-- The range of `i32`. -/
def InI32 (n : Int) : Prop := -2147483648 ≤ n ∧ n < 2147483648

/-- The range of `i64`. -/
def InI64 (n : Int) : Prop := -9223372036854775808 ≤ n ∧ n < 9223372036854775808

instance (n : Int) : Decidable (InI32 n) := inferInstanceAs (Decidable (_ ∧ _))

instance (n : Int) : Decidable (InI64 n) := inferInstanceAs (Decidable (_ ∧ _))

/-- The result of an `i32` operation, or of a cast to `i32`. -/
def i32 (n : Int) : Wrapping Int :=
  ⟨(n + 2147483648) % 4294967296 - 2147483648, decide (InI32 n)⟩

/-- The result of an `i64` operation. -/
def i64 (n : Int) : Wrapping Int :=
  ⟨(n + 9223372036854775808) % 18446744073709551616 - 9223372036854775808, decide (InI64 n)⟩

/-! ## Exact computations -/

/-- No operation wrapped, and the value is `v`. -/
structure Yields (c : Wrapping α) (v : α) : Prop where
  exact : c.exact = true
  value : c.value = v

theorem yields_pure (v : α) : (Pure.pure v : Wrapping α).Yields v := ⟨rfl, rfl⟩

variable {n : Int} {f : Int → Wrapping β}

theorem yields_i32 (h : -2147483648 ≤ n ∧ n < 2147483648 := by omega) : (i32 n).Yields n where
  exact := decide_eq_true h
  value := by
    obtain ⟨hlow, hhigh⟩ := h
    show (n + 2147483648) % 4294967296 - 2147483648 = n
    omega

theorem yields_i64 (h : -9223372036854775808 ≤ n ∧ n < 9223372036854775808 := by omega) : (i64 n).Yields n where
  exact := decide_eq_true h
  value := by
    obtain ⟨hlow, hhigh⟩ := h
    show (n + 9223372036854775808) % 18446744073709551616 - 9223372036854775808 = n
    omega

theorem Yields.bind {c : Wrapping α} {f : α → Wrapping β} {v : α} {w : β} (h : c.Yields v)
    (hf : (f v).Yields w) : (c >>= f).Yields w := by
  obtain ⟨hexact, rfl⟩ := h
  refine ⟨?_, hf.value⟩
  show (c.exact && (f c.value).exact) = true
  rw [hexact, hf.exact]
  rfl

/-- An `i32` operation whose result is in range, and what follows it. -/
theorem bind_i32 {w : β} (hf : (f n).Yields w) (h : -2147483648 ≤ n ∧ n < 2147483648 := by omega) : (i32 n >>= f).Yields w :=
  (yields_i32 h).bind hf

/-- An `i64` operation whose result is in range, and what follows it. -/
theorem bind_i64 {w : β} (hf : (f n).Yields w) (h : -9223372036854775808 ≤ n ∧ n < 9223372036854775808 := by omega) : (i64 n >>= f).Yields w :=
  (yields_i64 h).bind hf

theorem Yields.of_eq {c : Wrapping α} {v w : α} (h : c.Yields v) (heq : v = w) : c.Yields w :=
  heq ▸ h

end Wrapping

end Crabc.Lib
