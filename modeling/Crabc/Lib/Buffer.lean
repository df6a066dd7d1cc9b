/-
  Crabc.Lib.Buffer

  Writes into a buffer of fixed length.  A write out of the buffer panics.  The
  programs here fill their buffers from the front, so what is kept of a buffer is its
  length and the bytes it starts with.
-/

import Crabc.Lib.Checked

namespace Crabc.Lib

variable {ε α : Type}

namespace Checked

/-- `buffer[i..i + bytes.len()].copy_from_slice(bytes)`. -/
def blit (buffer : List α) (i : Nat) (bytes : List α) : Checked ε (List α) :=
  inRange (i + bytes.length ≤ buffer.length)
    (buffer.take i ++ bytes ++ buffer.drop (i + bytes.length))

/-- `buffer[i] = byte`. -/
def store (buffer : List α) (i : Nat) (byte : α) : Checked ε (List α) := blit buffer i [byte]

end Checked

variable {i n : Nat} {front buffer : List α}

open List Checked

/-- A write over a part of a buffer of the same length. -/
theorem blit_append {bytes back : List α} (old : List α) (hi : i = front.length) (hlen : old.length = bytes.length) :
    (blit (front ++ (old ++ back)) i bytes : Checked ε (List α)) = .ok (front ++ (bytes ++ back)) := by
  subst hi
  have hroom : front.length + bytes.length ≤ (front ++ (old ++ back)).length := by
    rw [length_append, length_append]
    omega
  rw [blit, inRange_ok hroom, take_left, ← drop_drop, drop_left, ← hlen, drop_left, append_assoc]

theorem store_ok {byte : α} (hi : i < buffer.length) :
    (store buffer i byte : Checked ε (List α)) = .ok (buffer.set i byte) := by
  have hroom : i + [byte].length ≤ buffer.length := hi
  rw [store, blit, inRange_ok hroom, set_eq_take_append_cons_drop, if_pos hi, append_assoc, singleton_append]
  rfl

/-- One byte of the front part. -/
theorem store_front (back : List α) (byte : α) (hi : i < front.length) :
    (store (front ++ back) i byte : Checked ε (List α)) = .ok (front.set i byte ++ back) := by
  rw [store_ok (by rw [length_append]; omega), set_append_left i byte hi]

/-- One byte behind the front part. -/
theorem store_back {back : List α} {j : Nat} (front : List α) (byte : α) (hi : i = front.length + j)
    (hj : j < back.length) :
    (store (front ++ back) i byte : Checked ε (List α)) = .ok (front ++ back.set j byte) := by
  subst hi
  rw [store_ok (by rw [length_append]; omega),
    set_append_right _ byte (Nat.le_add_right _ _), Nat.add_sub_cancel_left]

/-- A buffer of `n` bytes that starts with `front`. -/
structure Filled (buffer : List α) (n : Nat) (front : List α) : Prop where
  length : buffer.length = n
  front : front <+: buffer

theorem filled_nil : Filled buffer buffer.length [] := ⟨rfl, nil_prefix⟩

variable (h : Filled buffer n front)
include h

theorem Filled.le : front.length ≤ n := h.length ▸ h.front.length_le

theorem Filled.take : buffer.take front.length = front :=
  (prefix_iff_eq_take.mp h.front).symm

/-- A buffer filled to its end. -/
theorem Filled.eq (hn : front.length = n) : buffer = front :=
  (h.front.eq_of_length (hn.trans h.length.symm)).symm

/-- A write behind the front extends it. -/
theorem Filled.blit (bytes : List α) (hi : i = front.length) (hroom : i + bytes.length ≤ n) :
    ∃ buffer', (blit buffer i bytes : Checked ε (List α)) = .ok buffer' ∧ Filled buffer' n (front ++ bytes) := by
  subst hi
  have hlen := h.length
  refine ⟨_, inRange_ok (by omega), ?_, ?_⟩
  · rw [length_append, length_append, length_take, length_drop]
    omega
  · rw [h.take]
    exact prefix_append _ _

theorem Filled.store (byte : α) (hi : i = front.length) (hroom : i < n) :
    ∃ buffer', (store buffer i byte : Checked ε (List α)) = .ok buffer' ∧ Filled buffer' n (front ++ [byte]) :=
  h.blit [byte] hi hroom

theorem Filled.set (byte : α) (hi : i = front.length) (hroom : i < n) :
    Filled (buffer.set i byte) n (front ++ [byte]) := by
  obtain ⟨buffer', hstore, hfilled⟩ := h.store (ε := Unit) byte hi hroom
  rw [store_ok (h.length ▸ hroom)] at hstore
  cases hstore
  exact hfilled

end Crabc.Lib
