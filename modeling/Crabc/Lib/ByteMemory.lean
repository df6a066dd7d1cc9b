/-
  Crabc.Lib.ByteMemory

  Memory as bytes by address, with little-endian 64-bit words at any address, and
  spans of addresses.  `Frame s m m'` says that between `m` and `m'` nothing outside
  `s` was written; what an operation leaves alone is told by its frame.
-/

import Mathlib

namespace Crabc.Lib

open UInt8 List

/-! ## Word arithmetic -/

variable {a : Nat}

open Nat

namespace Usize

/-- `usize::checked_add`. -/
def checkedAdd (a b : Nat) : Option Nat := if a + b < 2 ^ 64 then some (a + b) else none

/-- `usize::checked_sub`. -/
def checkedSub (a b : Nat) : Option Nat := if b ≤ a then some (a - b) else none

/-- `usize::checked_mul`. -/
def checkedMul (a b : Nat) : Option Nat := if a * b < 2 ^ 64 then some (a * b) else none

/-- `value & (align - 1)`. -/
def phase (value align : Nat) : Nat := value &&& (align - 1)

/-- `value & !(align - 1)`. -/
def alignDown (value align : Nat) : Nat := value - phase value align

/-- The next multiple of a power of two. -/
def alignUp (value align : Nat) : Option Nat :=
  if align = 0 ∨ ¬ align.isPowerOfTwo then none
  else (checkedAdd value (align - 1)).map (alignDown · align)

variable {c b : Nat}

theorem ite_some_iff {p : Prop} [Decidable p] : (if p then some a else none) = some c ↔ p ∧ c = a := by
  split
  case isTrue h => exact ⟨fun heq => ⟨h, (Option.some.inj heq).symm⟩, fun heq => heq.2 ▸ rfl⟩
  case isFalse h => exact ⟨fun heq => (Option.some_ne_none c heq.symm).elim, fun heq => absurd heq.1 h⟩

theorem checkedAdd_eq_some : checkedAdd a b = some c ↔ a + b < 2 ^ 64 ∧ c = a + b := ite_some_iff

theorem checkedSub_eq_some : checkedSub a b = some c ↔ b ≤ a ∧ c = a - b :=
  ite_some_iff

theorem checkedMul_eq_some : checkedMul a b = some c ↔ a * b < 2 ^ 64 ∧ c = a * b := ite_some_iff

theorem phase_eq_mod {align : Nat} (h : align.isPowerOfTwo) {value : Nat} : phase value align = value % align := by
  obtain ⟨k, rfl⟩ := h
  exact and_two_pow_sub_one_eq_mod value k

theorem dvd_alignDown {align : Nat} (h : align.isPowerOfTwo) {value : Nat} : align ∣ alignDown value align := by
  rw [alignDown, phase_eq_mod h]
  exact dvd_sub_mod value

/-- The smaller of two powers of two divides the larger one. -/
theorem dvd_of_isPowerOfTwo (ha : a.isPowerOfTwo) (hb : b.isPowerOfTwo) (h : a ≤ b) : a ∣ b := by
  obtain ⟨k, rfl⟩ := ha
  obtain ⟨l, rfl⟩ := hb
  exact pow_dvd_pow 2 ((Nat.pow_le_pow_iff_right (lt_succ_self 1)).mp h)

end Usize

/-! ## Spans -/

/-- `length` addresses from `base` on. -/
structure Span where
  base : Nat
  length : Nat
deriving DecidableEq

open Span

namespace Span

instance : Membership Nat Span := ⟨fun s a => s.base ≤ a ∧ a < s.base + s.length⟩

variable {s t : Span}

theorem mem_iff : a ∈ s ↔ s.base ≤ a ∧ a < s.base + s.length := Iff.rfl

theorem mem_mk {base length : Nat} : a ∈ mk base length ↔ base ≤ a ∧ a < base + length :=
  Iff.rfl

theorem add_mem {base length i : Nat} (hi : i < length) : base + i ∈ mk base length :=
  mem_mk.mpr ⟨by omega, by omega⟩

instance (s : Span) (a : Nat) : Decidable (a ∈ s) :=
  inferInstanceAs (Decidable (s.base ≤ a ∧ a < s.base + s.length))

/-- No address in common. -/
def Apart (s t : Span) : Prop := ∀ a, a ∈ s → a ∉ t

/-- All addresses in the other. -/
def Inside (s t : Span) : Prop := t.base ≤ s.base ∧ s.base + s.length ≤ t.base + t.length

theorem Apart.symm (h : s.Apart t) : t.Apart s := fun a ht hs => h a hs ht

theorem apart_of_le (h : s.base + s.length ≤ t.base) : s.Apart t := by
  intro a hs ht
  rw [mem_iff] at hs ht
  omega

theorem Inside.mem (h : s.Inside t) (ha : a ∈ s) : a ∈ t := by
  rw [mem_iff] at ha ⊢
  have := h.1
  have := h.2
  omega

theorem Apart.inside {u : Span} (h : t.Apart u) (hs : s.Inside t) : s.Apart u :=
  fun a ha => h a (hs.mem ha)

theorem apart_of_length_eq_zero (h : s.length = 0) {t : Span} : s.Apart t := by
  intro a ha
  rw [mem_iff] at ha
  omega

/-- A span among others is cut in two. -/
theorem pairwise_split {u : Span} {spans : List Span} (h : (u :: spans).Pairwise Apart) (hs : s.Inside u)
    (ht : t.Inside u) (hst : s.Apart t) : (s :: t :: spans).Pairwise Apart := by
  obtain ⟨hu, hspans⟩ := pairwise_cons.mp h
  refine pairwise_cons.mpr ⟨forall_mem_cons.mpr ⟨hst, fun v hv => ?_⟩,
    pairwise_cons.mpr ⟨fun v hv => (hu v hv).inside ht, hspans⟩⟩
  exact (hu v hv).inside hs

end Span

/-! ## Memory -/

/-- Bytes by address. -/
abbrev ByteMemory := Nat → UInt8

namespace ByteMemory

/-- The number that `n` bytes spell, the lowest one first. -/
def number (byte : Nat → UInt8) : Nat → Nat
  | 0 => 0
  | n + 1 => number byte n + (byte n).toNat * 256 ^ n

/-- The word at an address. -/
def word (m : ByteMemory) (a : Nat) : Nat := number (fun i => m (a + i)) 8

/-- Write a word. -/
def setWord (m : ByteMemory) (a w : Nat) : ByteMemory := fun b =>
  if b ∈ mk a 8 then ofNat (w / 256 ^ (b - a)) else m b

/-- Copy `length` bytes to a span that does not meet the one they stand in. -/
def copy (m : ByteMemory) (source target length : Nat) : ByteMemory := fun b =>
  if b ∈ mk target length then m (source + (b - target)) else m b

/-- Write one byte to a whole span. -/
def fill (m : ByteMemory) (s : Span) (byte : UInt8) : ByteMemory := fun b =>
  if b ∈ s then byte else m b

/-- Nothing is written outside a span. -/
def Frame (s : Span) (m m' : ByteMemory) : Prop := ∀ a, a ∉ s → m' a = m a

variable {m m' m'' : ByteMemory} {s t : Span}

theorem Frame.refl (s : Span) (m : ByteMemory) : Frame s m m := fun _ _ => rfl

theorem Frame.trans (h : Frame s m m') (h' : Frame s m' m'') : Frame s m m'' :=
  fun a ha => (h' a ha).trans (h a ha)

theorem Frame.mono (h : Frame s m m') (hs : s.Inside t) : Frame t m m' :=
  fun a ha => h a fun hmem => ha (hs.mem hmem)

theorem frame_setWord (m : ByteMemory) (a w : Nat) : Frame ⟨a, 8⟩ m (m.setWord a w) :=
  fun _ hb => if_neg hb

/-- A word is written at an offset of a span. -/
theorem Frame.setWord {base length : Nat} (h : Frame ⟨base, length⟩ m m') (offset : Nat) {w : Nat}
    (hoffset : offset + 8 ≤ length) : Frame ⟨base, length⟩ m (m'.setWord (base + offset) w) :=
  h.trans ((frame_setWord m' _ w).mono ⟨le_add_right _ _, by dsimp only; omega⟩)

theorem frame_copy {source target length : Nat} :
    Frame ⟨target, length⟩ m (m.copy source target length) := fun _ hb => if_neg hb

theorem frame_fill (m : ByteMemory) (s : Span) (byte : UInt8) : Frame s m (m.fill s byte) :=
  fun _ hb => if_neg hb

theorem fill_of_mem {b : Nat} (h : b ∈ s) (byte : UInt8) : m.fill s byte b = byte := if_pos h

theorem number_congr {byte byte' : Nat → UInt8} {n : Nat} (h : ∀ i, i < n → byte i = byte' i) :
    number byte n = number byte' n := by
  induction n with
  | zero => rfl
  | succ n ih => rw [number, number, ih fun i hi => h i (by omega), h n n.lt_succ_self]

theorem word_congr (h : ∀ b ∈ mk a 8, m' b = m b) : m'.word a = m.word a :=
  number_congr fun _ hi => h _ (add_mem hi)

/-- A word outside a frame is as it was. -/
theorem Frame.word (h : Frame s m m') (hapart : Span.Apart ⟨a, 8⟩ s) : m'.word a = m.word a :=
  word_congr fun b hb => h b (hapart b hb)

/-- The bytes of a number spell it. -/
theorem number_ofNat {w n : Nat} : number (fun i => ofNat (w / 256 ^ i)) n = w % 256 ^ n := by
  induction n with
  | zero => rw [number, pow_zero, mod_one]
  | succ n ih =>
    rw [number, ih, toNat_ofNat', mul_comm]
    exact mod_pow_succ.symm

/-- A word that was copied. -/
theorem word_copy {source target length k : Nat} (h : k + 8 ≤ length) :
    (m.copy source target length).word (target + k) = m.word (source + k) := by
  refine number_congr fun i hi => ?_
  rw [copy, add_assoc, if_pos (add_mem (by omega)), Nat.add_sub_cancel_left, add_assoc]

theorem number_lt {byte : Nat → UInt8} {n : Nat} : number byte n < 256 ^ n := by
  induction n with
  | zero => exact lt_succ_self 0
  | succ n ih =>
    have hbyte : (byte n).toNat * 256 ^ n ≤ 255 * 256 ^ n :=
      mul_le_mul_right _ (le_of_lt_succ (byte n).toNat_lt)
    rw [number, pow_succ]
    omega

theorem word_lt : m.word a < 2 ^ 64 := number_lt

theorem word_setWord {w : Nat} (hw : w < 2 ^ 64) : (m.setWord a w).word a = w := by
  have hbytes : ∀ i, i < 8 → m.setWord a w (a + i) = ofNat (w / 256 ^ i) := by
    intro i hi
    rw [setWord, if_pos (add_mem hi), Nat.add_sub_cancel_left]
  rw [word, number_congr hbytes, number_ofNat]
  exact mod_eq_of_lt hw

theorem word_zero (h : ∀ b ∈ mk a 8, m b = 0) : m.word a = 0 := by
  have hbytes : ∀ i, i < 8 → m (a + i) = ofNat (0 / 256 ^ i) := by
    intro i hi
    rw [Nat.zero_div]
    exact h _ (add_mem hi)
  rw [word, number_congr hbytes, number_ofNat]
  rfl

end ByteMemory

end Crabc.Lib
