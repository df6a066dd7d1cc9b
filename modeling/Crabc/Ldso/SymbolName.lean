/-
  Crabc.Ldso.SymbolName

  `bounded_symbol_name_len`: the terminator of a dynsym name is sought eight bytes at a
  time, then byte by byte, inside the string table.
-/

import Crabc.Lib.ByteMemory
import Crabc.Libc.QsortBits

namespace Crabc.Ldso

open Crabc.Lib Crabc.Libc ByteMemory List

/-- `read_unaligned` of a word; outside the table there is nothing to read. -/
def readUnaligned (name : List UInt8) (used : Nat) : Option (BitVec 64) :=
  if used + 8 ≤ name.length then some (.ofNat 64 (number (fun k => name.getD (used + k) 0) 8)) else none

/-- The word test. -/
def zeroMarks (word : BitVec 64) : BitVec 64 :=
  (word - 0x0101010101010101#64) &&& ~~~word &&& 0x8080808080808080#64

/-- The loop over the bytes of the final partial word. -/
def scanBytes (name : List UInt8) (available used : Nat) : Option (Option Nat) :=
  if h : used < available then do
    let byte ← name[used]?
    if byte = 0 then return some used else scanBytes name available (used + 1)
  else return none
termination_by available - used

/-- The loop over words. -/
def scanWords (name : List UInt8) (available used : Nat) : Option (Option Nat) :=
  if h : available - used ≥ 8 then do
    let zero := zeroMarks (← readUnaligned name used)
    if zero ≠ 0 then return some (used + trailingZeros zero / 8)
    else scanWords name available (used + 8)
  else scanBytes name available used
termination_by available - used

/-- `bounded_symbol_name_len`. The outer `none` is a read outside the table. -/
def boundedSymbolNameLen (name : List UInt8) (available : Nat) : Option (Option Nat) :=
  scanWords name available 0

/-! ## The word test -/

section

variable {byte : Nat → UInt8} {i j : Nat}

theorem getLsbD_tops : ∀ j < 64, (0x8080808080808080#64).getLsbD j = decide (j % 8 = 7) := by decide

/-- Up to the first zero byte the marks are exact: the bytes before it do not borrow. -/
theorem getLsbD_zeroMarks (hi : i < 8) (h : ∀ k < i, byte k ≠ 0) :
    (zeroMarks (.ofNat 64 (number byte 8))).getLsbD (8 * i + 7) = decide (byte i = 0) := by
  have hlt (k : Nat) : (byte k).toNat < 256 := (byte k).toNat_lt
  have hpos (k : Nat) (hk : k < i) : (byte k).toNat ≠ 0 := fun h0 => h k hk (UInt8.toNat_inj.mp h0)
  have hj : 8 * i + 7 < 64 := by omega
  rw [zeroMarks, BitVec.ofNat_sub_ofNat, BitVec.getLsbD_and, BitVec.getLsbD_and, BitVec.getLsbD_not,
    BitVec.getLsbD_ofNat, BitVec.getLsbD_ofNat, getLsbD_tops _ hj, Bool.eq_iff_iff]
  simp only [hj, Bool.and_eq_true, Bool.not_eq_true', decide_eq_true_eq, decide_true, Bool.true_and,
    decide_eq_false_iff_not, ← UInt8.toNat_inj, UInt8.toNat_zero, Nat.testBit_eq_decide_div_mod_eq, number]
  -- one linear problem for each place of the byte
  have h0 := hlt 0; have h1 := hlt 1; have h2 := hlt 2; have h3 := hlt 3
  have h4 := hlt 4; have h5 := hlt 5; have h6 := hlt 6; have h7 := hlt 7
  have p0 := hpos 0; have p1 := hpos 1; have p2 := hpos 2; have p3 := hpos 3
  have p4 := hpos 4; have p5 := hpos 5; have p6 := hpos 6
  clear hlt hpos h
  interval_cases i <;> simp at * <;> omega

/-- There are no marks before that byte. -/
theorem zeroMarks_clear (h : ∀ k < i, byte k ≠ 0) (hj : j < 8 * i + 7) (hj64 : j < 64) :
    (zeroMarks (.ofNat 64 (number byte 8))).getLsbD j = false := by
  by_cases htop : j % 8 = 7
  · have hk : j / 8 < i := by omega
    have hmark := getLsbD_zeroMarks (by omega) fun k hlt => h k (lt_trans hlt hk)
    rwa [decide_eq_false (h _ hk), show 8 * (j / 8) + 7 = j by omega] at hmark
  · rw [zeroMarks, BitVec.getLsbD_and, getLsbD_tops j hj64, decide_eq_false htop, Bool.and_false]

end

/-! ## The loops -/

variable {name : List UInt8}

/-- There is no zero among the first bytes. -/
def Passed (name : List UInt8) (used : Nat) : Prop := ∀ k < used, name.getD k 0 ≠ 0

theorem Passed.add {used n : Nat} (h : Passed name used) (hn : ∀ k < n, name.getD (used + k) 0 ≠ 0) :
    Passed name (used + n) := by
  intro k hk
  by_cases hlt : k < used
  · exact h k hlt
  · exact Nat.add_sub_of_le (Nat.le_of_not_lt hlt) ▸ hn (k - used) (by omega)

theorem Passed.found {used : Nat} (h : Passed name used) (hused : used < name.length)
    (hzero : name.getD used 0 = 0) : name.findIdx? (· == 0) = some used := by
  rw [getD_eq_getElem _ _ hused] at hzero
  refine findIdx?_eq_some_iff_getElem.mpr ⟨hused, beq_iff_eq.mpr hzero, fun k hk hbyte => h k hk ?_⟩
  rw [getD_eq_getElem _ _ (lt_trans hk hused)]
  exact beq_iff_eq.mp hbyte

theorem scanBytes_eq {used : Nat} (hused : used ≤ name.length) (h : Passed name used) :
    scanBytes name name.length used = some (name.findIdx? (· == 0)) := by
  rw [scanBytes]
  split
  case isTrue hlt =>
    have hbyte : name.getD used 0 = name[used] := getD_eq_getElem _ _ hlt
    rw [getElem?_eq_getElem hlt, Option.bind_eq_bind, Option.bind_some]
    split
    case isTrue hzero => exact congrArg some (h.found hlt (hbyte.trans hzero)).symm
    case isFalse hne =>
      refine scanBytes_eq hlt (h.add fun k hk => ?_)
      obtain rfl : k = 0 := by omega
      exact hbyte ▸ hne
  case isFalse hge =>
    refine congrArg some (findIdx?_eq_none_iff.mpr fun byte hbyte => ?_).symm
    obtain ⟨k, hk, rfl⟩ := getElem_of_mem hbyte
    exact beq_false_of_ne (getD_eq_getElem _ _ hk ▸ h k (by omega))
termination_by name.length - used

theorem scanWords_eq {used : Nat} (hused : used ≤ name.length) (h : Passed name used) :
    scanWords name name.length used = some (name.findIdx? (· == 0)) := by
  rw [scanWords]
  split
  case isFalse => exact scanBytes_eq hused h
  case isTrue hfull =>
    rw [readUnaligned, if_pos (by omega), Option.bind_eq_bind, Option.bind_some]
    dsimp only
    by_cases hzero : ∃ i, i < 8 ∧ name.getD (used + i) 0 = 0
    · -- the lowest mark is that of the first zero byte
      obtain ⟨i, ⟨hi, hbyte⟩, hfirst⟩ := Nat.findX hzero
      have hbefore : ∀ k < i, name.getD (used + k) 0 ≠ 0 := fun k hk h0 => hfirst k hk ⟨by omega, h0⟩
      have hmark := getLsbD_zeroMarks hi hbefore
      rw [decide_eq_true hbyte] at hmark
      rw [if_pos (by rintro h0; rw [h0] at hmark; simp at hmark),
        trailingZeros_eq hmark fun j hj => zeroMarks_clear hbefore hj (by omega),
        show used + (8 * i + 7) / 8 = used + i by omega]
      exact congrArg some ((h.add hbefore).found (by omega) hbyte).symm
    · have hbytes : ∀ k < 8, name.getD (used + k) 0 ≠ 0 := fun k hk h0 => hzero ⟨k, hk, h0⟩
      rw [if_neg]
      · exact scanWords_eq (by omega) (h.add hbytes)
      · refine not_not.mpr (BitVec.eq_of_getLsbD_eq fun j hj => ?_)
        exact (zeroMarks_clear hbytes (by omega) hj).trans BitVec.getLsbD_zero.symm
termination_by name.length - used

/-- The length is the index of the first zero byte, and there is none without one; every
    read is inside the table. -/
theorem boundedSymbolNameLen_eq (name : List UInt8) :
    boundedSymbolNameLen name name.length = some (name.findIdx? (· == 0)) :=
  scanWords_eq (Nat.zero_le _) nofun

end Crabc.Ldso
