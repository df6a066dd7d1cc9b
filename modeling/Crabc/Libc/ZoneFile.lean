/-
  Crabc.Libc.ZoneFile

  The offsets that `parse_mapping` of `owned_timezone.rs` takes from a time-zone file
  are fit for `scan_transitions`: its search reads inside the file, and the types it
  selects are there, each with a name that ends in the file.
-/

import Crabc.Libc.Timezone

namespace Crabc.Libc.Timezone

open Crabc.Time (checkedUsize)
open List Option

/-! ## The reads of the search -/

/-- The bytes that `transition` reads. -/
def timeReads (map : ZoneFile) (i : Nat) : List Nat := range' (map.transitions + i * map.stride) map.stride

/-- The bytes that `transition_type`, and then `type_offset` and `type_dst`, read. -/
def typeReads (map : ZoneFile) (i : Nat) : List Nat :=
  (map.indices + i) :: range' (map.types + 6 * transitionType map i) 5

/-- The bytes that the binary search reads. -/
def loopReads (map : ZoneFile) (seconds : Int) (inLocal : Bool) : Nat → Nat → Nat → List Nat
  | 0, _, _ => []
  | rounds + 1, a, n =>
    if n > 1 then
      let middle := a + n / 2
      let off := if inLocal then typeOffset map (transitionType map (middle - 1)) else 0
      (if inLocal then typeReads map (middle - 1) else []) ++ timeReads map middle ++
        if wrap64 (seconds - off) < transition map middle then loopReads map seconds inLocal rounds a (n / 2)
        else loopReads map seconds inLocal rounds middle (n - n / 2)
    else []

/-- The bytes that `scan_transitions` reads; for the alternate type these are at most the ones listed. -/
def scanReads (map : ZoneFile) (seconds : Int) (inLocal : Bool) : List Nat :=
  let count := (map.indices - map.transitions) / map.stride
  if count = 0 then []
  else
    let a := scanLoop map seconds inLocal count 0 count
    (if inLocal then range' map.types 4 else []) ++ timeReads map 0 ++ typeReads map 0 ++
      loopReads map seconds inLocal count 0 count ++ typeReads map a ++
      (if a ≠ 0 then typeReads map (a - 1) else []) ++ if a + 1 < count then typeReads map (a + 1) else []

/-! ## What is accepted -/

/-- The tables of a file with so many transitions and types. -/
structure ZoneFile.Fits (map : ZoneFile) (count typeCount : Nat) : Prop where
  stride : 0 < map.stride
  indices : map.indices = map.transitions + count * map.stride
  types : map.types = map.indices + count
  abbreviations : map.abbreviations = map.types + typeCount * 6
  inside : map.abbreviations ≤ map.base.length
  pos : 0 < typeCount
  selected : ∀ i < count, transitionType map i < typeCount
  named : ∀ t < typeCount, ∃ j, map.abbreviations + (byteAt map.base (map.types + 6 * t + 5)).toNat ≤ j ∧
    j < map.base.length ∧ byteAt map.base j = 0

variable {base : List UInt8}

theorem mappingHeader_stride {header stride : Nat} (h : mappingHeader base = some (header, stride)) : 0 < stride := by
  unfold mappingHeader at h
  split at h
  · cases h
    decide
  · simp only [bind_eq_bind, bind_eq_some_iff] at h
    grind

theorem parseMapping_fits {map : ZoneFile} (h : parseMapping base = some map) :
    map.base = base ∧ ∃ count typeCount, map.Fits count typeCount := by
  simp only [parseMapping, checkedUsize, ite_none_left_eq_some, ite_none_right_eq_some, bind_eq_bind, bind_eq_some_iff,
    some.injEq] at h
  obtain ⟨-, -, ⟨header, stride⟩, hheader, hcount, _, ⟨-, rfl⟩, _, ⟨-, rfl⟩, _, ⟨-, rfl⟩, _, ⟨-, rfl⟩, _, ⟨-, rfl⟩, _, ⟨-, rfl⟩,
    hinside, _, -, _, -, _, -, _, -, -, hselected, hnamed, rfl⟩ := h
  simp only [List.any_eq_true, mem_range, decide_eq_true_eq, not_exists, not_and, Nat.not_le] at hcount hinside hselected hnamed
  refine ⟨rfl, _, _, mappingHeader_stride hheader, rfl, rfl, rfl, by dsimp only; omega, by dsimp only; omega, hselected, fun t ht => ?_⟩
  have hvalid := hnamed t ht
  simp only [typeInvalid, Bool.or_eq_true, not_or, Bool.not_eq_true', Bool.not_eq_false, List.any_eq_true, mem_range',
    beq_iff_eq] at hvalid
  obtain ⟨-, -, j, ⟨i, hi, rfl⟩, hzero⟩ := hvalid
  exact ⟨_, Nat.le_add_right _ _, by dsimp only; omega, hzero⟩

variable {map : ZoneFile} {count typeCount : Nat}

section

variable (h : map.Fits count typeCount)
include h

theorem ZoneFile.Fits.reads {i : Nat} (hi : i < count) :
    (∀ p ∈ timeReads map i, p < map.base.length) ∧ ∀ p ∈ typeReads map i, p < map.base.length := by
  have hmul := Nat.mul_le_mul_right map.stride (Nat.succ_le_of_lt hi)
  rw [Nat.succ_mul] at hmul
  have htype := h.selected i hi
  have hinside := h.inside
  rw [h.abbreviations, h.types, h.indices] at hinside
  simp only [timeReads, typeReads, mem_cons, mem_range'_1, h.types, h.indices]
  constructor <;> intro p hp <;> omega

/-- The entries searched stay inside the table. -/
theorem ZoneFile.Fits.loopReads (seconds : Int) (inLocal : Bool) (rounds : Nat) {a n : Nat}
    (hn : a + n ≤ count) (hpos : 0 < n) :
    (∀ p ∈ loopReads map seconds inLocal rounds a n, p < map.base.length) ∧
    scanLoop map seconds inLocal rounds a n < count := by
  induction rounds generalizing a n with
  | zero => exact ⟨nofun, by unfold scanLoop; omega⟩
  | succ rounds ih =>
    rw [Timezone.loopReads, scanLoop]
    split
    case isFalse => exact ⟨nofun, by omega⟩
    case isTrue hmore =>
    have hbefore := h.reads (show a + n / 2 - 1 < count by omega)
    have hmiddle := h.reads (show a + n / 2 < count by omega)
    grind

theorem ZoneFile.Fits.scan (seconds : Int) (inLocal : Bool) :
    (∀ p ∈ scanReads map seconds inLocal, p < map.base.length) ∧
      ∀ r, scanTransitions map seconds inLocal = some r → r.1 < typeCount ∧ r.2 < typeCount := by
  have hcount : (map.indices - map.transitions) / map.stride = count := by
    rw [h.indices, Nat.add_sub_cancel_left, Nat.mul_div_cancel _ h.stride]
  have hpos := h.pos
  simp only [scanReads, scanTransitions, alternateType, hcount]
  by_cases hzero : count = 0
  · simp only [if_pos hzero]
    exact ⟨nofun, by grind⟩
  obtain ⟨hloop, ha⟩ := h.loopReads seconds inLocal count (a := 0) (n := count) (by omega) (by omega)
  generalize scanLoop map seconds inLocal count 0 count = a at *
  have hselected := h.selected
  refine ⟨fun p hp => ?_, by grind⟩
  have htypes (p : Nat) (hp : p ∈ range' map.types 4) : p < map.base.length := by
    have hinside := h.inside
    rw [h.abbreviations] at hinside
    simp only [mem_range'_1] at hp
    omega
  have hreads {i : Nat} := @ZoneFile.Fits.reads map count typeCount h i
  grind

end

/-- A file without transitions and with one type, whose name is empty. -/
def oneTypeFile : List UInt8 := magic ++ replicate 32 0 ++ [0, 0, 0, 1, 0, 0, 0, 1] ++ replicate 7 0

end Crabc.Libc.Timezone
