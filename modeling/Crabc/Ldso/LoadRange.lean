/-
  Crabc.Ldso.LoadRange

  The checks that a virtual range lies in one `PT_LOAD` segment, and the caches of the
  last segment found that stand in front of them.
-/

import Crabc.Lib.ByteMemory

namespace Crabc.Ldso

open Crabc.Lib

/-- What the checks read of a program header. -/
structure ProgramHeader where
  type : UInt32
  flags : UInt32
  vaddr : Nat
  memsz : Nat

def ptLoad : UInt32 := 1

def pfW : UInt32 := 2

def ProgramHeader.isLoad (header : ProgramHeader) : Bool := header.type == ptLoad

def ProgramHeader.isWritableLoad (header : ProgramHeader) : Bool :=
  header.type == ptLoad && header.flags &&& pfW != 0

/-- The loop over the table: the first admitted load around the range. A load whose end
    overflows stops it. -/
def scanLoads (admits : ProgramHeader → Bool) (address finish : Nat) : List ProgramHeader → Option (Nat × Nat)
  | [] => none
  | header :: rest =>
    if !admits header then scanLoads admits address finish rest
    else match Usize.checkedAdd header.vaddr header.memsz with
      | none => none
      | some loadEnd =>
        if address ≥ header.vaddr ∧ finish ≤ loadEnd then some (header.vaddr, loadEnd)
        else scanLoads admits address finish rest

def rangeInLoad (admits : ProgramHeader → Bool) (table : List ProgramHeader) (address byteLen : Nat) : Bool :=
  match Usize.checkedAdd address byteLen with
  | none => false
  | some finish => (scanLoads admits address finish table).isSome

/-- `virtual_range_in_load`. -/
def virtualRangeInLoad : List ProgramHeader → Nat → Nat → Bool := rangeInLoad ProgramHeader.isLoad

/-- `virtual_range_in_writable_load`. -/
def virtualRangeInWritableLoad : List ProgramHeader → Nat → Nat → Bool := rangeInLoad ProgramHeader.isWritableLoad

/-- A check with the segment found last, which the two caches share: the answer, and the
    segment to keep. -/
def containsOrScan (admits : ProgramHeader → Bool) (table : List ProgramHeader) (hit : Option (Nat × Nat))
    (address byteLen : Nat) : Bool × Option (Nat × Nat) :=
  match Usize.checkedAdd address byteLen with
  | none => (false, hit)
  | some finish =>
    if hit.any fun load => address ≥ load.1 && finish ≤ load.2 then (true, hit)
    else match scanLoads admits address finish table with
      | none => (false, hit)
      | some load => (true, some load)

/-- `ValidatedLoadRange::contains_or_scan`. -/
def ValidatedLoadRange.containsOrScan := Ldso.containsOrScan ProgramHeader.isLoad

/-- `WritableLoadCache::contains`. -/
def WritableLoadCache.contains := Ldso.containsOrScan ProgramHeader.isWritableLoad

/-- The answers to a sequence of queries. -/
def answers (check : Option (Nat × Nat) → Nat → Nat → Bool × Option (Nat × Nat)) :
    Option (Nat × Nat) → List (Nat × Nat) → List Bool
  | _, [] => []
  | hit, (address, byteLen) :: queries =>
    (check hit address byteLen).1 :: answers check (check hit address byteLen).2 queries

section

variable {admits : ProgramHeader → Bool} {table : List ProgramHeader} {hit : Option (Nat × Nat)}
  {address finish address' finish' : Nat} {load : Nat × Nat}

/-- Every range inside a segment that a scan has found passes the scan: the scan meets no
    overflowing load before that segment, and may only stop earlier with success. -/
theorem scanLoads_inside (h : scanLoads admits address finish table = some load) (hstart : load.1 ≤ address')
    (hend : finish' ≤ load.2) : (scanLoads admits address' finish' table).isSome = true := by
  induction table with
  | nil => cases h
  | cons header rest ih =>
    rw [scanLoads] at h ⊢
    split at h
    case isTrue hskip =>
      rw [if_pos hskip]
      exact ih h
    case isFalse hadmits =>
      rw [if_neg hadmits]
      split at h
      case h_1 => cases h
      case h_2 loadEnd hsum =>
        split at h
        case isTrue =>
          cases h
          rw [if_pos ⟨hstart, hend⟩]
          rfl
        case isFalse =>
          split
          case isTrue => rfl
          case isFalse => exact ih h

/-- The kept segment answers for the scan. -/
def Kept (admits : ProgramHeader → Bool) (table : List ProgramHeader) (hit : Option (Nat × Nat)) : Prop :=
  ∀ load ∈ hit, ∀ address finish, load.1 ≤ address → finish ≤ load.2 →
    (scanLoads admits address finish table).isSome = true

theorem kept_none : Kept admits table none := by rintro _ ⟨⟩

/-- One query. -/
theorem Kept.query (h : Kept admits table hit) (address byteLen : Nat) :
    (containsOrScan admits table hit address byteLen).1 = rangeInLoad admits table address byteLen ∧
      Kept admits table (containsOrScan admits table hit address byteLen).2 := by
  rw [containsOrScan, rangeInLoad]
  cases Usize.checkedAdd address byteLen with
  | none => exact ⟨rfl, h⟩
  | some finish =>
    dsimp only
    split
    case isTrue hinside =>
      cases hit with
      | none => cases hinside
      | some load =>
        rw [Option.any_some, Bool.and_eq_true, decide_eq_true_eq, decide_eq_true_eq] at hinside
        exact ⟨(h load rfl _ _ hinside.1 hinside.2).symm, h⟩
    case isFalse =>
      cases hscan : scanLoads admits address finish table with
      | none => exact ⟨rfl, h⟩
      | some load =>
        refine ⟨rfl, fun load' hload address' finish' hstart hend => ?_⟩
        obtain rfl := Option.some.inj hload
        exact scanLoads_inside hscan hstart hend

theorem Kept.answers_eq (h : Kept admits table hit) (queries : List (Nat × Nat)) :
    answers (containsOrScan admits table) hit queries =
      queries.map fun query => rangeInLoad admits table query.1 query.2 := by
  induction queries generalizing hit with
  | nil => rfl
  | cons query queries ih =>
    obtain ⟨hanswer, hkept⟩ := h.query query.1 query.2
    rw [answers, List.map_cons, hanswer, ih hkept]

end

/-- The caches answer as the scans do, over any sequence of queries. -/
theorem loadCaches_scan (table : List ProgramHeader) (queries : List (Nat × Nat)) :
    answers (WritableLoadCache.contains table) none queries =
        queries.map (fun query => virtualRangeInWritableLoad table query.1 query.2) ∧
      answers (ValidatedLoadRange.containsOrScan table) none queries =
        queries.map fun query => virtualRangeInLoad table query.1 query.2 :=
  ⟨kept_none.answers_eq queries, kept_none.answers_eq queries⟩

end Crabc.Ldso
