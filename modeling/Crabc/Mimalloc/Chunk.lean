/-
  Crabc.Mimalloc.Chunk

  `Chunk` of crabc-mimalloc: 512 bits in eight atomic words, where a set bit is
  available.  A run is claimed by clearing it and given back by setting it.

  The functions are programs of atomic operations.  `field` says which word is the
  given field of the chunk; `rounds` bounds the loops that another thread can keep
  going.
-/

import Crabc.Lib.AtomicWords
import Crabc.Lib.Interleaving

namespace Crabc.Mimalloc

open Crabc.Lib List BitVec

/-! ## Words -/

/-- `popcount`. -/
def popcount (w : Word) : Nat := (range 64).countP w.getLsbD

/-- `ctz`. -/
def ctz (w : Word) : Nat := ((range 64).find? w.getLsbD).getD 64

/-- `clz`. -/
def clz (w : Word) : Nat := ((range 64).find? fun k => w.getLsbD (63 - k)).getD 64

/-- `bsf`. -/
def bsf (w : Word) : Option Nat := if w = 0 then none else some (ctz w)

/-- `field_mask_valid`. -/
def fieldMaskValid (bitCount shiftLeft : Nat) : Word :=
  (if bitCount = 64 then allOnes 64 else (1#64 <<< bitCount) - 1) <<< shiftLeft

/-- `field_mask`. -/
def fieldMask (bitCount shiftLeft : Nat) : Option Word :=
  if bitCount = 0 ∨ shiftLeft ≥ 64 then none
  else if bitCount + shiftLeft ≤ 64 then some (fieldMaskValid bitCount shiftLeft) else none

def bfieldLoBit8 : Word := 0x0101010101010101

def bfieldHiBit8 : Word := 0x8080808080808080

/-! ## Results -/

/-- `RunTransition`. -/
structure RunTransition where
  allTransitioned : Bool
  alreadySet : Nat
  maybeAllClear : Bool

/-- `TryClaim`. -/
structure TryClaim where
  claimed : Bool
  maybeAllClear : Bool
  temporarilyUnclaimed : Bool
deriving DecidableEq

def TryClaim.rejected (temporarilyUnclaimed : Bool) : TryClaim := ⟨false, false, temporarilyUnclaimed⟩

/-- `FieldTryClaim`. -/
structure FieldTryClaim where
  result : TryClaim
  previous : Word

/-- `ChunkSearchClaim`. -/
structure ChunkSearchClaim where
  index : Option Nat
  temporarilyUnclaimed : Bool

def ChunkSearchClaim.found (index : Nat) (temporarilyUnclaimed : Bool) : ChunkSearchClaim :=
  ⟨some index, temporarilyUnclaimed⟩

def ChunkSearchClaim.notFound (temporarilyUnclaimed : Bool) : ChunkSearchClaim :=
  ⟨none, temporarilyUnclaimed⟩

/-- `ChunkRun::new`: the run is not empty and lies in the chunk. -/
def validRun (index len : Nat) : Bool := len ≠ 0 ∧ index < 512 ∧ index + len ≤ 512

namespace Chunk

variable {Loc : Type}

/-- A program that works on words. -/
abbrev Code (Loc α : Type) := Program (WordOp Loc) Word α

def load (l : Loc) : Code Loc Word := .perform (.load l)

def fetchAnd (l : Loc) (w : Word) : Code Loc Word := .perform (.fetchAnd l w)

def fetchOr (l : Loc) (w : Word) : Code Loc Word := .perform (.fetchOr l w)

def swap (l : Loc) (w : Word) : Code Loc Word := .perform (.swap l w)

def cas (l : Loc) (expected desired : Word) : Code Loc Word := .perform (.cas l expected desired)

variable (field : Nat → Loc)

/-! ## Runs that are given -/

/-- Where the loops over the fields of a run are. -/
structure RunCursor where
  fieldIndex : Nat
  fieldBitIndex : Nat
  remaining : Nat

def RunCursor.start (index len : Nat) : RunCursor := ⟨index / 64, index % 64, len⟩

def RunCursor.fieldLen (c : RunCursor) : Nat := min (64 - c.fieldBitIndex) c.remaining

def RunCursor.mask (c : RunCursor) : Word := fieldMaskValid c.fieldLen c.fieldBitIndex

def RunCursor.next (c : RunCursor) : RunCursor := ⟨c.fieldIndex + 1, 0, c.remaining - c.fieldLen⟩

/-- One round of `set_run`. -/
def setRunRound (s : RunCursor × RunTransition) :
    Code Loc (Next (RunCursor × RunTransition) RunTransition) :=
  if s.1.remaining = 0 then return .done s.2
  else do
    let old ← fetchOr (field s.1.fieldIndex) s.1.mask
    let alreadySet := popcount (old &&& s.1.mask)
    return .again (s.1.next, { s.2 with
        allTransitioned := s.2.allTransitioned && (alreadySet == 0)
        alreadySet := s.2.alreadySet + alreadySet })

/-- `set_run`. -/
def setRun (rounds index len : Nat) : Code Loc (Option RunTransition) :=
  if validRun index len then do
    let transition ← .loop (setRunRound field) rounds (.start index len, ⟨true, 0, false⟩)
    return some transition
  else return none

/-- `unclaim_run`. -/
def unclaimRun (rounds index len : Nat) : Code Loc (Option RunTransition) := setRun field rounds index len

/-- One round of `clear_run`. -/
def clearRunRound (s : RunCursor × RunTransition) :
    Code Loc (Next (RunCursor × RunTransition) RunTransition) :=
  if s.1.remaining = 0 then return .done s.2
  else do
    let old ← fetchAnd (field s.1.fieldIndex) (~~~s.1.mask)
    return .again (s.1.next, { s.2 with
        allTransitioned := s.2.allTransitioned && (old &&& s.1.mask == s.1.mask)
        maybeAllClear := s.2.maybeAllClear && (old &&& ~~~s.1.mask == 0) })

/-- `clear_run`. -/
def clearRun (rounds index len : Nat) : Code Loc (Option RunTransition) :=
  if validRun index len then do
    let transition ← .loop (clearRunRound field) rounds (.start index len, ⟨true, 0, true⟩)
    return some transition
  else return none

/-- `all_are_clear_relaxed`. -/
def allAreClearRelaxed : Code Loc Bool := do
  let answer ← .each (fun fieldIndex (_ : Unit) => do
    let value ← load (field fieldIndex)
    if value ≠ 0 then return Next.done false else return .again ()) (range 8) ()
  match answer with
  | .done value => return value
  | .again _ => return true

/-- `all_are_set_relaxed`. -/
def allAreSetRelaxed : Code Loc Bool := do
  let answer ← .each (fun fieldIndex (_ : Unit) => do
    let value ← load (field fieldIndex)
    if value ≠ allOnes 64 then return Next.done false else return .again ()) (range 8) ()
  match answer with
  | .done value => return value
  | .again _ => return true

/-! ## Claims of a given run -/

/-- What `try_clear_mask_optimistic` puts back. -/
def restore (fieldIndex : Nat) (bits : Word) : Code Loc Unit :=
  if bits = 0 then return () else do
    let _ ← fetchOr (field fieldIndex) bits
    return ()

/-- `try_clear_mask_optimistic`. -/
def tryClearMaskOptimistic (fieldIndex : Nat) (mask : Word) : Code Loc FieldTryClaim := do
  let previous ← fetchAnd (field fieldIndex) (~~~mask)
  if previous &&& mask = mask then
    return ⟨⟨true, previous &&& ~~~mask == 0, false⟩, previous⟩
  else
    restore field fieldIndex (previous &&& mask)
    return ⟨⟨false, previous == 0, previous &&& mask != 0⟩, previous⟩

/-- `try_clear_mask`. -/
def tryClearMask (fieldIndex : Nat) (mask : Word) : Code Loc FieldTryClaim := do
  let previous ← load (field fieldIndex)
  if previous &&& mask ≠ mask then return ⟨⟨false, previous == 0, false⟩, previous⟩
  else tryClearMaskOptimistic field fieldIndex mask

/-- `try_clear_full_field`. -/
def tryClearFullField (fieldIndex : Nat) : Code Loc FieldTryClaim := do
  let previous ← load (field fieldIndex)
  if previous = allOnes 64 then
    let previous ← cas (field fieldIndex) (allOnes 64) 0
    if previous = allOnes 64 then return ⟨⟨true, true, false⟩, previous⟩
    else return ⟨⟨false, previous == 0, false⟩, previous⟩
  else return ⟨⟨false, previous == 0, false⟩, previous⟩

/-- `restore_claimed_prefix`, from the last of so many fields down to the first one. -/
def restoreClaimedPrefix (startField : Nat) (firstMask : Word) : Nat → Code Loc Unit
  | 0 => return ()
  | count + 1 => do
    let _ ← if count = 0 then fetchOr (field startField) firstMask
      else swap (field (startField + count)) (allOnes 64)
    restoreClaimedPrefix startField firstMask count

/-- The claim of the next field of a run. -/
def tryClearField (fieldIndex fieldLen : Nat) : Code Loc FieldTryClaim :=
  if fieldLen = 64 then tryClearFullField field fieldIndex
  else tryClearMask field fieldIndex (fieldMaskValid fieldLen 0)

/-- Where the loop of `try_claim_at` is. -/
structure ClaimCursor where
  fieldIndex : Nat
  remaining : Nat
  maybeAllClear : Bool

/-- One round of `try_claim_at`. -/
def tryClaimAtRound (startField : Nat) (firstMask : Word) (s : ClaimCursor) :
    Code Loc (Next ClaimCursor TryClaim) :=
  if s.remaining = 0 then return .done ⟨true, s.maybeAllClear, false⟩
  else do
    let fieldLen := min 64 s.remaining
    let claim ← tryClearField field s.fieldIndex fieldLen
    if claim.result.claimed then
      return .again ⟨s.fieldIndex + 1, s.remaining - fieldLen, s.maybeAllClear && claim.result.maybeAllClear⟩
    else
      restoreClaimedPrefix field startField firstMask (s.fieldIndex - startField)
      return .done (.rejected true)

/-- `try_claim_at`. -/
def tryClaimAt (rounds index len : Nat) : Code Loc (Option TryClaim) :=
  if validRun index len then do
    let startField := index / 64
    let startBit := index % 64
    let firstLen := min (64 - startBit) len
    let firstMask := fieldMaskValid firstLen startBit
    let first ← tryClearMask field startField firstMask
    if first.result.claimed then
      let claim ← .loop (tryClaimAtRound field startField firstMask) rounds
        ⟨startField + 1, len - firstLen, first.result.maybeAllClear⟩
      return some claim
    else return some first.result
  else return none

/-! ## Searches -/

/-- `try_claim_one_in_nonzero_field`, with so many tries left. -/
def tryClaimOneInNonzeroField (fieldIndex : Nat) : Nat → Word → Code Loc (Option Nat)
  | 0, _ => return none
  | tries + 1, value => do
    let mask := value &&& -value
    let previous ← fetchAnd (field fieldIndex) (~~~mask)
    if previous &&& mask = mask then return some (ctz mask)
    else if previous = 0 then return none
    else tryClaimOneInNonzeroField fieldIndex tries previous

/-- `try_claim_one`. -/
def tryClaimOne : Code Loc (Option Nat) := do
  let answer ← .each (fun fieldIndex (_ : Unit) => do
    let value ← load (field fieldIndex)
    if value = 0 then return Next.again ()
    else
      match ← tryClaimOneInNonzeroField field fieldIndex 5 value with
      | some bit => return .done (fieldIndex * 64 + bit)
      | none => return .again ()) (range 8) ()
  match answer with
  | .done index => return some index
  | .again _ => return none

/-- The lowest byte of a word that is set as a whole. -/
def firstSetByte (value : Word) : Option Nat :=
  bsf (((~~~value - bfieldLoBit8) &&& (value &&& bfieldHiBit8)) >>> 7)

/-- The tries of `try_claim_byte` in one field; the flag is `temporarily_unclaimed`. -/
def tryClaimByteInField (fieldIndex : Nat) : Nat → Word → Bool → Code Loc (Next Bool ChunkSearchClaim)
  | 0, _, temporarily => return .again temporarily
  | tries + 1, value, temporarily =>
    match firstSetByte value with
    | none => return .again temporarily
    | some bitIndex => do
      let claim ← tryClearMaskOptimistic field fieldIndex (fieldMaskValid 8 bitIndex)
      let temporarily := temporarily || claim.result.temporarilyUnclaimed
      if claim.result.claimed then return .done (.found (fieldIndex * 64 + bitIndex) temporarily)
      else if claim.previous = 0 then return .again temporarily
      else tryClaimByteInField fieldIndex tries claim.previous temporarily

/-- The answer of a search over the fields. -/
def searched : Next Bool ChunkSearchClaim → ChunkSearchClaim
  | .done claim => claim
  | .again temporarily => .notFound temporarily

/-- `try_claim_byte`. -/
def tryClaimByte : Code Loc ChunkSearchClaim := do
  let answer ← .each (fun fieldIndex temporarily => do
    let value ← load (field fieldIndex)
    if value = 0 then return .again temporarily
    else tryClaimByteInField field fieldIndex 5 value temporarily) (range 8) false
  return searched answer

/-- What the search inside a field comes to: the word and the flag at its end, or a claim. -/
abbrev FieldSearch := Next (Word × Bool) (Next (Word × Bool) ChunkSearchClaim)

/-- One round of the search inside a field. -/
def withinFieldRound (len : Nat) (baseMask : Word) (fieldIndex : Nat) (s : Word × Bool) :
    Code Loc FieldSearch :=
  match bsf s.1 with
  | none => return .done (.again s)
  | some bitIndex =>
    if bitIndex + len > 64 then return .done (.again s)
    else
      let mask := baseMask <<< bitIndex
      if s.1 &&& mask = mask then do
        let claim ← tryClearMaskOptimistic field fieldIndex mask
        let temporarily := s.2 || claim.result.temporarilyUnclaimed
        if claim.result.claimed then
          return .done (.done (.found (fieldIndex * 64 + bitIndex) temporarily))
        else return .again (claim.previous, temporarily)
      else return .again (s.1 &&& (s.1 + (1#64 <<< bitIndex)), s.2)

/-- A claim at an index that the search found. -/
def claimFound (rounds index len : Nat) (temporarily : Bool) : Code Loc (Next Bool ChunkSearchClaim) := do
  let claim := (← tryClaimAt field rounds index len).getD (.rejected false)
  let temporarily := temporarily || claim.temporarilyUnclaimed
  if claim.claimed then return .done (.found index temporarily) else return .again temporarily

/-- The run that starts in a field and ends in the next one. -/
def acrossBoundary (rounds len fieldIndex : Nat) (s : Word × Bool) :
    Code Loc (Next Bool ChunkSearchClaim) :=
  let post := clz (~~~s.1)
  if s.1 ≠ 0 ∧ fieldIndex + 1 < 8 ∧ post ≠ 0 then do
    let pre := ctz (~~~(← load (field (fieldIndex + 1))))
    if post + pre ≥ len then claimFound field rounds (fieldIndex * 64 + (64 - post)) len s.2
    else return .again s.2
  else return .again s.2

/-- `try_claim_run_within_field_width`. -/
def tryClaimRunWithinFieldWidth (rounds len : Nat) : Code Loc ChunkSearchClaim :=
  match fieldMask len 0 with
  | none => return .notFound false
  | some baseMask => do
    let answer ← .each (fun fieldIndex temporarily => do
      let previous ← load (field fieldIndex)
      match ← .loop (withinFieldRound field len baseMask fieldIndex) rounds (previous, temporarily) with
      | .done claim => return .done claim
      | .again s => acrossBoundary field rounds len fieldIndex s) (range 8) false
    return searched answer

/-- The inner loop of `try_claim_run_across_fields`: the fields behind the first one, with
    what remains to be found.  It answers what remains and how far the outer loop skips. -/
def followingFields (fieldIndex : Nat) (s : Nat × Nat) : Code Loc (Next (Nat × Nat) (Nat × Nat)) :=
  if fieldIndex + s.1 < 8 then do
    let ones := ctz (~~~(← load (field (fieldIndex + s.1))))
    if ones ≥ s.2 then return .done (0, 0)
    else if ones = 64 then return .again (s.1 + 1, s.2 - 64)
    else return .done (s.2, s.1 - 1)
  else return .done (s.2, 0)

/-- What remains to be found of a run of `len` bits from the top of a field on, and how far the outer loop skips. -/
def remainingFrom (rounds len fieldIndex ones : Nat) : Code Loc (Nat × Nat) :=
  if ones ≥ len then return (0, 0)
  else if ones ≠ 0 then .loop (followingFields field fieldIndex) rounds (1, len - ones)
  else return (len, 0)

/-- One round of `try_claim_run_across_fields`. -/
def acrossFieldsRound (rounds len : Nat) (s : Nat × Bool) :
    Code Loc (Next (Nat × Bool) ChunkSearchClaim) :=
  if s.1 < 8 - (len - 1) / 64 then do
    let ones := clz (~~~(← load (field s.1)))
    let (remaining, skip) ← remainingFrom field rounds len s.1 ones
    if remaining = 0 then
      match ← claimFound field rounds (s.1 * 64 + (64 - ones)) len s.2 with
      | .done claim => return .done claim
      | .again temporarily => return .again (s.1 + skip + 1, temporarily)
    else return .again (s.1 + skip + 1, s.2)
  else return .done (.notFound s.2)

/-- `try_claim_run_across_fields`. -/
def tryClaimRunAcrossFields (rounds len : Nat) : Code Loc ChunkSearchClaim :=
  .loop (acrossFieldsRound field rounds len) rounds (0, false)

/-- `try_claim_run_detailed`. -/
def tryClaimRunDetailed (rounds len : Nat) : Code Loc ChunkSearchClaim :=
  if len = 0 ∨ len > 512 then return .notFound false
  else if len = 1 then do
    match ← tryClaimOne field with
    | some index => return .found index false
    | none => return .notFound false
  else if len = 8 then tryClaimByte field
  else if len ≤ 64 then tryClaimRunWithinFieldWidth field rounds len
  else tryClaimRunAcrossFields field rounds len

/-- `try_claim_run`. -/
def tryClaimRun (rounds len : Nat) : Code Loc (Option Nat) := do
  return (← tryClaimRunDetailed field rounds len).index

end Chunk

end Crabc.Mimalloc
