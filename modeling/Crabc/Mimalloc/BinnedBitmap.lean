/-
  Crabc.Mimalloc.BinnedBitmap

  `BinnedBitmapView` of crabc-mimalloc: chunks of available bits, a chunk map that tells
  in which chunks to look, and five maps that reserve chunks for sizes of claims.

  The number of chunks is set at initialisation and stays the same; it is a parameter
  here.  The statistics of the bins are left out.
-/

import Crabc.Mimalloc.Chunk

namespace Crabc.Mimalloc

open Crabc.Lib Chunk Function

/-- `ChunkBin`. -/
inductive ChunkBin where
  | small
  | other
  | medium
  | large
  | huge
  | none
deriving DecidableEq

namespace ChunkBin

/-- `of_slice_count`. -/
def ofSliceCount (sliceCount : Nat) : ChunkBin :=
  if sliceCount = 1 then small
  else if sliceCount = 8 then medium
  else if sliceCount = 64 then large
  else if sliceCount > 512 then huge
  else other

def index : ChunkBin → Nat
  | small => 0
  | other => 1
  | medium => 2
  | large => 3
  | huge => 4
  | none => 5

def fromIndex : Nat → ChunkBin
  | 0 => small
  | 1 => other
  | 2 => medium
  | 3 => large
  | 4 => huge
  | _ => none

end ChunkBin

/-- The words of a bitmap: the fields of its chunks, of the chunk map and of the bin maps,
    and the highest chunk that was accessed. -/
inductive BinnedLoc where
  | data (word : Nat)
  | chunkmap (field : Nat)
  | bin (bin field : Nat)
  | maxAccessed
deriving DecidableEq

theorem data_injective : Function.Injective BinnedLoc.data := fun _ _ h => BinnedLoc.data.inj h

theorem chunkmap_injective : Function.Injective BinnedLoc.chunkmap := fun _ _ h => BinnedLoc.chunkmap.inj h

/-- A program on a bitmap. -/
abbrev BinnedCode (α : Type) := Chunk.Code BinnedLoc α

namespace BinnedBitmap

/-- The fields of a chunk. -/
def chunk (chunkIndex : Nat) : Nat → BinnedLoc := fun f => .data (8 * chunkIndex + f)

def binMap (bin : Nat) : Nat → BinnedLoc := fun f => .bin bin f

/-! ## The maps -/

/-- The bit of a chunk in one bin map. -/
def updateBin (rounds chunkIndex : Nat) (selected : ChunkBin) (index : Nat) :
    BinnedCode (Option RunTransition) :=
  if ChunkBin.fromIndex index = selected then setRun (binMap index) rounds chunkIndex 1
  else clearRun (binMap index) rounds chunkIndex 1

/-- `set_chunk_bin`. -/
def setChunkBin (rounds chunkIndex : Nat) (selected : ChunkBin) : BinnedCode Unit := do
  let _ ← .each (fun index (_ : Unit) => do
    let _ ← updateBin rounds chunkIndex selected index
    return (.again () : Next Unit Unit)) (List.range 5) ()
  return ()

/-- `set_max_accessed`. -/
def setMaxAccessed (chunkIndex : Nat) : BinnedCode Unit := do
  let oldMax ← load .maxAccessed
  if chunkIndex > oldMax.toNat then
    let _ ← cas .maxAccessed oldMax (BitVec.ofNat 64 chunkIndex)
    return ()
  else return ()

/-- The check that `chunkmap_set` makes on demand. -/
def clearBinIfFull (rounds chunkIndex : Nat) : BinnedCode Unit := do
  .when (← allAreSetRelaxed (chunk chunkIndex)) (setChunkBin rounds chunkIndex .none)

/-- `chunkmap_set`. -/
def chunkmapSet (rounds chunkIndex : Nat) (checkAllSet : Bool) : BinnedCode Unit := do
  .when checkAllSet (clearBinIfFull rounds chunkIndex)
  let _ ← setRun .chunkmap rounds chunkIndex 1
  setMaxAccessed chunkIndex

/-- `chunkmap_try_clear`. -/
def chunkmapTryClear (rounds chunkIndex : Nat) : BinnedCode Bool := do
  if ← allAreClearRelaxed (chunk chunkIndex) then
    let _ ← clearRun .chunkmap rounds chunkIndex 1
    if ← allAreClearRelaxed (chunk chunkIndex) then
      setMaxAccessed chunkIndex
      return true
    else
      let _ ← setRun .chunkmap rounds chunkIndex 1
      return false
  else return false

variable (count : Nat)

/-- `BitmapRange::new` for the bits of all chunks. -/
def validRange (index len : Nat) : Bool := len ≠ 0 ∧ index < 512 * count ∧ index + len ≤ 512 * count

/-! ## Given ranges -/

/-- Where the loop of `set_range` is. -/
structure RangeCursor where
  chunkIndex : Nat
  chunkBit : Nat
  remaining : Nat
  allClear : Bool

/-- One round of `set_range`. -/
def setRangeRound (rounds : Nat) (s : RangeCursor) : BinnedCode (Next RangeCursor (Option Bool)) :=
  if s.remaining = 0 then return .done (some s.allClear)
  else do
    let pieceLen := min (512 - s.chunkBit) s.remaining
    match ← setRun (chunk s.chunkIndex) rounds s.chunkBit pieceLen with
    | none => return .done none
    | some transition =>
      chunkmapSet rounds s.chunkIndex true
      return .again ⟨s.chunkIndex + 1, 0, s.remaining - pieceLen, s.allClear && transition.allTransitioned⟩

/-- `set_range`. -/
def setRange (rounds index len : Nat) : BinnedCode (Option Bool) :=
  if validRange count index len then
    .loop (setRangeRound rounds) rounds ⟨index / 512, index % 512, len, true⟩
  else return none

/-- `try_clear_within_chunk`. -/
def tryClearWithinChunk (rounds index len : Nat) : BinnedCode (Option Bool) :=
  if validRange count index len ∧ len ≤ 512 ∧ index % 512 + len ≤ 512 then do
    match ← tryClaimAt (chunk (index / 512)) rounds (index % 512) len with
    | none => return none
    | some result =>
      if result.claimed && result.maybeAllClear then
        let _ ← chunkmapTryClear rounds (index / 512)
        return some result.claimed
      else if result.temporarilyUnclaimed then
        chunkmapSet rounds (index / 512) false
        return some result.claimed
      else return some result.claimed
  else return none

/-! ## The search in single chunks -/

/-- The next bit of two words, the first word first. -/
def takeLowest (s : Word × Word) : Option (Nat × Word × Word) :=
  if s.1 ≠ 0 then some (ctz s.1, s.1 &&& (s.1 - 1), s.2)
  else if s.2 ≠ 0 then some (ctz s.2, s.1, s.2 &&& (s.2 - 1))
  else none

/-- A word split for a search that starts at a bit and goes round. -/
def splitCycle (entry : Word) (cycle start : Nat) : Word × Word :=
  (entry &&& fieldMaskValid (cycle - start) start, entry &&& ~~~fieldMaskValid (cycle - start) start)

/-- The claim in one chunk that the map tells of. -/
def claimInChunk (rounds len : Nat) (bin : ChunkBin) (chunkIndex : Nat) :
    BinnedCode (Option Nat) := do
  let result ← tryClaimRunDetailed (chunk chunkIndex) rounds len
  match result.index with
  | some chunkBit =>
    .when (chunkBit = 0 ∧ bin = .none) (setChunkBin rounds chunkIndex (.ofSliceCount len))
    return some (chunkIndex * 512 + chunkBit)
  | none =>
    if result.temporarilyUnclaimed then
      chunkmapSet rounds chunkIndex false
      return none
    else
      let _ ← chunkmapTryClear rounds chunkIndex
      return none

/-- One round over the chunks of a bin. -/
def entryRound (rounds len : Nat) (bin : ChunkBin) (cmapIndex : Nat) (s : Word × Word) :
    BinnedCode (Next (Word × Word) (Option Nat)) :=
  match takeLowest s with
  | none => return .done none
  | some (entryIndex, rest) =>
    if cmapIndex * 64 + entryIndex ≥ count then return .again rest
    else do
      match ← claimInChunk rounds len bin (cmapIndex * 64 + entryIndex) with
      | some start => return .done (some start)
      | none => return .again rest

/-- One round over the bins, in the order of the search. -/
def binRound (rounds len threadSequence cmapIndex entryCycle : Nat) (binMasks : Nat → Word)
    (bin : ChunkBin) : BinnedCode (Next ChunkBin (Option Nat)) := do
  let start := threadSequence % 2 ^ 32 % entryCycle
  match ← .loop (entryRound count rounds len bin cmapIndex) rounds
      (splitCycle (binMasks bin.index) entryCycle start) with
  | some found => return .done (some found)
  | none =>
    if bin = .none then return .done none
    else return .again (if bin = .ofSliceCount len then .none else .fromIndex (bin.index + 1))

/-- The chunks of one word of the chunk map by their bins. -/
def loadBinMasks (cmapIndex : Nat) (cmapEntry : Word) : BinnedCode (Nat → Word) := do
  let masks ← .each (fun binIndex (masks : Nat → Word) => do
    let value := (← load (.bin binIndex cmapIndex)) &&& cmapEntry
    let masks := update masks binIndex value
    return (.again (update masks ChunkBin.none.index (masks ChunkBin.none.index &&& ~~~value)) :
      Next (Nat → Word) (Nat → Word)))
    (List.range 5) (update (fun _ => 0) ChunkBin.none.index cmapEntry)
  match masks with
  | .again masks => return masks
  | .done masks => return masks

/-- One round over the words of the chunk map. -/
def cmapRound (rounds len threadSequence chunkAccessed : Nat) (s : Word × Word) :
    BinnedCode (Next (Word × Word) (Option Nat)) :=
  match takeLowest s with
  | none => return .done none
  | some (cmapIndex, rest) => do
    let cmapEntry ← load (.chunkmap cmapIndex)
    if cmapEntry = 0 then return .again rest
    else
      let entryCycle := if cmapIndex ≠ chunkAccessed / 64 then 64 else 1 + chunkAccessed % 64
      let binMasks ← loadBinMasks cmapIndex cmapEntry
      match ← .loop (binRound count rounds len threadSequence cmapIndex entryCycle binMasks) rounds
          .small with
      | some start => return .done (some start)
      | none => return .again rest

/-- `try_find_and_claim_within_chunk`. -/
def tryFindAndClaimWithinChunk (rounds threadSequence len : Nat) : BinnedCode (Option Nat) := do
  let cmapMask := fieldMaskValid ((count + 63) / 64) 0
  let chunkAccessed := (← load .maxAccessed).toNat
  let cmapCycle := chunkAccessed / 64 + 1
  let outerStart := threadSequence % 2 ^ 32 % cmapCycle
  .loop (cmapRound count rounds len threadSequence chunkAccessed) rounds
    (splitCycle cmapMask cmapCycle outerStart)

/-! ## The search for whole chunks -/

/-- One round of the claims of `try_claim_chunks_at`; it answers what remains and how many chunks are claimed. -/
def claimChunksRound (rounds chunkIndex : Nat) (s : Nat × Nat) :
    BinnedCode (Next (Nat × Nat) (Nat × Nat)) :=
  if s.1 = 0 then return .done s
  else do
    match ← tryClaimAt (chunk (chunkIndex + s.2)) rounds 0 (min s.1 512) with
    | none => return .done s
    | some claim =>
      if claim.claimed then return .again (s.1 - min s.1 512, s.2 + 1) else return .done s

/-- The claimed chunks go back, the last one first. -/
def restoreChunks (rounds chunkIndex : Nat) : Nat → BinnedCode Unit
  | 0 => return ()
  | claimed + 1 => do
    let _ ← setRun (chunk (chunkIndex + claimed)) rounds 0 512
    chunkmapSet rounds (chunkIndex + claimed) false
    restoreChunks rounds chunkIndex claimed

/-- `try_claim_chunks_at`. -/
def tryClaimChunksAt (rounds chunkIndex len : Nat) : BinnedCode Bool :=
  if len = 0 ∨ chunkIndex ≥ count ∨ chunkIndex * 512 + len > 512 * count then return false
  else do
    let (remaining, claimed) ← .loop (claimChunksRound rounds chunkIndex) rounds (len, 0)
    if remaining = 0 then return true
    else
      restoreChunks rounds chunkIndex claimed
      return false

/-- The chunks from one on that are set as a whole, at most so many. -/
def countFull (chunkIndex : Nat) : Nat → Nat → BinnedCode Nat
  | 0, found => return found
  | required + 1, found => do
    if ← allAreSetRelaxed (chunk (chunkIndex + found)) then
      countFull chunkIndex required (found + 1)
    else return found

/-- The bins of claimed chunks. -/
def markHuge (rounds chunkIndex required : Nat) : BinnedCode Unit := do
  let _ ← .each (fun offset (_ : Unit) => do
    setChunkBin rounds (chunkIndex + offset) .huge
    return (.again () : Next Unit Unit)) (List.range required) ()
  return ()

/-- One round of `try_find_and_claim_chunks`. -/
def chunksRound (rounds len required chunkIndex : Nat) : BinnedCode (Next Nat (Option Nat)) :=
  if chunkIndex ≤ count - required then do
    let found ← countFull chunkIndex required 0
    if found = required then
      if ← tryClaimChunksAt count rounds chunkIndex len then
        markHuge rounds chunkIndex required
        return .done (some (chunkIndex * 512))
      else return .again (chunkIndex + 1)
    else return .again (chunkIndex + found + 1)
  else return .done none

/-- `try_find_and_claim_chunks`. -/
def tryFindAndClaimChunks (rounds len : Nat) : BinnedCode (Option Nat) :=
  let required := (len + 511) / 512
  if count < required then return none
  else .loop (chunksRound count rounds len required) rounds 0

/-- `try_find_and_claim`. -/
def tryFindAndClaim (rounds threadSequence len : Nat) : BinnedCode (Option Nat) :=
  if len = 0 ∨ len > 512 * count then return none
  else if len > 512 then tryFindAndClaimChunks count rounds len
  else tryFindAndClaimWithinChunk count rounds threadSequence len

end BinnedBitmap

end Crabc.Mimalloc
