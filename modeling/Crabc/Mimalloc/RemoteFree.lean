/-
  Crabc.Mimalloc.RemoteFree

  Blocks of a page that other threads free: `remote_free.rs`.

  A thread that frees a block of a page it does not own links it to the chain that the
  word `xthread_free` names and publishes it there with a compare-and-swap.  The low bit
  of the word says that the page has an owner; the owner detaches the chain, or what is
  behind its own block, and puts it before its local list.

  Every access to the word, to a link and to a field of the page is an operation of its
  own.  A weak compare-and-swap may fail for no reason.  The memory has a history that no
  function reads: the blocks of the chain, those of a chain that is detached and not yet
  counted out, the blocks that were published, and those that each collection has moved.
-/

import Crabc.Lib.Interleaving
import Crabc.Mimalloc.FreeListLinks

namespace Crabc.Mimalloc

open Crabc.Lib

/-- `RemoteFreeError`. -/
inductive RemoteFreeError where
  | notOwnerAssociated
  | unalignedBlock
  | tooManyRemoteBlocks
  | usedCountUnderflow
  | partialHeadMismatch
deriving DecidableEq

/-! ## Memory -/

/-- The page, its word `xthread_free`, and the history. -/
structure RemoteMem where
  page : PageLists
  head : Nat
  chain : List Nat
  detached : List Nat
  published : List Nat
  moved : List (List Nat)

/-- One access.  `requirePublished` is what the caller of `collect_partly_state` answers for:
    it goes on only when the block is in the chain. -/
inductive RemoteOp where
  | loadHead
  | casHead (expected desired : Nat)
  | loadNext (block : Nat)
  | storeNext (block next : Nat)
  | loadUsed
  | storeUsed (used : Nat)
  | loadLocalFree
  | storeLocalFree (block : Nat)
  | loadFree
  | storeFree (block : Nat)
  | storeFreeIsZero (value : Bool)
  | requirePublished (block : Nat)

/-- `is_owned`. -/
def isOwned (threadFree : Nat) : Bool := threadFree % 2 == 1

/-- `thread_free_block_address`. -/
def threadFreeBlockAddress (threadFree : Nat) : Nat := threadFree - threadFree % 2

namespace RemoteMem

/-- A block is put before the chain, or the chain is taken as a whole. -/
def setHead (mem : RemoteMem) (word : Nat) : RemoteMem :=
  if threadFreeBlockAddress word = 0 then
    { mem with head := word, chain := [], detached := mem.chain }
  else
    { mem with
      head := word
      chain := threadFreeBlockAddress word :: mem.chain
      published := threadFreeBlockAddress word :: mem.published }

/-- A link is written; the chain ends at a block of it whose link is written. -/
def setNext (area : PageArea) (mem : RemoteMem) (block next : Nat) : RemoteMem :=
  { mem with
    page := { mem.page with memory := area.writeNext mem.page.memory block next }
    chain := if block ∈ mem.chain then mem.chain.takeWhile (· ≠ block) ++ [block] else mem.chain
    detached := if block ∈ mem.chain then (mem.chain.dropWhile (· ≠ block)).tail else mem.detached }

/-- The blocks that are detached are counted out. -/
def setUsed (mem : RemoteMem) (used : Nat) : RemoteMem :=
  { mem with
    page := { mem.page with used := used }
    detached := []
    moved := mem.detached :: mem.moved }

/-- The link of a block. -/
def next (area : PageArea) (mem : RemoteMem) : Nat → Nat := area.readNext mem.page.memory

end RemoteMem

/-- What an access does.  The flag of the reply tells whether a swap has succeeded. -/
def RemoteDoes (area : PageArea) (op : RemoteOp) (mem : RemoteMem) (reply : Nat × Bool)
    (mem' : RemoteMem) : Prop :=
  match op with
  | .loadHead => reply = (mem.head, true) ∧ mem' = mem
  | .casHead expected desired =>
    (mem.head = expected ∧ reply = (expected, true) ∧ mem' = mem.setHead desired) ∨
      (reply = (mem.head, false) ∧ mem' = mem)
  | .loadNext block => reply = (mem.next area block, true) ∧ mem' = mem
  | .storeNext block next => mem' = mem.setNext area block next
  | .loadUsed => reply = (mem.page.used, true) ∧ mem' = mem
  | .storeUsed used => mem' = mem.setUsed used
  | .loadLocalFree => reply = (mem.page.localFree, true) ∧ mem' = mem
  | .storeLocalFree block => mem' = { mem with page := { mem.page with localFree := block } }
  | .loadFree => reply = (mem.page.free, true) ∧ mem' = mem
  | .storeFree block => mem' = { mem with page := { mem.page with free := block } }
  | .storeFreeIsZero value => mem' = { mem with page := { mem.page with freeIsZero := value } }
  | .requirePublished block => mem' = mem ∧
      ∃ nodes, Linked (mem.next area) 0 (threadFreeBlockAddress mem.head) nodes ∧ block ∈ nodes

/-! ## Functions -/

/-- A program of accesses. -/
abbrev RemoteCode (α : Type) := Program RemoteOp (Nat × Bool) α

namespace RemoteFree

/-- One round of `publish_to_aligned_head_with_owner`. -/
def publishRound (block : Nat) (allowCollect : Bool) (previous : Nat) :
    RemoteCode (Next Nat (Except RemoteFreeError Bool)) :=
  if !isOwned previous && !(allowCollect || isOwned previous) then
    return .done (.error .notOwnerAssociated)
  else do
    let _ ← .perform (.storeNext block (threadFreeBlockAddress previous))
    let swapped ← .perform
      (.casHead previous (block + if allowCollect || isOwned previous then 1 else 0))
    if swapped.2 then return .done (.ok (isOwned swapped.1)) else return .again swapped.1

/-- `push_source_block_mt`. -/
def pushSourceBlockMt (rounds : Nat) (canonicalAligned : Bool) (block : Nat) (allowCollect : Bool) :
    RemoteCode (Except RemoteFreeError Bool) :=
  if !canonicalAligned && isOwned block then return .error .unalignedBlock
  else do
    let previous ← .perform .loadHead
    .loop (publishRound block allowCollect) rounds previous.1

/-- One round of `detach_from_head`. -/
def detachRound (previous : Nat) : RemoteCode (Next Nat (Except RemoteFreeError Nat)) :=
  if !isOwned previous then return .done (.error .notOwnerAssociated)
  else if threadFreeBlockAddress previous = 0 then return .done (.ok previous)
  else do
    let swapped ← .perform (.casHead previous 1)
    if swapped.2 then return .done (.ok previous) else return .again swapped.1

/-- `detach_from_head`. -/
def detachFromHead (rounds : Nat) : RemoteCode (Except RemoteFreeError Nat) := do
  let previous ← .perform .loadHead
  .loop detachRound rounds previous.1

/-- One round of the walk to the last block of a detached chain. -/
def tailRound (capacity : Nat) (s : Nat × Nat) :
    RemoteCode (Next (Nat × Nat) (Except RemoteFreeError (Nat × Nat))) := do
  let next ← .perform (.loadNext s.2)
  if next.1 = 0 then return .done (.ok s)
  else if s.1 ≥ capacity then return .done (.error .tooManyRemoteBlocks)
  else return .again (s.1 + 1, next.1)

/-- The end of `collect_detached_to_local`, with the last block and the number of blocks. -/
def mergeToLocal (head count tail : Nat) : RemoteCode (Except RemoteFreeError Nat) := do
  let used ← .perform .loadUsed
  if count > used.1 then return .error .usedCountUnderflow
  else do
    let localFree ← .perform .loadLocalFree
    let _ ← .perform (.storeNext tail localFree.1)
    let _ ← .perform (.storeLocalFree head)
    let used ← .perform .loadUsed
    let _ ← .perform (.storeUsed (used.1 - count))
    return .ok count

/-- `collect_detached_to_local`. -/
def collectDetachedToLocal (rounds capacity head : Nat) : RemoteCode (Except RemoteFreeError Nat) :=
  if capacity = 0 then return .error .tooManyRemoteBlocks
  else do
    match ← .loop (tailRound capacity) rounds (1, head) with
    | .error e => return .error e
    | .ok (count, tail) => mergeToLocal head count tail

/-- `collect_state`. -/
def collectState (rounds capacity : Nat) : RemoteCode (Except RemoteFreeError Nat) := do
  match ← detachFromHead rounds with
  | .error e => return .error e
  | .ok detached =>
    if threadFreeBlockAddress detached = 0 then return .ok 0
    else collectDetachedToLocal rounds capacity (threadFreeBlockAddress detached)

/-- `move_local_to_free_if_empty`. -/
def moveLocalToFreeIfEmpty : RemoteCode Unit := do
  let localFree ← .perform .loadLocalFree
  if localFree.1 = 0 then return ()
  else do
    let free ← .perform .loadFree
    if free.1 = 0 then do
      let _ ← .perform (.storeFree localFree.1)
      let _ ← .perform (.storeLocalFree 0)
      let _ ← .perform (.storeFreeIsZero false)
      return ()
    else return ()

/-- The predecessors of a block in the chain. -/
def collectPredecessors (rounds capacity head : Nat) : RemoteCode (Except RemoteFreeError Nat) := do
  let next ← .perform (.loadNext head)
  if next.1 = 0 then return .ok 0
  else do
    let _ ← .perform (.storeNext head 0)
    match ← collectDetachedToLocal rounds capacity next.1 with
    | .error e => return .error e
    | .ok collected =>
      moveLocalToFreeIfEmpty
      return .ok collected

/-- Whether the word and the link of the last block are as they must be. -/
def headMatches (head : Nat) : RemoteCode Bool := do
  let observed ← .perform .loadHead
  if !isOwned observed.1 || threadFreeBlockAddress observed.1 != head then return false
  else do
    let next ← .perform (.loadNext head)
    return next.1 == 0

/-- `collect_partly_state`. -/
def collectPartlyState (rounds capacity head : Nat) : RemoteCode (Except RemoteFreeError Nat) := do
  match ← collectPredecessors rounds capacity head with
  | .error e => return .error e
  | .ok collected =>
    let used ← .perform .loadUsed
    if used.1 = 1 then
      if ← headMatches head then
        match ← collectState rounds capacity with
        | .error e => return .error e
        | .ok last =>
          moveLocalToFreeIfEmpty
          return .ok (collected + last)
      else return .error .partialHeadMismatch
    else return .ok collected

end RemoteFree

/-! ## Calls -/

inductive RemoteCall where
  | push (canonicalAligned : Bool) (block : Nat) (allowCollect : Bool)
  | collect
  | collectPartly (head : Nat)

inductive RemoteResult where
  | pushed (result : Except RemoteFreeError Bool)
  | collected (result : Except RemoteFreeError Nat)

/-- The blocks that are allocated to a thread, whether it owns the page, and what its collections have returned. -/
structure RemoteHold where
  blocks : Set Nat
  owner : Bool
  collected : List (Except RemoteFreeError Nat)

namespace RemoteCall

def code (capacity rounds : Nat) : RemoteCall → RemoteCode RemoteResult
  | push canonicalAligned block allowCollect => do
    return .pushed (← RemoteFree.pushSourceBlockMt rounds canonicalAligned block allowCollect)
  | collect => do return .collected (← RemoteFree.collectState rounds capacity)
  | collectPartly head => do
    let _ ← .perform (.requirePublished head)
    return .collected (← RemoteFree.collectPartlyState rounds capacity head)

/-- A thread frees blocks that are allocated to it; the owner collects. -/
def Allowed (held : RemoteHold) : RemoteCall → Prop
  | push _ block _ => block ∈ held.blocks
  | _ => held.owner = true

def begin (held : RemoteHold) : RemoteCall → RemoteHold
  | push _ block _ => { held with blocks := held.blocks \ {block} }
  | _ => held

/-- A thread that has published to a page without an owner is the owner. -/
def finish (held : RemoteHold) : RemoteCall → RemoteResult → RemoteHold
  | push _ _ _, .pushed (.ok wasOwned) => { held with owner := held.owner || !wasOwned }
  | push _ block _, .pushed (.error _) => { held with blocks := insert block held.blocks }
  | _, .collected result => { held with collected := result :: held.collected }
  | _, _ => held

end RemoteCall

/-- The calls on a page of which so many blocks are in use. -/
def remoteInterface (capacity : Nat) :
    Interface RemoteOp (Nat × Bool) RemoteHold RemoteCall RemoteResult :=
  ⟨RemoteCall.code capacity, RemoteCall.Allowed, RemoteCall.begin, RemoteCall.finish⟩

end Crabc.Mimalloc
