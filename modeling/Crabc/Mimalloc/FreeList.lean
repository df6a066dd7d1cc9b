/-
  Crabc.Mimalloc.FreeList

  The local lists of a page: `free_list.rs`.

  A page is an area of blocks of one size.  The first word of a free block is its link,
  stored as it is or encoded with the two keys of the page.  An operation returns its
  result and the state it leaves, also where it returns an error.  The answer of the
  random source and `random::shuffle` are parameters.
-/

import Crabc.Lib.ByteMemory

namespace Crabc.Mimalloc

open Crabc.Lib Function

/-- `FreeListError`. -/
inductive FreeListError where
  | invalidPage
  | randomSourceUnavailable
  | insufficientStorage
  | localFreeListNotEmpty
  | invalidBlock
  | invalidUsedCount
  | corruptFreeList
deriving DecidableEq

/-- The address of the page header and the two keys, for the encoded profile. -/
structure LinkKeys where
  page : Nat
  key : BitVec 64
  key2 : BitVec 64

/-- `encode_page_link`; the page header stands for the null pointer. -/
def encodePageLink (keys : LinkKeys) (next : Nat) : Nat :=
  let address := if next = 0 then keys.page else next
  ((BitVec.ofNat 64 address ^^^ keys.key2).rotateLeft (keys.key.toNat % 2 ^ 32) + keys.key).toNat

/-- `decode_page_link`. -/
def decodePageLink (keys : LinkKeys) (encoded : Nat) : Nat :=
  let address := (((BitVec.ofNat 64 encoded - keys.key).rotateRight (keys.key.toNat % 2 ^ 32)) ^^^
    keys.key2).toNat
  if address = keys.page then 0 else address

/-- The area of a page that passed the checks of `from_page_state`: blocks of whole, aligned words inside the
    address space. In the encoded profile no block starts at the page header. -/
structure PageArea where
  base : Nat
  blockSize : Nat
  reserved : Nat
  keys : Option LinkKeys
  reserved_pos : 0 < reserved
  reserved_lt : reserved < 2 ^ 16
  block_words : 8 ≤ blockSize ∧ 8 ∣ blockSize
  base_aligned : 8 ∣ base
  base_pos : 0 < base
  bounded : base + reserved * blockSize < 2 ^ 64
  page_lt : ∀ k ∈ keys, k.page < 2 ^ 64
  page_ne : ∀ k ∈ keys, ∀ index, index < reserved → base + index * blockSize ≠ k.page

/-- The fields of the page that the lists use, and the memory. -/
structure PageLists where
  memory : ByteMemory
  capacity : Nat
  free : Nat
  localFree : Nat
  used : Nat
  freeIsZero : Bool

/-- The result of an operation and the state after it. -/
abbrev Outcome (α : Type) := Except FreeListError α × PageLists

namespace PageArea

variable (area : PageArea)

/-- `block_at`. -/
def blockAt (index : Nat) : Except FreeListError Nat :=
  if index ≥ area.reserved then .error .invalidBlock
  else
    match Usize.checkedMul index area.blockSize with
    | none => .error .invalidBlock
    | some offset =>
      if offset ≥ area.reserved * area.blockSize then .error .invalidBlock
      else .ok (area.base + offset)

/-- `validate_initialized_block`. -/
def validateInitializedBlock (s : PageLists) (block : Nat) : Except FreeListError Unit :=
  let initialized := s.capacity * area.blockSize
  if (block + (2 ^ 64 - area.base)) % 2 ^ 64 ≥ initialized ∨ block % 8 ≠ 0 then
    .error .invalidBlock
  else .ok ()

/-- `read_next`. -/
def readNext (m : ByteMemory) (block : Nat) : Nat :=
  match area.keys with
  | none => m.word block
  | some keys => decodePageLink keys (m.word block)

/-- `write_next`. -/
def writeNext (m : ByteMemory) (block next : Nat) : ByteMemory :=
  match area.keys with
  | none => m.setWord block next
  | some keys => m.setWord block (encodePageLink keys next)

/-- `checked_next`. -/
def checkedNext (s : PageLists) (block : Nat) : Except FreeListError Nat :=
  match area.validateInitializedBlock s block with
  | .error e => .error e
  | .ok () =>
    let next := area.readNext s.memory block
    if next = 0 then .ok next
    else
      match area.validateInitializedBlock s next with
      | .error _ => .error .corruptFreeList
      | .ok () => .ok next

/-! ## Extension -/

/-- The loop of `extend_count`: the next `count` blocks are linked one behind the other
    from the block with this index on. -/
def linkBlocks : Nat → Nat → Nat → ByteMemory → Except FreeListError Unit × ByteMemory
  | 0, _, _, m => (.ok (), m)
  | count + 1, index, block, m =>
    match area.blockAt (index + 1) with
    | .error e => (.error e, m)
    | .ok next => linkBlocks count (index + 1) next (area.writeNext m block next)

/-- `extend_count`. -/
def extendCount (s : PageLists) (extend : Nat) : Outcome Nat :=
  if s.localFree ≠ 0 then (.error .localFreeListNotEmpty, s)
  else if s.free ≠ 0 then (.ok 0, s)
  else if extend = 0 ∨ s.capacity + extend > area.reserved then (.error .invalidPage, s)
  else
    let lastIndex := s.capacity + (extend - 1)
    match area.blockAt s.capacity, area.blockAt lastIndex with
    | .ok first, .ok last =>
      let linked := area.linkBlocks (lastIndex - s.capacity) s.capacity first s.memory
      match linked.1 with
      | .error e => (.error e, { s with memory := linked.2 })
      | .ok () =>
        (.ok extend, { s with
          memory := area.writeNext linked.2 last s.free
          free := first
          capacity := s.capacity + extend })
    | .error e, _ => (.error e, s)
    | _, .error e => (.error e, s)

/-- `page_extend_count_at_secure_level` for a page that is committed. -/
def pageExtendCount (secureLevel capacity reserved blockSize : Nat) : Option Nat :=
  if secureLevel > 5 then none
  else
    let minimum := if secureLevel ≥ 2 then 8 * secureLevel else 1
    if reserved = 0 ∨ capacity > reserved ∨ blockSize = 0 then none
    else
      let available := reserved - capacity
      if available = 0 then some 0
      else
        let maxExtend := max (if blockSize ≥ 8 * 1024 then minimum else 8 * 1024 / blockSize) minimum
        let extend := if available < maxExtend then available else maxExtend
        if extend = 0 ∨ extend > available ∨ extend > 65535 then none else some extend

/-- `extend`. -/
def extend (secureLevel : Nat) (s : PageLists) : Outcome Nat :=
  if s.localFree ≠ 0 then (.error .localFreeListNotEmpty, s)
  else if s.free ≠ 0 then (.ok 0, s)
  else
    match pageExtendCount secureLevel s.capacity area.reserved area.blockSize with
    | none => (.error .invalidPage, s)
    | some 0 => (.ok 0, s)
    | some count => area.extendCount s count

/-- The loop that doubles `slice_count`, from `count` on: 64 is reached in six rounds. -/
def sliceCountFrom (extend : Nat) : Nat → Nat → Nat
  | 0, count => count
  | rounds + 1, count =>
    if count < 64 ∧ count * 2 ≤ extend then sliceCountFrom extend rounds (count * 2) else count

def sliceCount (extend : Nat) : Nat := sliceCountFrom extend 6 1

/-- The loop that looks for a slice with a block left; `none` where it would not end. -/
def nextSlice (sliceCount : Nat) (counts : Nat → Nat) : Nat → Nat → Option Nat
  | 0, _ => none
  | rounds + 1, next =>
    if counts next = 0 then nextSlice sliceCount counts rounds ((next + 1) &&& (sliceCount - 1))
    else some next

/-- The state of the loop in `link_randomized_suffix`. -/
structure Shuffle where
  blocks : Nat → Nat
  counts : Nat → Nat
  current : Nat
  shuffled : Nat
  memory : ByteMemory

/-- The rounds of `link_randomized_suffix` from `index` on; `none` where one of them would not end. -/
def linkShuffled (shuffle : Nat → Nat) (sliceCount : Nat) :
    Nat → Nat → Shuffle → Option (Except FreeListError Unit × Shuffle)
  | 0, _, t => some (.ok (), t)
  | rounds + 1, index, t =>
    let round := index % 8
    let shuffled := if round = 0 then shuffle t.shuffled else t.shuffled
    match nextSlice sliceCount t.counts 64 ((shuffled >>> (8 * round)) &&& (sliceCount - 1)) with
    | none => none
    | some next =>
      let counts := update t.counts next (t.counts next - 1)
      match area.blockAt (t.blocks t.current) with
      | .error e => some (.error e, { t with counts, shuffled })
      | .ok block =>
        -- the slice is advanced first: the same one may come again
        let blocks := update t.blocks t.current (t.blocks t.current + 1)
        match area.blockAt (blocks next) with
        | .error e => some (.error e, { t with blocks, counts, shuffled })
        | .ok successor =>
          linkShuffled shuffle sliceCount rounds (index + 1)
            ⟨blocks, counts, next, shuffled, area.writeNext t.memory block successor⟩

/-- `link_randomized_suffix`. -/
def linkRandomizedSuffix (shuffle : Nat → Nat) (s : PageLists) (extend random : Nat) :
    Option (Outcome Unit) :=
  let slices := sliceCount extend
  let sliceExtend := extend / slices
  let blocks := fun index => if index < slices then s.capacity + index * sliceExtend else 0
  let counts := fun index => if index < slices then sliceExtend else 0
  let counts := update counts (slices - 1) (counts (slices - 1) + extend % slices)
  let current := random % slices
  let counts := update counts current (counts current - 1)
  match area.blockAt (blocks current) with
  | .error e => some (.error e, s)
  | .ok start =>
    match area.linkShuffled shuffle slices (extend - 1) 1
      ⟨blocks, counts, current, shuffle (random ||| 1), s.memory⟩ with
    | none => none
    | some (.error e, t) => some (.error e, { s with memory := t.memory })
    | some (.ok (), t) =>
      match area.blockAt (t.blocks t.current) with
      | .error e => some (.error e, { s with memory := t.memory })
      | .ok tail =>
        some (.ok (), { s with memory := area.writeNext t.memory tail s.free, free := start })

/-- `extend_count_randomized`; `random` is what the random source answers. -/
def extendCountRandomized (shuffle : Nat → Nat) (s : PageLists) (extend : Nat)
    (random : Option Nat) : Option (Outcome Nat) :=
  if extend = 0 ∨ s.capacity + extend > area.reserved then some (.error .invalidPage, s)
  else
    match area.blockAt s.capacity, area.blockAt (s.capacity + extend - 1) with
    | .ok first, .ok last =>
      if extend = 1 then
        some (.ok extend, { s with
          memory := area.writeNext s.memory last s.free
          free := first
          capacity := s.capacity + extend })
      else
        match random.filter (· ≠ 0) with
        | none => some (.error .randomSourceUnavailable, s)
        | some random =>
          match area.linkRandomizedSuffix shuffle s extend random with
          | none => none
          | some (.error e, s') => some (.error e, s')
          | some (.ok (), s') => some (.ok extend, { s' with capacity := s.capacity + extend })
    | .error e, _ => some (.error e, s)
    | _, .error e => some (.error e, s)

/-! ## Pop, push and collection -/

/-- `pop`. -/
def pop (s : PageLists) (zero : Bool) : Outcome (Option Nat) :=
  if s.free = 0 then (.ok none, s)
  else if s.used ≥ s.capacity then (.error .invalidUsedCount, s)
  else
    match area.checkedNext s s.free with
    | .error e => (.error e, s)
    | .ok next =>
      let m := s.memory.setWord s.free 0
      let m := if zero ∧ s.freeIsZero = false then m.fill ⟨s.free, area.blockSize⟩ 0 else m
      (.ok (some s.free), { s with memory := m, free := next, used := s.used + 1 })

/-- `push_local`. -/
def pushLocal (s : PageLists) (block : Nat) : Outcome Unit :=
  match area.validateInitializedBlock s block with
  | .error e => (.error e, s)
  | .ok () =>
    if s.used = 0 then (.error .invalidUsedCount, s)
    else
      match (if s.localFree = 0 then .ok () else area.validateInitializedBlock s s.localFree) with
      | .error e => (.error e, s)
      | .ok () =>
        (.ok (), { s with
          memory := area.writeNext s.memory block s.localFree
          used := s.used - 1
          localFree := block })

/-- `quick_collect`. -/
def quickCollect (s : PageLists) : Outcome Bool :=
  if s.free ≠ 0 then (.ok true, s)
  else if s.localFree = 0 then (.ok false, s)
  else
    match area.validateInitializedBlock s s.localFree with
    | .error e => (.error e, s)
    | .ok () => (.ok true, { s with free := s.localFree, localFree := 0, freeIsZero := false })

/-- `validate_raw_initialized_block`. -/
def validateRawInitializedBlock (s : PageLists) (block : Nat) : Except FreeListError Unit :=
  match Usize.checkedMul s.capacity area.blockSize with
  | none => .error .invalidBlock
  | some initializedBytes =>
    match Usize.checkedAdd area.base initializedBytes with
    | none => .error .invalidBlock
    | some stop =>
      if block < area.base ∨ block ≥ stop ∨ block % 8 ≠ 0 then .error .invalidBlock else .ok ()

/-- The walk of `raw_list_tail`, with so many rounds left. -/
def rawListTailFrom (s : PageLists) : Nat → Nat → Except FreeListError Nat
  | 0, _ => .error .corruptFreeList
  | rounds + 1, block =>
    let next := area.readNext s.memory block
    if next = 0 then .ok block
    else
      match area.validateRawInitializedBlock s next with
      | .error _ => .error .corruptFreeList
      | .ok () => rawListTailFrom s rounds next

/-- `raw_list_tail`. -/
def rawListTail (s : PageLists) (block : Nat) : Except FreeListError Nat :=
  if s.capacity = 0 then .error .corruptFreeList
  else
    match area.validateRawInitializedBlock s block with
    | .error e => .error e
    | .ok () => area.rawListTailFrom s s.capacity block

/-- `collect_local`, the raw form, on a page that passes `validate_raw_collect_state`. -/
def collectLocal (s : PageLists) (force : Bool) : Outcome Bool :=
  if s.capacity > area.reserved ∨ s.used > s.capacity then (.error .invalidPage, s)
  else if s.localFree = 0 then (.ok false, s)
  else
    match area.validateRawInitializedBlock s s.localFree with
    | .error e => (.error e, s)
    | .ok () =>
      if s.free = 0 then
        (.ok true, { s with free := s.localFree, localFree := 0, freeIsZero := false })
      else if force = false then (.ok false, s)
      else
        match area.validateRawInitializedBlock s s.free with
        | .error e => (.error e, s)
        | .ok () =>
          match area.rawListTail s s.localFree with
          | .error e => (.error e, s)
          | .ok tail =>
            (.ok true, { s with
              memory := area.writeNext s.memory tail s.free
              free := s.localFree
              localFree := 0
              freeIsZero := false })

end PageArea

/-! ## Runs -/

/-- A call of the owner. -/
inductive FreeListCall where
  | extend
  | extendCount (extend : Nat)
  | extendCountRandomized (extend : Nat) (random : Option Nat)
  | pop (zero : Bool)
  | pushLocal (block : Nat)
  | quickCollect
  | collectLocal (force : Bool)

/-- What a call returns: an error, or a block, or nothing of interest to the run. -/
abbrev CallResult := Except FreeListError (Option Nat)

/-- Forget a result. -/
def forget {α : Type} (outcome : Outcome α) : CallResult × PageLists :=
  (outcome.1.map fun _ => none, outcome.2)

/-- One call; `none` where it does not return. -/
def FreeListCall.perform (area : PageArea) (secureLevel : Nat) (shuffle : Nat → Nat) (s : PageLists) :
    FreeListCall → Option (CallResult × PageLists)
  | .extend => some (forget (area.extend secureLevel s))
  | .extendCount count => some (forget (area.extendCount s count))
  | .extendCountRandomized count random =>
    (area.extendCountRandomized shuffle s count random).map forget
  | .pop zero => some (area.pop s zero)
  | .pushLocal block => some (forget (area.pushLocal s block))
  | .quickCollect => some (forget (area.quickCollect s))
  | .collectLocal force => some (forget (area.collectLocal s force))

/-- A page with the blocks that are allocated. -/
structure PageRun where
  lists : PageLists
  allocated : List Nat

/-- The allocated blocks after a call. -/
def FreeListCall.allocatedAfter (allocated : List Nat) : FreeListCall → CallResult → List Nat
  | .pop _, .ok (some block) => block :: allocated
  | .pushLocal block, .ok _ => allocated.erase block
  | _, _ => allocated

/-- A call, with only allocated blocks pushed; or a client that writes to its blocks, or outside the page. -/
inductive FreeListStep (area : PageArea) (secureLevel : Nat) (shuffle : Nat → Nat) :
    PageRun → PageRun → Prop where
  | call {r : PageRun} (c : FreeListCall) {result : CallResult} {s' : PageLists}
      (hpush : ∀ block, c = .pushLocal block → block ∈ r.allocated)
      (hperform : c.perform area secureLevel shuffle r.lists = some (result, s')) :
      FreeListStep area secureLevel shuffle r ⟨s', c.allocatedAfter r.allocated result⟩
  | store {r : PageRun} {m' : ByteMemory}
      (hwritten : ∀ a, m' a ≠ r.lists.memory a → (∃ block ∈ r.allocated, a ∈ Span.mk block area.blockSize) ∨
          a ∉ Span.mk area.base (area.reserved * area.blockSize)) :
      FreeListStep area secureLevel shuffle r ⟨{ r.lists with memory := m' }, r.allocated⟩

/-- A fresh page. -/
def PageRun.fresh (m : ByteMemory) (freeIsZero : Bool) : PageRun :=
  ⟨⟨m, 0, 0, 0, 0, freeIsZero⟩, []⟩

end Crabc.Mimalloc
