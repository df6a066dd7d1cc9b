/-
  Crabc.Ldso.LoaderPool

  The loader's own memory: `x86_64_runtime_memory.rs`.

  Small blocks come from a pool of power-of-two classes, larger ones have a mapping of
  their own.  A free block holds the address of the next one of its class in its first
  word.  The pool is a value next to the memory, its lock is not modelled: every call is
  one step.  What `mmap` answers is a parameter, an address or nothing, and the kernel
  hands its mappings out zeroed.
-/

import Crabc.Lib.ByteMemory

namespace Crabc.Ldso

open Crabc.Lib

/-- `SMALLEST_CLASS`. -/
def smallestClass : Nat := 16

/-- `LARGEST_CLASS`. -/
def largestClass : Nat := 16 * 1024

/-- `CLASS_COUNT`. -/
def classCount : Nat := Nat.log2 (largestClass / smallestClass) + 1

/-- `CHUNK_BYTES`. -/
def chunkBytes : Nat := 64 * 1024

/-- `PAGE`. -/
def pageBytes : Nat := 4096

/-- A `Pool`: the first free block of every class, where the next block is carved and
    where its chunk ends, and whether the chunk in the loader's own `.bss` is in use. -/
structure Pool where
  free : Nat → Nat
  cursor : Nat
  limit : Nat
  staticChunkUsed : Bool

/-- `POOL` at the start. -/
def Pool.new : Pool := ⟨fun _ => 0, 0, 0, false⟩

/-- `class`: the index and the size of the class of a request, nothing where it has a mapping of its own. -/
def poolClass (bytes align : Nat) : Option (Nat × Nat) :=
  if align > smallestClass ∨ bytes > largestClass then none
  else
    let roundedInput := (bytes - 1) ||| (smallestClass - 1)
    -- `usize::BITS - leading_zeros` is the number of binary digits
    let exponent := Nat.log2 roundedInput + 1
    let index := exponent - Nat.log2 smallestClass
    some (index, smallestClass <<< index)

/-- What a call of `allocate_block` returns and leaves behind, with the span it mapped. -/
structure Allocation where
  block : Option Nat
  memory : ByteMemory
  pool : Pool
  mapped : Option Span

/-- The next multiple of `size` from `cursor` on, and the end of a block there. -/
def carveAt (cursor size : Nat) : Nat × Nat :=
  let padding := (2 ^ 64 - cursor) % 2 ^ 64 % size
  let block := (cursor + padding) % 2 ^ 64
  (block, (block + size) % 2 ^ 64)

/-- A block from a pool that has a chunk with room for it. -/
def carveBlock (m : ByteMemory) (pool : Pool) (size : Nat) (mapped : Option Span) : Allocation :=
  ⟨some (carveAt pool.cursor size).1, m, { pool with cursor := (carveAt pool.cursor size).2 }, mapped⟩

/-- A new chunk: the static one first, then mappings. -/
def takeChunk (staticChunk : Nat) (m : ByteMemory) (pool : Pool) (answer : Option Nat) :
    Option (ByteMemory × Pool × Option Span) :=
  if pool.staticChunkUsed then
    answer.map fun cursor =>
      (m.fill ⟨cursor, chunkBytes⟩ 0, { pool with cursor := cursor, limit := (cursor + chunkBytes) % 2 ^ 64 },
        some ⟨cursor, chunkBytes⟩)
  else
    some (m, { pool with
      cursor := staticChunk
      limit := (staticChunk + chunkBytes) % 2 ^ 64
      staticChunkUsed := true }, none)

/-- The block for a request of the class `index`, whose blocks have `size` bytes. -/
def allocatePooled (zero : Bool) (staticChunk : Nat) (m : ByteMemory) (pool : Pool)
    (index size : Nat) (answer : Option Nat) : Allocation :=
  if pool.free index ≠ 0 then
    let block := pool.free index
    let pool := { pool with free := Function.update pool.free index (m.word block) }
    ⟨some block, if zero then m.fill ⟨block, size⟩ 0 else m, pool, none⟩
  else if pool.cursor = 0 ∨ (carveAt pool.cursor size).2 > pool.limit then
    -- the rest of the old chunk is given up
    match takeChunk staticChunk m pool answer with
    | none => ⟨none, m, pool, none⟩
    | some (m, pool, mapped) => carveBlock m pool size mapped
  else carveBlock m pool size none

/-- `allocate_block`: `zero` is its parameter `ZEROED`, true for `allocate` and false for
    `allocate_uninitialized`; `answer` is the answer to the one `mmap` it may do. -/
def allocateBlock (zero : Bool) (staticChunk : Nat) (m : ByteMemory) (pool : Pool)
    (bytes align : Nat) (answer : Option Nat) : Allocation :=
  let bytes := max bytes 1
  if bytes > 2 ^ 63 - 1 ∨ align > pageBytes then ⟨none, m, pool, none⟩
  else
    match poolClass bytes align, answer with
    | some (index, size), _ => allocatePooled zero staticChunk m pool index size answer
    | none, none => ⟨none, m, pool, none⟩
    | none, some address =>
      ⟨some address, m.fill ⟨address, bytes⟩ 0, pool, some ⟨address, bytes⟩⟩

/-- `release`; `unmapped` is the answer to `munmap`. -/
def releaseBlock (m : ByteMemory) (pool : Pool) (block bytes align : Nat) (unmapped : Int) :
    Int × ByteMemory × Pool :=
  match poolClass bytes align with
  | none => (unmapped, m, pool)
  | some (index, _) =>
    (0, m.setWord block (pool.free index), { pool with free := Function.update pool.free index block })

/-! ## Runs -/

/-- A block that was not released yet, with its request. -/
structure LiveBlock where
  address : Nat
  bytes : Nat
  align : Nat
deriving DecidableEq

/-- The bytes that belong to a block: all of its class, or its whole mapping. -/
def LiveBlock.span (b : LiveBlock) : Span :=
  ⟨b.address, ((poolClass b.bytes b.align).map Prod.snd).getD (max b.bytes 1)⟩

/-- The pool with the blocks in use and the mappings that the kernel has for it. -/
structure PoolState where
  memory : ByteMemory
  pool : Pool
  live : List LiveBlock
  mappings : List Span

/-- The state after a call of `allocate_block`. -/
def PoolState.allocated (s : PoolState) (bytes align : Nat) (result : Allocation) : PoolState where
  memory := result.memory
  pool := result.pool
  live := (result.block.map fun block => ⟨block, bytes, align⟩).toList ++ s.live
  mappings := result.mapped.toList ++ s.mappings

/-- The state after a call of `release`; a mapping of its own goes where `munmap` returns zero. -/
def PoolState.released (s : PoolState) (b : LiveBlock) (unmapped : Int) : PoolState where
  memory := (releaseBlock s.memory s.pool b.address b.bytes b.align unmapped).2.1
  pool := (releaseBlock s.memory s.pool b.address b.bytes b.align unmapped).2.2
  live := s.live.erase b
  mappings := if (poolClass b.bytes b.align).isNone ∧ unmapped = 0 then s.mappings.erase b.span
    else s.mappings

/-- What the kernel says of a new mapping: it has whole pages in the lower half of the
    address space, and meets neither the static chunk nor a mapping that is there. -/
structure FreshMapping (staticChunk : Nat) (mappings : List Span) (span : Span) : Prop where
  base_ne : span.base ≠ 0
  aligned : pageBytes ∣ span.base
  bounded : span.base + span.length ≤ 2 ^ 63
  static : Span.Apart ⟨staticChunk, chunkBytes⟩ span
  apart : ∀ mapping ∈ mappings, mapping.Apart span

/-- One call, or a write of the program: it writes to its blocks, or outside all memory of the pool. -/
inductive PoolStep (staticChunk : Nat) : PoolState → PoolState → Prop where
  | allocate {s : PoolState} (zero : Bool) (bytes align : Nat) (answer : Option Nat)
      (hfresh : ∀ span, (allocateBlock zero staticChunk s.memory s.pool bytes align answer).mapped =
        some span → FreshMapping staticChunk s.mappings span) :
      PoolStep staticChunk s (s.allocated bytes align
        (allocateBlock zero staticChunk s.memory s.pool bytes align answer))
  | release {s : PoolState} {b : LiveBlock} (hlive : b ∈ s.live) (unmapped : Int) :
      PoolStep staticChunk s (s.released b unmapped)
  | store {s : PoolState} {m' : ByteMemory}
      (hwritten : ∀ a, m' a ≠ s.memory a → (∃ b ∈ s.live, a ∈ b.span) ∨
        ∀ mapping ∈ Span.mk staticChunk chunkBytes :: s.mappings, a ∉ mapping) :
      PoolStep staticChunk s { s with memory := m' }

end Crabc.Ldso
