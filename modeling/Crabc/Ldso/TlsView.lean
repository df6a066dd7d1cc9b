/-
  Crabc.Ldso.TlsView

  The TLS generations of a thread: `x86_64_runtime_tls_view.rs`.

  Pointers are addresses and zero is the null pointer.  What `allocate` answers is a
  parameter: the address of the block, which it hands out zeroed, or nothing.  A block
  lies in the address space, so sums inside it do not wrap.  A block given back with
  `release` may hold anything afterwards.
-/

import Crabc.Lib.ByteMemory

namespace Crabc.Ldso

open Crabc.Lib Usize

/-- The fields of `Object` that describe its `PT_TLS` image. -/
structure TlsObject where
  tlsImage : Nat
  tlsFilesz : Nat
  tlsMemsz : Nat
  tlsAlign : Nat
  tlsOffsetBelowTp : Nat
  tlsModuleId : Nat
deriving DecidableEq

/-- `TLS_TCB_PREFIX_SIZE`. -/
def tlsTcbPrefixSize : Nat := 64

/-- `TLS_TCB_MODULE_SIZE_TABLE_OFFSET`. -/
def tlsTcbModuleSizeTableOffset : Nat := 16

/-- `CURRENT_VIEW_TCB_OFFSET`. -/
def currentViewTcbOffset : Nat := 24

/-- `size_of::<RuntimeTlsView>()`. -/
def viewHeaderBytes : Nat := 40

/-- The fields of a `RuntimeTlsView`. -/
structure RuntimeTlsView where
  byteLen : Nat
  previous : Nat
  moduleCount : Nat
  dtv : Nat
  sizes : Nat
deriving DecidableEq

/-- The view at an address. -/
def RuntimeTlsView.read (m : ByteMemory) (view : Nat) : RuntimeTlsView :=
  ⟨m.word view, m.word (view + 8), m.word (view + 16), m.word (view + 24), m.word (view + 32)⟩

def RuntimeTlsView.write (view : RuntimeTlsView) (m : ByteMemory) (address : Nat) : ByteMemory :=
  ((((m.setWord address view.byteLen).setWord (address + 8) view.previous).setWord (address + 16)
    view.moduleCount).setWord (address + 24) view.dtv).setWord (address + 32) view.sizes

/-- The slot `id` of a table of words. -/
def tableSlot (table id : Nat) : Nat := table + 8 * id

/-- The image of a module goes to its block, and the block and its size to the tables. -/
def writeModule (dtv sizes : Nat) (module : TlsObject) (destination : Nat) (m : ByteMemory) :
    ByteMemory :=
  let m := if module.tlsFilesz ≠ 0 then m.copy module.tlsImage destination module.tlsFilesz else m
  (m.setWord (tableSlot dtv module.tlsModuleId) destination).setWord
    (tableSlot sizes module.tlsModuleId) module.tlsMemsz

/-- The current view of a thread. -/
def currentView (m : ByteMemory) (tp : Nat) : Nat := m.word (tp + currentViewTcbOffset)

open RuntimeTlsView

/-- `resolve`; `none` is the null pointer. -/
def resolve (m : ByteMemory) (view id offset : Nat) : Option Nat :=
  if view = 0 ∨ id = 0 ∨ id > (read m view).moduleCount then none
  else
    let base := m.word (tableSlot (read m view).dtv id)
    let size := m.word (tableSlot (read m view).sizes id)
    if base = 0 ∨ size = 0 ∨ offset > size then none else checkedAdd base offset

/-- The DTV, the size table and the module count of a generation. -/
structure TlsTables where
  dtv : Nat
  sizes : Nat
  count : Nat
deriving DecidableEq

/-- The tables that `prepare` starts from: those of the current view, or of the initial attachment. -/
def oldTables (m : ByteMemory) (tp : Nat) : Option TlsTables :=
  let previous := currentView m tp
  if previous = 0 then
    let dtv := m.word (tp + 8)
    let sizes := m.word (tp + tlsTcbModuleSizeTableOffset)
    if dtv = 0 ∨ sizes = 0 then none else some ⟨dtv, sizes, m.word dtv⟩
  else
    let view := read m previous
    some ⟨view.dtv, view.sizes, view.moduleCount⟩

/-- The first pass over the modules: the greatest id and the bytes of the new images. -/
def populationOf (oldCount : Nat) : List TlsObject → Nat × Nat → Option (Nat × Nat)
  | [], population => some population
  | module :: modules, (count, imageBytes) =>
    let count := max count module.tlsModuleId
    if module.tlsModuleId ≤ oldCount then populationOf oldCount modules (count, imageBytes)
    else if module.tlsMemsz = 0 ∨ module.tlsFilesz > module.tlsMemsz
        ∨ ¬ module.tlsAlign.isPowerOfTwo ∨ (module.tlsFilesz ≠ 0 ∧ module.tlsImage = 0) then none
    else do
      let slack ← checkedAdd imageBytes (module.tlsAlign - 1)
      let imageBytes ← checkedAdd slack module.tlsMemsz
      populationOf oldCount modules (count, imageBytes)

/-- `phase.wrapping_sub(cursor) & (align - 1)`. -/
def phaseDelta (image cursor align : Nat) : Nat :=
  phase ((phase image align + (2 ^ 64 - cursor)) % 2 ^ 64) align

/-- Where the block of a module starts, behind `cursor` and below `limit`. -/
def carve (limit cursor : Nat) (module : TlsObject) : Option Nat := do
  let start ← checkedAdd cursor (phaseDelta module.tlsImage cursor module.tlsAlign)
  let stop ← checkedAdd start module.tlsMemsz
  if stop > limit then none else some start

/-- The second pass: the images are carved out behind the tables.  A round that fails
    returns what was written so far. -/
def placeModules (oldCount dtv sizes limit : Nat) :
    List TlsObject → Nat → ByteMemory → Bool × ByteMemory
  | [], _, m => (true, m)
  | module :: modules, cursor, m =>
    if module.tlsModuleId ≤ oldCount then placeModules oldCount dtv sizes limit modules cursor m
    else if m.word (tableSlot dtv module.tlsModuleId) ≠ 0 then (false, m)
    else
      match carve limit cursor module with
      | none => (false, m)
      | some start =>
        placeModules oldCount dtv sizes limit modules (start + module.tlsMemsz)
          (writeModule dtv sizes module start m)

/-- The bytes of the block that `prepare` asks for. -/
structure ViewRequest where
  previous : Nat
  old : TlsTables
  count : Nat
  tableBytes : Nat
  bytes : Nat
deriving DecidableEq

/-- `prepare` up to the allocation. -/
def viewRequest (m : ByteMemory) (tp : Nat) (modules : List TlsObject) : Option ViewRequest :=
  if tp = 0 ∨ tp % 8 ≠ 0 then none
  else do
    let old ← oldTables m tp
    let (count, imageBytes) ← populationOf old.count modules (0, 0)
    if count < old.count then none
    else
      let words ← checkedAdd count 1
      let tableBytes ← checkedMul words 8
      let twice ← checkedMul tableBytes 2
      let tables ← checkedAdd viewHeaderBytes twice
      let bytes ← checkedAdd tables imageBytes
      if bytes > 2 ^ 63 - 1 then none else some ⟨currentView m tp, old, count, tableBytes, bytes⟩

/-- Fill a block with zeros. -/
def zeroed (m : ByteMemory) (block : Span) : ByteMemory := fun a => if a ∈ block then 0 else m a

/-- The view that `prepare` makes at `mapped`. -/
def ViewRequest.view (request : ViewRequest) (mapped : Nat) : RuntimeTlsView where
  byteLen := request.bytes
  previous := request.previous
  moduleCount := request.count
  dtv := mapped + viewHeaderBytes
  sizes := mapped + (viewHeaderBytes + request.tableBytes)

/-- The header and the tables, with the entries of the old tables. -/
def copyTables (m : ByteMemory) (request : ViewRequest) (mapped : Nat) : ByteMemory :=
  let view := request.view mapped
  let m := view.write m mapped
  let m := m.copy request.old.dtv view.dtv (8 * (request.old.count + 1))
  let m := m.copy request.old.sizes view.sizes (8 * (request.old.count + 1))
  m.setWord view.dtv request.count

/-- `prepare` from the zeroed block at `mapped` on: whether the view is complete, and the memory. -/
def buildView (m : ByteMemory) (modules : List TlsObject) (request : ViewRequest)
    (mapped : Nat) : Bool × ByteMemory :=
  let view := request.view mapped
  let placed := placeModules request.old.count view.dtv view.sizes (mapped + request.bytes) modules
    (mapped + viewHeaderBytes + 2 * request.tableBytes) (copyTables m request mapped)
  (placed.1 && (List.range request.count).all fun i =>
    placed.2.word (tableSlot view.dtv (i + 1)) ≠ 0 &&
      placed.2.word (tableSlot view.sizes (i + 1)) ≠ 0, placed.2)

/-- What `prepare` returns: nothing before it had a block, nothing with a block to drop, or a view. -/
inductive Prepared where
  | refused
  | abandoned (block : Span) (memory : ByteMemory)
  | view (block : Span) (memory : ByteMemory)

/-- `PreparedTlsView::prepare`; `allocation` is the answer to the one call of `allocate`. -/
def prepareView (m : ByteMemory) (tp : Nat) (modules : List TlsObject)
    (allocation : Option Nat) : Prepared :=
  match viewRequest m tp modules, allocation with
  | some request, some mapped =>
    let block := Span.mk mapped request.bytes
    let built := buildView (zeroed m block) modules request mapped
    if built.1 then .view block built.2 else .abandoned block built.2
  | _, _ => .refused

/-- `PreparedTlsView::publish`. -/
def publishView (m : ByteMemory) (tp view : Nat) : ByteMemory :=
  m.setWord (tp + currentViewTcbOffset) view

/-- A block that was given back: its bytes are whatever its next owner makes of them. -/
def released (m : ByteMemory) (block : Span) (leftover : ByteMemory) : ByteMemory := fun a =>
  if a ∈ block then leftover a else m a

/-- `PreparedTlsView::drop`: the block is given back with the length that its header has. -/
def dropView (m : ByteMemory) (view : Nat) (leftover : ByteMemory) : ByteMemory :=
  released m ⟨view, (read m view).byteLen⟩ leftover

end Crabc.Ldso
