/-
  Crabc.Ldso.InitialTls

  The initial TLS of a process: the plan of `x86_64_general_initial_tls_state.rs`, the
  block of a thread and `__tls_get_addr` of `x86_64_initial_graph.rs`, and the TLS
  relocations of `x86_64_general_relocation.rs`.

  Pointers are addresses and zero is the null pointer.  What the kernel answers to
  `mmap` is a parameter, as is the record that the symbol lookup of a relocation finds.
-/

import Crabc.Ldso.InitialGraph
import Crabc.Ldso.TlsView

namespace Crabc.Ldso

open Crabc.Lib Usize List

/-! ## The plan -/

/-- `GeneralInitialTlsPhase`. -/
inductive TlsPhase where
  | discovery
  | planned
  | relocated
  | publicationReserved
  | runtimeV1PublicationReserved
  | materialized
  | committed
  | rolledBack
deriving DecidableEq

/-- `GeneralInitialLoaderPhase`. -/
inductive LoaderPhase where
  | vacant
  | discovering
  | prepared
  | reserved
  | ready
deriving DecidableEq

/-- The errors of `GeneralInitialTlsStateError` that the plan returns. -/
inductive TlsStateError where
  | invalidPhase
  | graphIncomplete
  | invalidTemplate
  | layoutOverflow
  | moduleCapacity
  | registry
deriving DecidableEq

/-- `InitialTlsRegistry`: the objects that own a module id, in the order of the ids. -/
structure TlsRegistry where
  moduleObjects : GrowVec Nat
  isSealed : Bool

/-- The parts of `GeneralInitialTlsState` that the plan reads and writes; the table has
    one record for each object of the graph. -/
structure InitialTlsState where
  phase : TlsPhase
  loaderPhase : LoaderPhase
  lifecycleAttached : Bool
  initialTlsAttached : Bool
  graph : InitialGraphState
  objects : List TlsObject
  registry : TlsRegistry
  tabled : objects.length = graph.objectCount

namespace TlsRegistry

def new : TlsRegistry := ⟨.empty, false⟩

/-- `assign_initial` with capacities of `usize::MAX`; a refusal returns nothing. -/
def assignInitial (registry : TlsRegistry) (index : Nat) (answers : Answers) :
    Option (Nat × TlsRegistry × Answers) :=
  if registry.isSealed ∨ index ≥ 2 ^ 64 - 1 ∨ index ∈ registry.moduleObjects.items
      ∨ registry.moduleObjects.items.length = 2 ^ 64 - 1 then none
  else
    let pushed := registry.moduleObjects.push index answers
    if pushed.granted then
      some (registry.moduleObjects.items.length + 1, { registry with moduleObjects := pushed.vec }, pushed.answers)
    else none

end TlsRegistry

/-- What the loop of the plan carries from object to object. -/
structure TlsPlanning where
  planned : GrowVec (Nat × Nat)
  offsetBelowTp : Nat
  registry : TlsRegistry
  hasTls : Bool
  answers : Answers

/-- The offset of a module behind modules that reach `offsetBelowTp` bytes below the
    thread pointer; `none` when the arithmetic overflows. -/
def placeBelowTp (offsetBelowTp : Nat) (object : TlsObject) : Option Nat := do
  let sum ← checkedAdd offsetBelowTp object.tlsMemsz
  let withAlignmentSlack ← checkedAdd sum (object.tlsAlign - 1)
  let sourcePhase := phase object.tlsImage object.tlsAlign
  let phased ← checkedAdd withAlignmentSlack sourcePhase
  let placementPhase := phase phased object.tlsAlign
  let offset ← checkedSub withAlignmentSlack placementPhase
  if offset < object.tlsMemsz then none else some offset

/-- One round of the loop of `plan_initial_tls`. -/
def planObject (planning : TlsPlanning) (index : Nat) (object : TlsObject) :
    Except TlsStateError TlsPlanning :=
  if object.tlsMemsz = 0 then .ok planning
  else if object.tlsImage = 0 ∨ object.tlsFilesz > object.tlsMemsz ∨ object.tlsAlign = 0
      ∨ ¬ object.tlsAlign.isPowerOfTwo then .error .invalidTemplate
  else
    match placeBelowTp planning.offsetBelowTp object with
    | none => .error .layoutOverflow
    | some offset =>
      match planning.registry.assignInitial index planning.answers with
      | none => .error .registry
      | some (moduleId, registry, answers) =>
        if moduleId ≠ planning.planned.items.length + 1 then .error .registry
        else
          let pushed := planning.planned.push (index, offset) answers
          if pushed.granted then
            .ok ⟨pushed.vec, offset, registry, true, pushed.answers⟩
          else .error .moduleCapacity

/-- The loop of `plan_initial_tls` from object `index` on. -/
def planObjects : Nat → List TlsObject → TlsPlanning → Except TlsStateError TlsPlanning
  | _, [], planning => .ok planning
  | index, object :: objects, planning => do
    let planning ← planObject planning index object
    planObjects (index + 1) objects planning

/-- An object with its place and its module. -/
def TlsObject.placed (object : TlsObject) (offset moduleId : Nat) : TlsObject :=
  { object with tlsOffsetBelowTp := offset, tlsModuleId := moduleId }

/-- One write of the second pass: `entry` is the index and the offset of an object and
    the number of modules before it. -/
def attachModule (objects : List TlsObject) (entry : (Nat × Nat) × Nat) : List TlsObject :=
  objects.modify entry.1.1 (·.placed entry.1.2 (entry.2 + 1))

/-- The second pass writes the modules into their objects. -/
def attachModules (planned : List (Nat × Nat)) (objects : List TlsObject) : List TlsObject :=
  planned.zipIdx.foldl attachModule objects

/-- The records as the first pass over the table leaves them. -/
def clearModules (objects : List TlsObject) : List TlsObject :=
  objects.map (·.placed 0 0)

theorem length_attachModules (planned : List (Nat × Nat)) (objects : List TlsObject) :
    (attachModules planned objects).length = objects.length := by
  rw [attachModules]
  induction planned.zipIdx generalizing objects with
  | nil => rfl
  | cons entry entries ih => rw [foldl_cons, ih, attachModule, length_modify]

/-- `plan_initial_tls`. -/
def planInitialTls (state : InitialTlsState) (answers : Answers) :
    Except TlsStateError (Bool × InitialTlsState) :=
  if state.phase ≠ .discovery then .error .invalidPhase
  else if state.loaderPhase = .vacant then .error .invalidPhase
  else if (range state.graph.objectCount).any fun index =>
      state.graph.state index ≠ some .ready then .error .graphIncomplete
  else do
    let planning ← planObjects 0 state.objects ⟨.empty, 0, .new, false, answers⟩
    if state.loaderPhase ≠ .discovering ∨ state.lifecycleAttached then .error .invalidPhase
    else
      .ok (planning.hasTls, { state with
          objects := attachModules planning.planned.items (clearModules state.objects)
          initialTlsAttached := true
          registry := { planning.registry with isSealed := true }
          phase := .planned
          tabled := by
            rw [length_attachModules, clearModules, length_map]
            exact state.tabled })

/-! ## The block of a thread -/

/-- `PAGE`. -/
def pageSize : Nat := 4096

/-- `InitialTlsBlockLayout`. -/
structure InitialTlsBlockLayout where
  totalTlsSize : Nat
  tpAlignment : Nat
  moduleCount : Nat
  dtvWords : Nat
  mappingSize : Nat
deriving DecidableEq

/-- The loop of `initial_tls_block_layout`: the size, the alignment and the count. -/
def measureObjects : List TlsObject → Nat × Nat × Nat → Option (Nat × Nat × Nat)
  | [], measured => some measured
  | object :: objects, (totalTlsSize, tpAlignment, moduleCount) =>
    if object.tlsMemsz = 0 then measureObjects objects (totalTlsSize, tpAlignment, moduleCount)
    else if object.tlsOffsetBelowTp < object.tlsMemsz ∨ object.tlsAlign = 0
        ∨ ¬ object.tlsAlign.isPowerOfTwo then none
    else do
      let moduleCount ← checkedAdd moduleCount 1
      if object.tlsModuleId ≠ moduleCount then none
      else
        measureObjects objects
          (max totalTlsSize object.tlsOffsetBelowTp, max tpAlignment object.tlsAlign, moduleCount)

/-- The bytes of the TCB, the DTV and the size table. -/
def reservedAfterTp (dtvWords : Nat) : Option Nat := do
  let dtvByteLen ← checkedMul dtvWords 8
  let once ← checkedAdd tlsTcbPrefixSize dtvByteLen
  checkedAdd once dtvByteLen

/-- `initial_tls_block_layout`. -/
def initialTlsBlockLayout (objects : List TlsObject) (ownershipPrefix : Nat) :
    Option InitialTlsBlockLayout := do
  let (totalTlsSize, tpAlignment, moduleCount) ← measureObjects objects (0, 8, 0)
  if totalTlsSize = 0 ∨ ¬ tpAlignment.isPowerOfTwo then none
  else
    let dtvWords ← checkedAdd moduleCount 1
    let reserved ← reservedAfterTp dtvWords
    let owned ← checkedAdd totalTlsSize ownershipPrefix
    let used ← checkedAdd owned reserved
    let rawMappingSize ← checkedAdd used tpAlignment
    let mappingSize ← alignUp rawMappingSize pageSize
    some ⟨totalTlsSize, tpAlignment, moduleCount, dtvWords, mappingSize⟩

/-- `InstalledInitialTls`. -/
structure InstalledInitialTls where
  mapping : Nat
  mappingByteLen : Nat
  threadPointer : Nat
  dtv : Nat
  dtvWords : Nat
  moduleCount : Nat
deriving DecidableEq

/-- The loop of `materialize_tls_in_layout` over the objects. -/
def copyImages (threadPointer dtv moduleSizes dtvWords : Nat) :
    List TlsObject → ByteMemory → Option ByteMemory
  | [], m => some m
  | object :: objects, m =>
    if object.tlsMemsz = 0 then copyImages threadPointer dtv moduleSizes dtvWords objects m
    else if object.tlsModuleId = 0 ∨ object.tlsModuleId ≥ dtvWords then none
    else do
      let destination ← checkedSub threadPointer object.tlsOffsetBelowTp
      copyImages threadPointer dtv moduleSizes dtvWords objects
        (writeModule dtv moduleSizes object destination m)

/-- The TCB words and the count word of the DTV. -/
def writeTcb (threadPointer dtv moduleSizes moduleCount : Nat) (m : ByteMemory) : ByteMemory :=
  (((m.setWord threadPointer threadPointer).setWord (threadPointer + 8) dtv).setWord
    (threadPointer + tlsTcbModuleSizeTableOffset) moduleSizes).setWord dtv moduleCount

/-- `materialize_tls_in_layout`; `mapped` is the answer to `mmap`, an error where it is
    one of the last 4095 words. -/
def materializeTlsInLayout (objects : List TlsObject) (ownershipPrefix : Nat)
    (layout : InitialTlsBlockLayout) (builtin : Option (Nat × Nat)) (mapped : Nat)
    (m : ByteMemory) : Option (InstalledInitialTls × ByteMemory) := do
  let dtvByteLen ← checkedMul layout.dtvWords 8
  let reserved ← reservedAfterTp layout.dtvWords
  let block := ((builtin.filter fun b => layout.mappingSize ≤ b.2).map (·.1)).getD mapped
  if block ≥ 2 ^ 64 - 4095 then none
  else
    let mappingEnd ← checkedAdd block layout.mappingSize
    let unalignedTp ← checkedSub mappingEnd reserved
    let threadPointer := alignDown unalignedTp layout.tpAlignment
    let tlsStart ← checkedSub threadPointer layout.totalTlsSize
    let dtvEnd ← checkedAdd threadPointer reserved
    let owned ← checkedAdd block ownershipPrefix
    if tlsStart < owned ∨ dtvEnd > mappingEnd then none
    else
      let dtv := threadPointer + tlsTcbPrefixSize
      let moduleSizes := dtv + dtvByteLen
      let m ← copyImages threadPointer dtv moduleSizes layout.dtvWords objects
        (writeTcb threadPointer dtv moduleSizes layout.moduleCount m)
      some (⟨block, layout.mappingSize, threadPointer, dtv, layout.dtvWords, layout.moduleCount⟩, m)

/-! ## The two accesses -/

/-- `__tls_get_addr` on a thread; `none` is the null pointer. -/
def tlsGetAddr (m : ByteMemory) (threadPointer moduleId offset : Nat) : Option Nat :=
  if threadPointer = 0 then none
  else if currentView m threadPointer ≠ 0 then
    resolve m (currentView m threadPointer) moduleId offset
  else
    let dtv := m.word (threadPointer + 8)
    let moduleSizes := m.word (threadPointer + tlsTcbModuleSizeTableOffset)
    if dtv = 0 ∨ moduleSizes = 0 then none
    else if moduleId = 0 ∨ moduleId > m.word dtv then none
    else
      let moduleBase := m.word (tableSlot dtv moduleId)
      let moduleSize := m.word (tableSlot moduleSizes moduleId)
      if moduleSize = 0 ∨ offset > moduleSize ∨ moduleBase = 0 then none
      else checkedAdd moduleBase offset

/-- What the lookup finds for a relocation with a symbol. -/
structure TlsDefinition where
  owner : Nat
  value : Nat
  size : Nat
  sectionIndex : Nat

/-- The parts of `SymbolScope` that the TLS relocations read. -/
structure TlsScope where
  moduleCount : Nat
  staticTlsCount : Nat

/-- The owner, offset and size that a relocation asks for; `symbol` is what `lookup` finds, `none` at index zero. -/
def requestedTls (requestor : Nat) : Option TlsDefinition → Option (Nat × Nat × Nat)
  | none => some (requestor, 0, 0)
  | some symbol =>
    if symbol.sectionIndex = 0 ∨ symbol.sectionIndex ≥ 0xff00 then none
    else some (symbol.owner, symbol.value, symbol.size)

/-- `tls_coordinates`, with the object in the place of its index. -/
def tlsCoordinates (scope : TlsScope) (objects : List TlsObject) (requestor : Nat)
    (symbol : Option TlsDefinition) : Option (TlsObject × Nat) := do
  let (owner, offset, size) ← requestedTls requestor symbol
  let object ← objects[owner]?
  let stop ← checkedAdd offset size
  if object.tlsModuleId = 0 ∨ object.tlsModuleId > scope.moduleCount ∨ object.tlsMemsz = 0
      ∨ (object.tlsModuleId ≤ scope.staticTlsCount ∧ object.tlsOffsetBelowTp < object.tlsMemsz)
      ∨ (object.tlsModuleId > scope.staticTlsCount ∧ object.tlsOffsetBelowTp ≠ 0)
      ∨ stop > object.tlsMemsz then none
  else some (object, offset)

/-- `add_signed`; the addend is an `i64`. -/
def addSigned (value : Nat) (addend : Int) : Option Nat :=
  if addend ≥ 0 then checkedAdd value addend.toNat
  else checkedSub value addend.natAbs

/-- The relocations of TLS words. -/
inductive TlsRelocation where
  | dtpmod64
  | dtpoff64
  | tpoff64
deriving DecidableEq

/-- The TLS arm of `word_value`. -/
def tlsWordValue (scope : TlsScope) (objects : List TlsObject) (requestor : Nat)
    (kind : TlsRelocation) (symbol : Option TlsDefinition) (addend : Int) : Option Nat := do
  let (module, value) ← tlsCoordinates scope objects requestor symbol
  match kind with
  | .dtpmod64 => if addend = 0 then some module.tlsModuleId else none
  | .dtpoff64 =>
    let offset ← addSigned value addend
    if offset > module.tlsMemsz then none else some offset
  | .tpoff64 =>
    let offset ← addSigned value addend
    if offset > module.tlsMemsz then none
    else if module.tlsModuleId > scope.staticTlsCount then none
    -- `i64::try_from` of both; their difference is an `i64` then
    else if offset ≥ 2 ^ 63 ∨ module.tlsOffsetBelowTp ≥ 2 ^ 63 then none
    else some ((offset + (2 ^ 64 - module.tlsOffsetBelowTp)) % 2 ^ 64)

end Crabc.Ldso
