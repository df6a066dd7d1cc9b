/-
  Crabc.Ldso.InitialTlsLaws

  The block of a thread: where its parts stand, what they hold, and that the static and
  the dynamic access to a TLS variable agree.
-/

import Crabc.Ldso.InitialTlsPlan
import Crabc.Ldso.TlsModules

namespace Crabc.Ldso

open Crabc.Lib InstalledInitialTls Span Usize ByteMemory Nat

/-! ## The layout -/

variable {objects : List TlsObject}

open List Option

/-- What the loop over the table measures. -/
theorem measureObjects_spec {total alignment count : Nat} {measured : Nat × Nat × Nat}
    (h : measureObjects objects (total, alignment, count) = some measured) :
    total ≤ measured.1 ∧ alignment ≤ measured.2.1 ∧ measured.2.2 = count + (tlsModules objects).length ∧
      (∀ object ∈ tlsModules objects, object.tlsOffsetBelowTp ≤ measured.1 ∧ object.tlsAlign ≤ measured.2.1 ∧
          count < object.tlsModuleId ∧ object.tlsModuleId ≤ measured.2.2) ∧
      (tlsModules objects).Pairwise (·.tlsModuleId ≠ ·.tlsModuleId) := by
  induction objects generalizing total alignment count with
  | nil =>
    cases h
    exact ⟨le_refl _, le_refl _, rfl, nofun, .nil⟩
  | cons object objects ih =>
    rw [measureObjects] at h
    split at h
    case isTrue hempty =>
      rw [tlsModules_skip _ hempty]
      exact ih h
    case isFalse hnonempty =>
    split at h
    case isTrue => cases h
    case isFalse =>
    simp only [bind_eq_bind, bind_eq_some_iff, checkedAdd_eq_some] at h
    obtain ⟨_, ⟨-, rfl⟩, h⟩ := h
    split at h
    case isTrue => cases h
    case isFalse hid =>
    obtain ⟨htotal, halignment, hcount, heach, hdistinct⟩ := ih h
    rw [tlsModules_take _ hnonempty, length_cons]
    refine ⟨by omega, by omega, by omega, fun other hother => ?_, pairwise_cons.mpr
      ⟨fun other hother => ?_, hdistinct⟩⟩
    · rcases mem_cons.mp hother with rfl | hother
      · refine ⟨by omega, by omega, by omega, by omega⟩
      · obtain ⟨hoffset, halign, hlow, hhigh⟩ := heach other hother
        exact ⟨hoffset, halign, by omega, hhigh⟩
    · have := (heach other hother).2.2.1
      omega

/-! ## The parts of the block -/

/-- A module in the block of a thread. -/
def TlsObject.under (threadPointer : Nat) (object : TlsObject) : PlacedModule :=
  (object, threadPointer - object.tlsOffsetBelowTp)

theorem under_fst (threadPointer : Nat) (object : TlsObject) : (object.under threadPointer).1 = object := rfl

namespace InstalledInitialTls

variable (installed : InstalledInitialTls)

/-- The whole mapping. -/
def mappingSpan : Span := ⟨installed.mapping, installed.mappingByteLen⟩

def tcbSpan : Span := ⟨installed.threadPointer, tlsTcbPrefixSize⟩

def dtvSpan : Span := ⟨installed.dtv, 8 * installed.dtvWords⟩

/-- The size table stands behind the DTV. -/
def sizesSpan : Span := ⟨installed.dtv + 8 * installed.dtvWords, 8 * installed.dtvWords⟩

/-- The ownership prefix, the blocks of the modules from the lowest on, the TCB and the two tables. -/
def parts (ownershipPrefix : Nat) (objects : List TlsObject) : List Span :=
  ⟨installed.mapping, ownershipPrefix⟩ ::
    ((tlsModules objects).reverse.map (fun object => (object.under installed.threadPointer).block) ++
      [installed.tcbSpan, installed.dtvSpan, installed.sizesSpan])

end InstalledInitialTls

/-- What `materialize_tls_in_layout` checks before it writes, and what it writes. -/
structure Materialized (objects : List TlsObject) (ownershipPrefix : Nat)
    (layout : InitialTlsBlockLayout) (m : ByteMemory) (installed : InstalledInitialTls)
    (m' : ByteMemory) : Prop where
  mappingByteLen : installed.mappingByteLen = layout.mappingSize
  dtv : installed.dtv = installed.threadPointer + tlsTcbPrefixSize
  dtvWords : installed.dtvWords = layout.dtvWords
  moduleCount : installed.moduleCount = layout.moduleCount
  above : installed.mapping + ownershipPrefix + layout.totalTlsSize ≤ installed.threadPointer
  below : installed.threadPointer + tlsTcbPrefixSize + 16 * layout.dtvWords ≤ installed.mapping + layout.mappingSize
  bounded : installed.mapping + layout.mappingSize < 2 ^ 64
  aligned : layout.tpAlignment.isPowerOfTwo → layout.tpAlignment ∣ installed.threadPointer
  copied : copyImages installed.threadPointer installed.dtv
    (installed.dtv + 8 * installed.dtvWords) installed.dtvWords objects
    (writeTcb installed.threadPointer installed.dtv (installed.dtv + 8 * installed.dtvWords)
      installed.moduleCount m) = some m'

variable {dtvWords threadPointer moduleSizes requestor : Nat} {symbol : Option TlsDefinition}

theorem reservedAfterTp_eq_some {reserved : Nat} (h : reservedAfterTp dtvWords = some reserved) :
    reserved = tlsTcbPrefixSize + 16 * dtvWords := by
  simp only [reservedAfterTp, bind_eq_bind, bind_eq_some_iff, checkedAdd_eq_some, checkedMul_eq_some] at h
  omega

variable {layout : InitialTlsBlockLayout} {ownershipPrefix : Nat} {m' m : ByteMemory}

theorem materialized_of_eq_some {builtin : Option (Nat × Nat)} {mapped : Nat} {installed : InstalledInitialTls}
    (h : materializeTlsInLayout objects ownershipPrefix layout builtin mapped m = some (installed, m')) :
    Materialized objects ownershipPrefix layout m installed m' := by
  simp only [materializeTlsInLayout, bind_eq_bind, bind_eq_some_iff, checkedMul_eq_some] at h
  obtain ⟨_, ⟨-, rfl⟩, reserved, hreserved, h⟩ := h
  have hreserved := reservedAfterTp_eq_some hreserved
  split at h
  case isTrue => cases h
  case isFalse =>
  simp only [bind_eq_some_iff, checkedAdd_eq_some, checkedSub_eq_some] at h
  obtain ⟨_, ⟨hbounded, rfl⟩, _, ⟨hroom, rfl⟩, _, ⟨htotal, rfl⟩, _, ⟨-, rfl⟩, _, ⟨-, rfl⟩, h⟩ := h
  split at h
  case isTrue => cases h
  case isFalse hinside =>
  obtain ⟨m'', hcopied, h⟩ := bind_eq_some_iff.mp h
  cases h
  refine ⟨rfl, rfl, rfl, rfl, ?_, ?_, hbounded, fun hpower => dvd_alignDown hpower, ?_⟩
  · dsimp only at *
    omega
  · dsimp only at *
    omega
  · rw [← hcopied, mul_comm 8]

/-- The TCB words are written in the TCB and in the first word behind it. -/
theorem writeTcb_frame (threadPointer moduleSizes moduleCount : Nat) (m : ByteMemory) :
    ByteMemory.Frame ⟨threadPointer, tlsTcbPrefixSize + 8⟩ m
      (writeTcb threadPointer (threadPointer + tlsTcbPrefixSize) moduleSizes moduleCount m) :=
  ((((ByteMemory.Frame.refl _ m).setWord 0 (by decide)).setWord 8 (by decide)).setWord 16 (by decide)).setWord 64 (by decide)

/-- What the words of the TCB are, and that the one of the view is left alone. -/
theorem writeTcb_words {moduleCount : Nat} (htp : threadPointer + tlsTcbPrefixSize < 2 ^ 64)
    (hsizes : moduleSizes < 2 ^ 64) (hcount : moduleCount < 2 ^ 64)
    (hm' : m' = writeTcb threadPointer (threadPointer + tlsTcbPrefixSize) moduleSizes
      moduleCount m) : m'.word (threadPointer + 8) = threadPointer + tlsTcbPrefixSize ∧
      m'.word (threadPointer + tlsTcbModuleSizeTableOffset) = moduleSizes ∧
      m'.word (threadPointer + tlsTcbPrefixSize) = moduleCount ∧
      currentView m' threadPointer = currentView m threadPointer := by
  simp only [hm', writeTcb, currentView, tlsTcbPrefixSize, tlsTcbModuleSizeTableOffset, currentViewTcbOffset] at *
  refine ⟨?_, ?_, ?_, ?_⟩ <;> simp (disch := omega) only [word_setWord, word_setWord_other]

/-- The loop over the table writes the modules. -/
theorem copyImages_eq_some {dtv : Nat} (h : copyImages threadPointer dtv moduleSizes dtvWords objects m = some m') :
    m' = writeModules dtv moduleSizes ((tlsModules objects).map (·.under threadPointer)) m ∧
      ∀ object ∈ tlsModules objects, object.tlsModuleId < dtvWords := by
  induction objects generalizing m with
  | nil =>
    cases h
    exact ⟨rfl, nofun⟩
  | cons object objects ih =>
    rw [copyImages] at h
    split at h
    case isTrue hempty =>
      rw [tlsModules_skip _ hempty]
      exact ih h
    case isFalse hnonempty =>
    split at h
    case isTrue => cases h
    case isFalse hid =>
    push Not at hid
    simp only [bind_eq_bind, bind_eq_some_iff, checkedSub_eq_some] at h
    obtain ⟨_, ⟨-, rfl⟩, h⟩ := h
    obtain ⟨rfl, hids⟩ := ih h
    rw [tlsModules_take _ hnonempty]
    refine ⟨rfl, fun other hother => ?_⟩
    rcases mem_cons.mp hother with rfl | hother
    · exact hid.2
    · exact hids other hother

section

variable {objects : List TlsObject}  
  {installed : InstalledInitialTls}

/-- What the layout says of the modules. -/
theorem initialTlsBlockLayout_spec (h : initialTlsBlockLayout objects ownershipPrefix = some layout) :
    layout.tpAlignment.isPowerOfTwo ∧ layout.moduleCount < layout.dtvWords ∧ (∀ object ∈ tlsModules objects,
        object.tlsOffsetBelowTp ≤ layout.totalTlsSize ∧ object.tlsAlign ≤ layout.tpAlignment ∧
          0 < object.tlsModuleId ∧ object.tlsModuleId ≤ layout.moduleCount) ∧
      (tlsModules objects).Pairwise (·.tlsModuleId ≠ ·.tlsModuleId) := by
  simp only [initialTlsBlockLayout, bind_eq_bind, bind_eq_some_iff] at h
  obtain ⟨⟨total, alignment, count⟩, hmeasured, h⟩ := h
  obtain ⟨-, -, -, heach, hdistinct⟩ := measureObjects_spec hmeasured
  split at h
  case isTrue => cases h
  case isFalse hpower =>
  push Not at hpower
  simp only [bind_eq_some_iff, checkedAdd_eq_some] at h
  obtain ⟨_, ⟨-, rfl⟩, _, -, _, -, _, -, _, -, _, -, h⟩ := h
  cases h
  exact ⟨hpower.2, lt_succ_self _, heach, hdistinct⟩

variable (hstacked : Stacked 0 (tlsModules objects))
  (hlayout : initialTlsBlockLayout objects ownershipPrefix = some layout)
  (hm : Materialized objects ownershipPrefix layout m installed m')
include hstacked hlayout hm

/-- The block of a module lies between the ownership prefix and the TCB. -/
theorem under_block (object : TlsObject) (hobject : object ∈ tlsModules objects) :
    installed.mapping + ownershipPrefix ≤ (object.under installed.threadPointer).block.base ∧
      (object.under installed.threadPointer).block.base + object.tlsOffsetBelowTp = installed.threadPointer ∧
      object.tlsMemsz ≤ object.tlsOffsetBelowTp ∧
      (object.under installed.threadPointer).block.base = (object.under installed.threadPointer).2 ∧
      (object.under installed.threadPointer).block.length = object.tlsMemsz := by
  have hoffset := ((initialTlsBlockLayout_spec hlayout).2.2.1 object hobject).1
  have habove := hm.above
  have hmemsz := (hstacked.below object hobject).1.memsz_le
  simp only [TlsObject.under, PlacedModule.block, and_true]
  omega

/-- A later module stands below an earlier one. -/
theorem under_pairwise : (tlsModules objects).Pairwise fun a b =>
    (b.under installed.threadPointer).block.base + b.tlsMemsz ≤ (a.under installed.threadPointer).block.base := by
  refine hstacked.pairwise.imp_of_mem fun ha hb hle => ?_
  have hbelow := under_block hstacked hlayout hm _ ha
  have hbelow' := under_block hstacked hlayout hm _ hb
  omega

/-- The parts of the block are apart. -/
theorem parts_apart : (installed.parts ownershipPrefix objects).Pairwise Span.Apart := by
  have hdtv := hm.dtv
  have hblocks := under_block hstacked hlayout hm
  have habove := hm.above
  refine pairwise_cons.mpr ⟨fun part hpart => ?_, pairwise_append.mpr ⟨?_, ?_, ?_⟩⟩
  · -- everything else is above the ownership prefix
    apply apart_of_le
    rcases mem_append.mp hpart with hpart | hpart
    · obtain ⟨object, hobject, rfl⟩ := mem_map.mp hpart
      exact (hblocks object (mem_reverse.mp hobject)).1
    · simp only [mem_cons, not_mem_nil, or_false] at hpart
      rcases hpart with rfl | rfl | rfl <;>
        simp only [tcbSpan, dtvSpan, sizesSpan] <;> omega
  · rw [pairwise_map, pairwise_reverse]
    exact (under_pairwise hstacked hlayout hm).imp apart_of_le
  · -- the TCB, the DTV and the sizes follow each other
    simp only [pairwise_cons, mem_cons, not_mem_nil, or_false, forall_eq_or_imp,
      forall_eq, IsEmpty.forall_iff, implies_true, List.Pairwise.nil, and_true]
    refine ⟨⟨?_, ?_⟩, ?_⟩ <;> apply apart_of_le <;>
      simp only [tcbSpan, dtvSpan, sizesSpan] <;> omega
  · intro part hpart other hother
    obtain ⟨object, hobject, rfl⟩ := mem_map.mp hpart
    obtain ⟨-, hbase, hmemsz⟩ := hblocks object (mem_reverse.mp hobject)
    apply apart_of_le
    simp only [mem_cons, not_mem_nil, or_false] at hother
    rcases hother with rfl | rfl | rfl <;>
      simp only [tcbSpan, dtvSpan, sizesSpan] <;> omega

/-- The parts of the block are in the mapping. -/
theorem parts_inside : ∀ part ∈ installed.parts ownershipPrefix objects, part.Inside installed.mappingSpan := by
  have hblocks := under_block hstacked hlayout hm
  obtain ⟨hlen, hdtv, hwords, -, habove, hbelow, -⟩ := hm
  intro part hpart
  simp only [Span.Inside, mappingSpan]
  rcases mem_cons.mp hpart with rfl | hpart
  · dsimp only
    omega
  rcases mem_append.mp hpart with hpart | hpart
  · obtain ⟨object, hobject, rfl⟩ := mem_map.mp hpart
    obtain ⟨hbase, hoffset, hmemsz⟩ := hblocks object (mem_reverse.mp hobject)
    omega
  · simp only [mem_cons, not_mem_nil, or_false] at hpart
    rcases hpart with rfl | rfl | rfl <;>
      simp only [tcbSpan, dtvSpan, sizesSpan] <;> omega

variable {object : TlsObject}

/-- The address of a block has the phase of its image. -/
theorem under_phase (hobject : object ∈ tlsModules objects) :
    (object.under installed.threadPointer).2 % object.tlsAlign = object.tlsImage % object.tlsAlign := by
  obtain ⟨hpower, -, heach, -⟩ := initialTlsBlockLayout_spec hlayout
  have hsited := (hstacked.below object hobject).1
  obtain ⟨-, hoffset, -⟩ := under_block hstacked hlayout hm object hobject
  have htp : object.tlsAlign ∣ installed.threadPointer :=
    dvd_trans (dvd_of_isPowerOfTwo hsited.aligned hpower (heach object hobject).2.1)
      (hm.aligned hpower)
  -- the base and the image are congruent to the image and the base both less the offset
  have hbase : (object.under installed.threadPointer).2 + object.tlsOffsetBelowTp = installed.threadPointer := hoffset
  have hmod : (object.under installed.threadPointer).2 + object.tlsOffsetBelowTp ≡
      object.tlsImage + object.tlsOffsetBelowTp [MOD object.tlsAlign] := by
    rw [hbase, add_comm object.tlsImage]
    exact ((modEq_zero_iff_dvd.mpr htp).trans
      (modEq_zero_iff_dvd.mpr hsited.phased).symm)
  exact hmod.add_right_cancel' _

/-- The modules and the tables are where the writes keep them apart. -/
theorem wellPlaced_under (himages : ∀ object ∈ tlsModules objects, Span.Apart ⟨object.tlsImage, object.tlsFilesz⟩
      installed.mappingSpan) :
    WellPlaced installed.mappingSpan installed.dtv (installed.dtv + 8 * installed.dtvWords)
      installed.dtvWords ((tlsModules objects).map (·.under installed.threadPointer)) := by
  have ⟨hlen, hdtv, hwords, _, habove, hbelow, hbounded, _, hcopied⟩ := hm
  have hids := (copyImages_eq_some hcopied).2
  have hblocks := under_block hstacked hlayout hm
  have hforall {P : PlacedModule → Prop}
      (h : ∀ object ∈ tlsModules objects, P (object.under installed.threadPointer)) :
      ∀ w ∈ (tlsModules objects).map (·.under installed.threadPointer), P w :=
    forall_mem_map.mpr h
  refine ⟨le_refl _, ?_, hforall fun object hobject => ?_, hforall fun object hobject a ha => ?_,
    hforall hids, hforall himages, hforall fun object hobject =>
      (hstacked.below object hobject).1.filesz_le, hforall fun object hobject => ?_, ?_⟩
  · simp only [mappingSpan]
    omega
  · apply parts_inside hstacked hlayout hm
    refine mem_cons_of_mem _ (mem_append_left _ ?_)
    exact mem_map_of_mem (mem_reverse.mpr hobject)
  · obtain ⟨-, hbase, hmemsz⟩ := hblocks object hobject
    rw [mem_iff] at ha
    omega
  · obtain ⟨-, hbase, hmemsz⟩ := hblocks object hobject
    rw [under_fst]
    omega
  · rw [pairwise_map]
    refine ((under_pairwise hstacked hlayout hm).and
      (initialTlsBlockLayout_spec hlayout).2.2.2).imp fun h => ?_
    exact ⟨(apart_of_le h.1).symm, h.2⟩

variable (himages : ∀ object ∈ tlsModules objects, Span.Apart ⟨object.tlsImage, object.tlsFilesz⟩ installed.mappingSpan)
include himages

section

variable (hzero : ∀ a ∈ installed.mappingSpan, m a = 0)
include hzero

/-- The block of a module holds its image and zeros. -/
theorem under_contents (hobject : object ∈ tlsModules objects) {i : Nat} (hi : i < object.tlsMemsz) :
    m' ((object.under installed.threadPointer).2 + i) =
      if i < object.tlsFilesz then m (object.tlsImage + i) else 0 := by
  have hplaced := wellPlaced_under hstacked hlayout hm himages
  have hw : object.under installed.threadPointer ∈
      (tlsModules objects).map (·.under installed.threadPointer) := mem_map_of_mem hobject
  have hdtv := hm.dtv
  have hbelow := hm.below
  obtain ⟨hbase, hoffset, hmemsz⟩ := under_block hstacked hlayout hm object hobject
  have hcount := (initialTlsBlockLayout_spec hlayout).2.1
  have hlen := hm.mappingByteLen
  -- the TCB is written above the block and inside the mapping
  have htcb (a : Nat) (ha : a < installed.threadPointer ∨ a ∉ installed.mappingSpan) :
      writeTcb installed.threadPointer installed.dtv (installed.dtv + 8 * installed.dtvWords)
        installed.moduleCount m a = m a := by
    rw [hdtv]
    apply writeTcb_frame
    rw [mem_mk]
    rw [mappingSpan, mem_mk] at ha
    omega
  rw [(copyImages_eq_some hm.copied).1, (writeModules_spec _ hplaced hw).1 i hi]
  show (if i < object.tlsFilesz then _ else _) = _
  split
  case isTrue hfile => exact htcb _ (.inr (himages object hobject _ (add_mem hfile)))
  case isFalse =>
    rw [htcb _ (.inl (by omega))]
    apply hzero
    exact (hplaced.inside _ hw).mem (add_mem hi)

/-- The words that `__tls_get_addr` reads on a thread without a view. -/
theorem installed_words : m'.word (installed.threadPointer + 8) = installed.dtv ∧
      m'.word (installed.threadPointer + tlsTcbModuleSizeTableOffset) = installed.dtv + 8 * installed.dtvWords ∧
      m'.word installed.dtv = installed.moduleCount ∧
      currentView m' installed.threadPointer = 0 := by
  have hplaced := wellPlaced_under hstacked hlayout hm himages
  have ⟨hlen, hdtv, hwords, hmodules, habove, hbelow, hbounded, _, hcopied⟩ := hm
  obtain ⟨-, hcount, heach, -⟩ := initialTlsBlockLayout_spec hlayout
  obtain ⟨htcb, hsizes, hfirst, hview⟩ := writeTcb_words
    (by omega : installed.threadPointer + tlsTcbPrefixSize < 2 ^ 64)
    (by omega : installed.dtv + 8 * installed.dtvWords < 2 ^ 64)
    (by omega : installed.moduleCount < 2 ^ 64) rfl
  -- the modules write below the thread pointer and into slots behind the first
  have hkept (a : Nat) (ha : installed.threadPointer ≤ a) (ha' : a ≤ installed.dtv) :
      m'.word a = (writeTcb installed.threadPointer installed.dtv
        (installed.dtv + 8 * installed.dtvWords) installed.moduleCount m).word a := by
    rw [(copyImages_eq_some hcopied).1]
    refine writeModules_word _ hplaced fun w hw i hi => ?_
    obtain ⟨object, hobject, rfl⟩ := mem_map.mp hw
    obtain ⟨-, hoffset, hmemsz⟩ := under_block hstacked hlayout hm object hobject
    have hid := (heach object hobject).2.2.1
    simp only [Untouched, mem_iff, under_fst, slotSpan, tableSlot]
    omega
  have hprefix : tlsTcbPrefixSize = 64 := rfl
  have htable : tlsTcbModuleSizeTableOffset = 16 := rfl
  have hoffset : currentViewTcbOffset = 24 := rfl
  rw [← hdtv] at htcb hsizes hfirst hview
  refine ⟨?_, ?_, ?_, ?_⟩
  · rw [hkept _ (by omega) (by omega), htcb]
  · rw [hkept _ (by omega) (by omega), hsizes]
  · rw [hkept _ (by omega) (by omega), hfirst]
  · rw [currentView, hkept _ (by omega) (by omega)]
    refine hview.trans (word_zero fun b hb => hzero b ?_)
    rw [mem_mk] at hb
    rw [mappingSpan, mem_mk]
    omega

/-- `__tls_get_addr` finds a module at its block. -/
theorem tlsGetAddr_under (hmapping : installed.mapping ≠ 0) (hobject : object ∈ tlsModules objects)
    {offset : Nat} (hoffset : offset ≤ object.tlsMemsz) :
    tlsGetAddr m' installed.threadPointer object.tlsModuleId offset =
      some ((object.under installed.threadPointer).2 + offset) := by
  have hplaced := wellPlaced_under hstacked hlayout hm himages
  have hw : object.under installed.threadPointer ∈
      (tlsModules objects).map (·.under installed.threadPointer) := mem_map_of_mem hobject
  obtain ⟨hdtv, hsizes, hcount, hview⟩ := installed_words hstacked hlayout hm himages hzero
  obtain ⟨-, hbase, hsize⟩ := writeModules_spec (writeTcb installed.threadPointer installed.dtv
    (installed.dtv + 8 * installed.dtvWords) installed.moduleCount m) hplaced hw
  rw [← (copyImages_eq_some hm.copied).1] at hbase hsize
  obtain ⟨hlow, hbelow, hmemsz⟩ := under_block hstacked hlayout hm object hobject
  have hid := (initialTlsBlockLayout_spec hlayout).2.2.1 object hobject
  have hnonempty := (mem_tlsModules.mp hobject).2
  obtain ⟨-, htp, -, hmodules, -, hend, hbounded, -⟩ := hm
  rw [under_fst] at hbase hsize
  rw [tlsGetAddr, if_neg (by omega), if_neg (by rw [hview]; simp), hdtv, hsizes]
  rw [if_neg (by omega), hcount, if_neg (by omega), hbase, hsize, if_neg (by omega)]
  exact checkedAdd_eq_some.mpr ⟨by omega, rfl⟩

end

end

/-! ## The relocations -/

/-- The coordinates of a relocation name a module of the table. -/
theorem tlsCoordinates_mem {scope : TlsScope} {value : Nat}
    {module : TlsObject} (h : tlsCoordinates scope objects requestor symbol = some (module, value)) :
    module ∈ tlsModules objects := by
  simp only [tlsCoordinates, bind_eq_bind, bind_eq_some_iff] at h
  obtain ⟨_, -, object, hobject, _, -, h⟩ := h
  split at h
  case isTrue => cases h
  case isFalse hvalid =>
    cases h
    push Not at hvalid
    exact mem_tlsModules.mpr ⟨mem_of_getElem? hobject, hvalid.2.2.1⟩

/-- Where the static relocation of a variable is accepted the dynamic ones are, and this
    is what their words have to do with each other. -/
theorem tlsWordValue_spec {scope : TlsScope} {addend : Int}
    {tpoff : Nat} (h : tlsWordValue scope objects requestor .tpoff64 symbol addend = some tpoff) :
    ∃ module ∈ tlsModules objects, ∃ offset, offset ≤ module.tlsMemsz ∧
      tlsWordValue scope objects requestor .dtpmod64 symbol 0 = some module.tlsModuleId ∧
      tlsWordValue scope objects requestor .dtpoff64 symbol addend = some offset ∧
      tpoff = (offset + (2 ^ 64 - module.tlsOffsetBelowTp)) % 2 ^ 64 := by
  simp only [tlsWordValue, bind_eq_bind, bind_eq_some_iff] at h ⊢
  obtain ⟨⟨module, value⟩, hcoordinates, offset, hsigned, h⟩ := h
  split at h
  case isTrue => cases h
  case isFalse hle =>
  split at h
  case isTrue => cases h
  case isFalse =>
  split at h
  case isTrue => cases h
  case isFalse =>
  refine ⟨module, tlsCoordinates_mem hcoordinates, offset, Nat.le_of_not_lt hle,
    ⟨_, hcoordinates, rfl⟩, ⟨_, hcoordinates, offset, hsigned, if_neg hle⟩, ?_⟩
  exact (some.inj h).symm

/-- **The initial TLS.**  In the block of a thread, made from a planned table in zeroed
    memory, every module stands at the phase of its image, the parts of the block are
    apart from each other and in the mapping, every module holds its image and zeros, and
    the static access to a variable goes to the address that `__tls_get_addr` returns. -/
theorem initialTls_materialized {state state' : InitialTlsState} {answers : Answers}
    {hasTls : Bool} (hplan : planInitialTls state answers = .ok (hasTls, state'))
    {ownershipPrefix : Nat} {layout : InitialTlsBlockLayout}
    (hlayout : initialTlsBlockLayout state'.objects ownershipPrefix = some layout)
    {builtin : Option (Nat × Nat)} {mapped : Nat} {m m' : ByteMemory}
    {installed : InstalledInitialTls}
    (hmaterialized : materializeTlsInLayout state'.objects ownershipPrefix layout builtin mapped m =
      some (installed, m'))
    (hzero : ∀ a ∈ installed.mappingSpan, m a = 0) (hmapping : installed.mapping ≠ 0)
    (himages : ∀ object ∈ tlsModules state'.objects,
      Span.Apart ⟨object.tlsImage, object.tlsFilesz⟩ installed.mappingSpan) :
    (∀ object ∈ tlsModules state'.objects, (object.under installed.threadPointer).2 % object.tlsAlign =
        object.tlsImage % object.tlsAlign) ∧
    (installed.parts ownershipPrefix state'.objects).Pairwise Span.Apart ∧
    (∀ part ∈ installed.parts ownershipPrefix state'.objects, part.Inside installed.mappingSpan) ∧
    (∀ object ∈ tlsModules state'.objects, ∀ i, i < object.tlsMemsz →
      m' ((object.under installed.threadPointer).2 + i) =
        if i < object.tlsFilesz then m (object.tlsImage + i) else 0) ∧
    (∀ scope requestor symbol addend tpoff,
      tlsWordValue scope state'.objects requestor .tpoff64 symbol addend = some tpoff → ∃ moduleId offset,
          tlsWordValue scope state'.objects requestor .dtpmod64 symbol 0 = some moduleId ∧
          tlsWordValue scope state'.objects requestor .dtpoff64 symbol addend = some offset ∧
          tlsGetAddr m' installed.threadPointer moduleId offset =
            some ((installed.threadPointer + tpoff) % 2 ^ 64)) := by
  have hstacked := planInitialTls_stacked hplan
  have hm := materialized_of_eq_some hmaterialized
  refine ⟨fun object hobject => under_phase hstacked hlayout hm hobject,
    parts_apart hstacked hlayout hm, parts_inside hstacked hlayout hm,
    fun object hobject i hi => under_contents hstacked hlayout hm himages hzero hobject hi,
    fun scope requestor symbol addend tpoff h => ?_⟩
  obtain ⟨module, hmodule, offset, hoffset, hdtpmod, hdtpoff, rfl⟩ := tlsWordValue_spec h
  refine ⟨module.tlsModuleId, offset, hdtpmod, hdtpoff, ?_⟩
  rw [tlsGetAddr_under hstacked hlayout hm himages hzero hmapping hmodule hoffset]
  -- both are the base of the block and the offset
  obtain ⟨-, hbase, hmemsz⟩ := under_block hstacked hlayout hm module hmodule
  have hsame : (module.under installed.threadPointer).block.base = (module.under installed.threadPointer).2 := rfl
  have hend := hm.below
  have hbounded := hm.bounded
  congr 1
  omega

/-- A main image with 16 bytes of TLS and a library with 40 bytes at phase 4. -/
def twoModuleState : InitialTlsState where
  phase := .discovery
  loaderPhase := .discovering
  lifecycleAttached := false
  initialTlsAttached := false
  graph := (runCalls ⟨1, 1⟩ [] [.admitMapped ⟨1, 2⟩, .attachNeeded 0 1, .finishDiscovery 1, .finishDiscovery 0]).graph
  objects := [⟨0x1000, 2, 16, 8, 0, 0⟩, ⟨0x2004, 3, 40, 16, 0, 0⟩]
  registry := .new
  tabled := rfl

theorem initialTls_twoModules : ∃ state' layout installed m', planInitialTls twoModuleState [] = .ok (true, state') ∧
      initialTlsBlockLayout state'.objects 48 = some layout ∧
      materializeTlsInLayout state'.objects 48 layout none 0x7000
        (fun a => if a < 0x3000 then 0x5a else 0) = some (installed, m') ∧
      (installed.parts 48 state'.objects).Pairwise Span.Apart := by
  obtain ⟨state', hplan, hobjects⟩ : ∃ state', planInitialTls twoModuleState [] = .ok (true, state') ∧
        state'.objects = [⟨0x1000, 2, 16, 8, 16, 1⟩, ⟨0x2004, 3, 40, 16, 60, 2⟩] := by
    have h : (planInitialTls twoModuleState []).toOption.map (fun r => (r.1, r.2.objects)) =
        some (true, [⟨0x1000, 2, 16, 8, 16, 1⟩, ⟨0x2004, 3, 40, 16, 60, 2⟩]) := by
      decide +kernel
    cases hrun : planInitialTls twoModuleState [] with
    | error e =>
      rw [hrun] at h
      cases h
    | ok result =>
      rw [hrun] at h
      obtain ⟨htls, hobjects⟩ := Prod.mk.inj (Option.some.inj h)
      exact ⟨result.2, by rw [← htls], hobjects⟩
  have hlayout : initialTlsBlockLayout state'.objects 48 = some ⟨60, 16, 2, 3, 4096⟩ := by
    rw [hobjects]
    decide +kernel
  obtain ⟨m', hmaterialized⟩ : ∃ m', materializeTlsInLayout state'.objects 48 ⟨60, 16, 2, 3, 4096⟩
      none 0x7000 (fun a => if a < 0x3000 then 0x5a else 0) = some (⟨0x7000, 4096, 32656, 32720, 3, 2⟩, m') := by
    have h : (materializeTlsInLayout state'.objects 48 ⟨60, 16, 2, 3, 4096⟩ none 0x7000
        (fun a => if a < 0x3000 then 0x5a else 0)).map Prod.fst = some ⟨0x7000, 4096, 32656, 32720, 3, 2⟩ := by
      rw [hobjects]
      decide +kernel
    obtain ⟨⟨installed, m'⟩, hsome, rfl⟩ := Option.map_eq_some_iff.mp h
    exact ⟨m', hsome⟩
  refine ⟨state', _, _, m', hplan, hlayout, hmaterialized,
    (initialTls_materialized hplan hlayout hmaterialized (fun a ha => if_neg ?_) (by decide)
      fun object hobject => ?_).2.1⟩
  · change 0x7000 ≤ a ∧ a < 0x7000 + 4096 at ha
    omega
  · -- the images are below the mapping
    have hmem := (mem_tlsModules.mp hobject).1
    rw [hobjects] at hmem
    simp only [List.mem_cons, List.not_mem_nil, or_false] at hmem
    apply apart_of_le
    rcases hmem with rfl | rfl <;> decide

end Crabc.Ldso
