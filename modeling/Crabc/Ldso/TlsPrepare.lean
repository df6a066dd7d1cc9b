/-
  Crabc.Ldso.TlsPrepare

  What `PreparedTlsView::prepare` makes of the block it gets.

  The view starts with its header and its two tables.  The entries of the modules that
  the thread has already are copied, and the new modules are carved out of the rest of
  the block, one behind the other.  All writes stay in the block.
-/

import Crabc.Ldso.TlsModules

namespace Crabc.Ldso

open Crabc.Lib ByteMemory RuntimeTlsView Usize ByteMemory.Frame

/-! ## The request -/

/-- A module with an image that a block can take. -/
structure TlsObject.Valid (module : TlsObject) : Prop where
  memsz_ne : module.tlsMemsz ≠ 0
  memsz_lt : module.tlsMemsz < 2 ^ 64
  filesz_le : module.tlsFilesz ≤ module.tlsMemsz
  aligned : module.tlsAlign.isPowerOfTwo
  align_lt : module.tlsAlign < 2 ^ 64

/-- The modules that the thread does not have yet. -/
def newModules (oldCount : Nat) (modules : List TlsObject) : List TlsObject :=
  modules.filter (oldCount < ·.tlsModuleId)

open List

variable {modules : List TlsObject}

variable {oldCount : Nat} {module : TlsObject}

theorem newModules_skip (h : module.tlsModuleId ≤ oldCount) :
    newModules oldCount (module :: modules) = newModules oldCount modules :=
  filter_cons_of_neg (by simpa using h)

theorem newModules_take (h : oldCount < module.tlsModuleId) :
    newModules oldCount (module :: modules) = module :: newModules oldCount modules :=
  filter_cons_of_pos (by simpa using h)

theorem mem_newModules :
    module ∈ newModules oldCount modules ↔ module ∈ modules ∧ oldCount < module.tlsModuleId := by
  rw [newModules, mem_filter, decide_eq_true_iff]

open Nat

/-- The first pass. -/
theorem populationOf_spec {count bytes : Nat} {population : Nat × Nat}
    (h : populationOf oldCount modules (count, bytes) = some population) :
    count ≤ population.1 ∧ (∀ module ∈ modules, module.tlsModuleId ≤ population.1) ∧
      ∀ module ∈ newModules oldCount modules, module.Valid := by
  induction modules generalizing count bytes with
  | nil =>
    cases h
    exact ⟨le_refl _, nofun, nofun⟩
  | cons module modules ih =>
    rw [populationOf] at h
    split at h
    case isTrue hold =>
      obtain ⟨hcount, hids, hvalid⟩ := ih h
      rw [newModules_skip hold]
      exact ⟨by omega, forall_mem_cons.mpr ⟨by omega, hids⟩, hvalid⟩
    case isFalse hnew =>
    split at h
    case isTrue => cases h
    case isFalse hchecked =>
    push Not at hchecked
    simp only [Option.bind_eq_bind, Option.bind_eq_some_iff, checkedAdd_eq_some] at h
    obtain ⟨slack, ⟨hslack, rfl⟩, _, ⟨hbytes, rfl⟩, h⟩ := h
    obtain ⟨hcount, hids, hvalid⟩ := ih h
    rw [newModules_take (by omega)]
    exact ⟨by omega, forall_mem_cons.mpr ⟨by omega, hids⟩, forall_mem_cons.mpr
      ⟨⟨hchecked.1, by omega, hchecked.2.1, hchecked.2.2.1, by omega⟩, hvalid⟩⟩

/-- What a request is made of. -/
structure Requested (m : ByteMemory) (tp : Nat) (modules : List TlsObject)
    (request : ViewRequest) : Prop where
  tp_ne : tp ≠ 0
  previous : request.previous = currentView m tp
  old : oldTables m tp = some request.old
  oldCount_le : request.old.count ≤ request.count
  tableBytes : request.tableBytes = 8 * (request.count + 1)
  bytes : viewHeaderBytes + 16 * (request.count + 1) ≤ request.bytes
  bytes_lt : request.bytes < 2 ^ 63
  ids : ∀ module ∈ modules, module.tlsModuleId ≤ request.count
  valid : ∀ module ∈ newModules request.old.count modules, module.Valid

theorem viewRequest_eq_some {m : ByteMemory} {tp : Nat}
    {request : ViewRequest} (h : viewRequest m tp modules = some request) :
    Requested m tp modules request := by
  rw [viewRequest] at h
  split at h
  case isTrue => cases h
  case isFalse htp =>
  simp only [Option.bind_eq_bind, Option.bind_eq_some_iff] at h
  obtain ⟨old, hold, ⟨count, imageBytes⟩, hpopulation, h⟩ := h
  split at h
  case isTrue => cases h
  case isFalse hcount =>
  simp only [Option.bind_eq_some_iff, checkedAdd_eq_some, checkedMul_eq_some] at h
  obtain ⟨_, ⟨-, rfl⟩, _, ⟨-, rfl⟩, _, ⟨-, rfl⟩, _, ⟨-, rfl⟩, _, ⟨-, rfl⟩, h⟩ := h
  split at h
  case isTrue => cases h
  case isFalse hbytes =>
  cases h
  obtain ⟨-, hids, hvalid⟩ := populationOf_spec hpopulation
  refine ⟨fun h => htp (.inl h), rfl, hold, ?_, ?_, ?_, ?_, hids, hvalid⟩ <;>
    · dsimp only
      omega

/-! ## The images -/

/-- The blocks of the modules from `cursor` on, one behind the other, up to `limit`. -/
def Carved (limit : Nat) : Nat → List PlacedModule → Prop
  | _, [] => True
  | cursor, w :: ws =>
    cursor ≤ w.2 ∧ w.2 + w.1.tlsMemsz ≤ limit ∧
      w.2 % w.1.tlsAlign = w.1.tlsImage % w.1.tlsAlign ∧ Carved limit (w.2 + w.1.tlsMemsz) ws

open Span

section

variable {limit cursor : Nat} {ws : List PlacedModule} (h : Carved limit cursor ws)
include h

theorem Carved.bounds : ∀ w ∈ ws, cursor ≤ w.2 ∧ w.2 + w.1.tlsMemsz ≤ limit ∧
      w.2 % w.1.tlsAlign = w.1.tlsImage % w.1.tlsAlign := by
  induction ws generalizing cursor with
  | nil => exact nofun
  | cons head ws ih =>
    obtain ⟨hcursor, hlimit, hphase, hrest⟩ := h
    intro w hw
    rcases mem_cons.mp hw with rfl | hw
    · exact ⟨hcursor, hlimit, hphase⟩
    · obtain ⟨hlow, hhigh⟩ := ih hrest w hw
      exact ⟨by omega, hhigh⟩

theorem Carved.apart : ws.Pairwise fun a b => a.block.Apart b.block := by
  induction ws generalizing cursor with
  | nil => exact .nil
  | cons w ws ih =>
    obtain ⟨_, _, _, hrest⟩ := h
    refine pairwise_cons.mpr ⟨fun w' hw' => ?_, ih hrest⟩
    exact apart_of_le (hrest.bounds w' hw').1

end

/-- Moved up by `phaseDelta` the cursor has the phase of the image. -/
theorem phaseDelta_spec {image cursor align : Nat} (haligned : align.isPowerOfTwo)
    (hlt : align < 2 ^ 64) (hcursor : cursor < 2 ^ 64) :
    (cursor + phaseDelta image cursor align) % align = image % align := by
  have hdvd : align ∣ 2 ^ 64 :=
    dvd_of_isPowerOfTwo haligned ⟨64, rfl⟩ hlt.le
  rw [phaseDelta, phase_eq_mod haligned, phase_eq_mod haligned, mod_mod_of_dvd _ hdvd, add_mod_mod]
  have hsum : cursor + (image % align + (2 ^ 64 - cursor)) = image % align + 2 ^ 64 := by omega
  rw [hsum, add_mod, mod_eq_zero_of_dvd hdvd, add_zero, mod_mod, mod_mod]

theorem carve_eq_some {limit cursor start : Nat} (hmodule : module.Valid) (hcursor : cursor < 2 ^ 64)
    (h : carve limit cursor module = some start) :
    cursor ≤ start ∧ start + module.tlsMemsz ≤ limit ∧ start % module.tlsAlign = module.tlsImage % module.tlsAlign := by
  simp only [carve, Option.bind_eq_bind, Option.bind_eq_some_iff, checkedAdd_eq_some] at h
  obtain ⟨_, ⟨-, rfl⟩, _, ⟨-, rfl⟩, h⟩ := h
  split at h
  case isTrue => cases h
  case isFalse hfits =>
    cases h
    exact ⟨le_add_right _ _, Nat.le_of_not_lt hfits, phaseDelta_spec hmodule.aligned hmodule.align_lt hcursor⟩

open PlacedModule

section

variable {dtv sizes words limit : Nat}

section

variable (htables : dtv + 8 * words ≤ sizes) (hlimit : limit < 2 ^ 64) {modules : List TlsObject}
  {cursor : Nat}
include htables hlimit

/-- **The second pass.**  Where it succeeds it has written the new modules to blocks from
    the cursor on; no two of them have one id, and their slots were empty before. -/
theorem placeModules_true {m m' : ByteMemory} (hcursor : sizes + 8 * words ≤ cursor) (hpos : 0 < cursor)
    (hlow : cursor < 2 ^ 64) (hids : ∀ module ∈ modules, module.tlsModuleId < words)
    (hvalid : ∀ module ∈ newModules oldCount modules, module.Valid)
    (h : placeModules oldCount dtv sizes limit modules cursor m = (true, m')) :
    ∃ ws : List PlacedModule, m' = writeModules dtv sizes ws m ∧
      ws.map Prod.fst = newModules oldCount modules ∧ Carved limit cursor ws ∧
      ws.Pairwise (fun a b => a.1.tlsModuleId ≠ b.1.tlsModuleId) ∧
      ∀ w ∈ ws, m.word (tableSlot dtv w.1.tlsModuleId) = 0 := by
  induction modules generalizing cursor m with
  | nil =>
    cases h
    exact ⟨[], rfl, rfl, trivial, .nil, nofun⟩
  | cons module modules ih =>
    have hids' := (forall_mem_cons.mp hids).2
    rw [placeModules] at h
    split at h
    case isTrue hold =>
      rw [newModules_skip hold] at hvalid ⊢
      exact ih hcursor hpos hlow hids' hvalid h
    case isFalse hnew =>
    rw [newModules_take (by omega)] at hvalid ⊢
    split at h
    case isTrue => cases h
    case isFalse hempty =>
    rw [Decidable.not_not] at hempty
    cases hcarve : carve limit cursor module with
    | none =>
      rw [hcarve] at h
      cases h
    | some start =>
    rw [hcarve] at h
    obtain ⟨hbehind, hfits, hphase⟩ := carve_eq_some (hvalid module mem_cons_self) hlow hcarve
    obtain ⟨ws, rfl, hws, hcarved, hdistinct, hslots⟩ := ih (by omega) (by omega) (by omega) hids'
      (forall_mem_cons.mp hvalid).2 h
    have hmodule : module.tlsModuleId < words := hids module mem_cons_self
    have hid {w : PlacedModule} (hw : w ∈ ws) : w.1.tlsModuleId < words := by
      have hmem : w.1 ∈ newModules oldCount modules := hws ▸ mem_map_of_mem hw
      exact hids' w.1 (mem_newModules.mp hmem).1
    -- the slot of the head was filled with its start, which is not zero
    have hne {w : PlacedModule} (hw : w ∈ ws) : module.tlsModuleId ≠ w.1.tlsModuleId := by
      intro heq
      have hzero := hslots w hw
      rw [← heq, writeModule_entry m htables hmodule (by omega)] at hzero
      omega
    refine ⟨(module, start) :: ws, rfl, by rw [map_cons, hws], ⟨hbehind, hfits, hphase, hcarved⟩,
      pairwise_cons.mpr ⟨fun w hw => hne hw, hdistinct⟩, fun w hw => ?_⟩
    rcases mem_cons.mp hw with rfl | hw
    · exact hempty
    · rw [← hslots w hw]
      refine (number_congr fun i hi => ?_).symm
      have hmem : tableSlot dtv w.1.tlsModuleId + i ∈ slotSpan dtv w.1.tlsModuleId :=
        add_mem hi
      refine writeModule_untouched (w := (module, start)) m (hvalid module mem_cons_self).filesz_le
        ⟨?_, slotSpan_apart_ne (hne hw).symm _ hmem, slotSpan_apart htables (hid hw) _ hmem⟩
      have hlast := hid hw
      simp only [block, slotSpan, tableSlot, mem_mk] at hmem ⊢
      omega

/-- The second pass writes to the tables and behind them, also where it fails. -/
theorem placeModules_frame {m : ByteMemory} (hcursor : sizes + 8 * words ≤ cursor) (hlow : cursor ≤ limit)
    (hids : ∀ module ∈ modules, module.tlsModuleId < words)
    (hvalid : ∀ module ∈ newModules oldCount modules, module.Valid) :
    ByteMemory.Frame ⟨dtv, limit - dtv⟩ m
      (placeModules oldCount dtv sizes limit modules cursor m).2 := by
  induction modules generalizing cursor m with
  | nil => exact .refl _ _
  | cons module modules ih =>
    have hids' := (forall_mem_cons.mp hids).2
    have hvalid' : ∀ other ∈ newModules oldCount modules, other.Valid := fun other hother => by
      obtain ⟨hmem, hnew⟩ := mem_newModules.mp hother
      exact hvalid other (mem_newModules.mpr ⟨mem_cons_of_mem _ hmem, hnew⟩)
    rw [placeModules]
    split
    case isTrue => exact ih hcursor hlow hids' hvalid'
    case isFalse hnew =>
    split
    case isTrue => exact .refl _ _
    case isFalse =>
    have hmodule := hvalid module (mem_newModules.mpr ⟨mem_cons_self, by omega⟩)
    have hid := hids module mem_cons_self
    cases hcarve : carve limit cursor module with
    | none => exact .refl _ _
    | some start =>
    obtain ⟨hbehind, hfits, -⟩ := carve_eq_some hmodule (by omega) hcarve
    refine trans (fun a ha => ?_) (ih (by omega) hfits hids' hvalid')
    refine writeModule_untouched (w := (module, start)) m hmodule.filesz_le ?_
    rw [mem_mk] at ha
    simp only [Untouched, block, slotSpan, tableSlot, mem_mk]
    omega

end

end

/-! ## The tables -/

namespace TlsTables

/-- Both tables lie in a span. -/
structure Inside (t : TlsTables) (s : Span) : Prop where
  dtv : Span.Inside ⟨t.dtv, 8 * (t.count + 1)⟩ s
  sizes : Span.Inside ⟨t.sizes, 8 * (t.count + 1)⟩ s

theorem Inside.slots {t : TlsTables} {s : Span} (h : t.Inside s) {id : Nat} (hid : id ≤ t.count) :
    (slotSpan t.dtv id).Inside s ∧ (slotSpan t.sizes id).Inside s := by
  have hdtv := h.dtv
  have hsizes := h.sizes
  simp only [Span.Inside, slotSpan, tableSlot] at *
  omega

end TlsTables

section

variable {view : RuntimeTlsView} {m : ByteMemory} {address : Nat}

theorem RuntimeTlsView.write_frame (view : RuntimeTlsView) {m : ByteMemory} :
    ByteMemory.Frame ⟨address, viewHeaderBytes⟩ m (view.write m address) :=
  (((((ByteMemory.Frame.refl _ m).setWord 0 (by decide)).setWord 8 (by decide)).setWord 16 (by decide)).setWord 24
    (by decide)).setWord 32 (by decide)

/-- The fields fit their words. -/
structure RuntimeTlsView.Fits (view : RuntimeTlsView) : Prop where
  byteLen : view.byteLen < 2 ^ 64
  previous : view.previous < 2 ^ 64
  moduleCount : view.moduleCount < 2 ^ 64
  dtv : view.dtv < 2 ^ 64
  sizes : view.sizes < 2 ^ 64

theorem RuntimeTlsView.read_write (h : view.Fits) : read (view.write m address) address = view := by
  obtain ⟨hbyteLen, hprevious, hmoduleCount, hdtv, hsizes⟩ := h
  simp (disch := omega) only [read, write, word_setWord, word_setWord_other]

theorem RuntimeTlsView.read_congr {m m' : ByteMemory} (h : ∀ a ∈ Span.mk address viewHeaderBytes, m' a = m a) :
    read m' address = read m address := by
  have hword (i : Nat) (hi : i + 8 ≤ viewHeaderBytes) :
      m'.word (address + i) = m.word (address + i) :=
    word_congr fun a ha => h a (Span.Inside.mem ⟨by simp, by dsimp only; omega⟩ ha)
  have h0 := hword 0 (by decide)
  rw [add_zero] at h0
  rw [read, read, h0, hword 8 (by decide), hword 16 (by decide), hword 24 (by decide), hword 32 (by decide)]

/-- A header outside a frame reads as before. -/
theorem RuntimeTlsView.read_frame {s : Span} {m m' : ByteMemory} (h : ByteMemory.Frame s m m')
    (hapart : Span.Apart ⟨address, viewHeaderBytes⟩ s) :
    read m' address = read m address :=
  read_congr fun a ha => h a (hapart a ha)

end

/-! ## The view -/

section

variable {m : ByteMemory} {tp : Nat} {modules : List TlsObject} {request : ViewRequest}
  {mapped : Nat}

theorem zeroed_frame (m : ByteMemory) (block : Span) : ByteMemory.Frame block m (zeroed m block) :=
  fun _ ha => if_neg ha

variable (hrequest : Requested m tp modules request)
include hrequest

/-- The geometry of the block: the header, the two tables and the rest. -/
theorem view_geometry (mapped : Nat) : (request.view mapped).dtv = mapped + viewHeaderBytes ∧
      (request.view mapped).sizes = (request.view mapped).dtv + 8 * (request.count + 1) ∧
      (request.view mapped).sizes + 8 * (request.count + 1) = mapped + viewHeaderBytes + 2 * request.tableBytes ∧
      (request.view mapped).sizes + 8 * (request.count + 1) ≤ mapped + request.bytes := by
  have htable := hrequest.tableBytes
  have hbytes := hrequest.bytes
  refine ⟨rfl, ?_, ?_, ?_⟩ <;>
    · simp only [ViewRequest.view]
      omega

/-- The entries of the old tables are copied. -/
theorem copyTables_entries (hold : ∃ s, request.old.Inside s ∧ s.Apart ⟨mapped, request.bytes⟩)
    {id : Nat} (hpos : 0 < id) (hid : id ≤ request.old.count) :
    (copyTables (zeroed m ⟨mapped, request.bytes⟩) request mapped).word
        (tableSlot (request.view mapped).dtv id) = m.word (tableSlot request.old.dtv id) ∧
      (copyTables (zeroed m ⟨mapped, request.bytes⟩) request mapped).word
        (tableSlot (request.view mapped).sizes id) = m.word (tableSlot request.old.sizes id) := by
  obtain ⟨s, hinside, hapart⟩ := hold
  obtain ⟨hdtv, hsizes, hend, hlimit⟩ := view_geometry hrequest mapped
  obtain ⟨holdDtv, holdSizes⟩ := hinside.slots hid
  have hcount := hrequest.oldCount_le
  have hzeroed := zeroed_frame m ⟨mapped, request.bytes⟩
  rw [copyTables]
  generalize request.view mapped = view at *
  -- up to the copy nothing outside the block is written
  have hheader : ByteMemory.Frame ⟨mapped, request.bytes⟩ (zeroed m ⟨mapped, request.bytes⟩)
      (view.write (zeroed m ⟨mapped, request.bytes⟩) mapped) :=
    view.write_frame.mono ⟨le_refl _, by dsimp only; omega⟩
  have hcopied (m' : ByteMemory) : ByteMemory.Frame ⟨mapped, request.bytes⟩ m'
      (m'.copy request.old.dtv view.dtv (8 * (request.old.count + 1))) :=
    frame_copy.mono ⟨by dsimp only; omega, by dsimp only; omega⟩
  constructor
  · rw [word_setWord_other (by rw [tableSlot]; omega), frame_copy.word
      (apart_of_le (by simp only [tableSlot]; omega)), tableSlot,
      word_copy (by omega)]
    exact (hzeroed.trans hheader).word (hapart.inside holdDtv)
  · rw [word_setWord_other (by rw [tableSlot]; omega), tableSlot, word_copy (by omega),
      show request.old.sizes + 8 * id = tableSlot request.old.sizes id from rfl,
      (hcopied _).word (hapart.inside holdSizes)]
    exact (hzeroed.trans hheader).word (hapart.inside holdSizes)

/-- The entries of the new modules are still empty. -/
theorem copyTables_empty {id : Nat} (hnew : request.old.count < id) (hid : id ≤ request.count) :
    (copyTables (zeroed m ⟨mapped, request.bytes⟩) request mapped).word
      (tableSlot (request.view mapped).dtv id) = 0 := by
  obtain ⟨hdtv, hsizes, hend, hlimit⟩ := view_geometry hrequest mapped
  rw [copyTables]
  generalize request.view mapped = view at *
  rw [word_setWord_other (by rw [tableSlot]; omega),
    frame_copy.word (apart_of_le (by simp only [tableSlot]; omega)),
    frame_copy.word
      (apart_of_le (by simp only [tableSlot]; omega)).symm,
    view.write_frame.word (apart_of_le (by simp only [tableSlot]; omega)).symm]
  refine word_zero fun b hb => if_pos ?_
  rw [tableSlot, mem_mk] at hb
  rw [mem_mk]
  omega

variable (hmapped : mapped + request.bytes < 2 ^ 64)
include hmapped

theorem view_fits : (request.view mapped).Fits := by
  have htable := hrequest.tableBytes
  have hbytes := hrequest.bytes
  refine ⟨?_, ?_, ?_, ?_, ?_⟩
  · show request.bytes < 2 ^ 64
    omega
  · show request.previous < 2 ^ 64
    rw [hrequest.previous]
    exact word_lt
  · show request.count < 2 ^ 64
    omega
  · show mapped + viewHeaderBytes < 2 ^ 64
    omega
  · show mapped + (viewHeaderBytes + request.tableBytes) < 2 ^ 64
    omega

/-- The header and the tables. -/
theorem copyTables_spec (m' : ByteMemory) : read (copyTables m' request mapped) mapped = request.view mapped ∧
      ByteMemory.Frame ⟨mapped, viewHeaderBytes + 2 * request.tableBytes⟩ m'
        (copyTables m' request mapped) := by
  obtain ⟨hdtv, hsizes, hend, -⟩ := view_geometry hrequest mapped
  have hold := hrequest.oldCount_le
  generalize hview : request.view mapped = view at *
  have hfits : view.Fits := hview ▸ view_fits hrequest hmapped
  -- behind the header only the tables are written
  have htables (m₁ : ByteMemory) : ByteMemory.Frame
      ⟨mapped + viewHeaderBytes, 2 * request.tableBytes⟩ m₁
      (((m₁.copy request.old.dtv view.dtv (8 * (request.old.count + 1))).copy request.old.sizes
        view.sizes (8 * (request.old.count + 1))).setWord view.dtv request.count) := by
    refine ((frame_copy.mono ⟨?_, ?_⟩).trans
      (frame_copy.mono ⟨?_, ?_⟩)).trans
      ((frame_setWord _ _ _).mono ⟨?_, ?_⟩) <;>
      · dsimp only
        omega
  rw [copyTables, hview]
  constructor
  · rw [read_frame (htables _) (apart_of_le (by dsimp only; omega))]
    exact read_write hfits
  · refine (view.write_frame.mono ⟨?_, ?_⟩).trans ((htables _).mono ⟨?_, ?_⟩) <;>
      · dsimp only
        omega

/-- A view that is not complete has its header too, and nothing outside the block is written. -/
theorem buildView_frame (m' : ByteMemory) : read (buildView m' modules request mapped).2 mapped = request.view mapped ∧
      ByteMemory.Frame ⟨mapped, request.bytes⟩ m' (buildView m' modules request mapped).2 := by
  obtain ⟨hdtv, hsizes, hend, hlimit⟩ := view_geometry hrequest mapped
  obtain ⟨hread, htables⟩ := copyTables_spec hrequest hmapped m'
  rw [buildView]
  generalize request.view mapped = view at *
  have hplaced := @placeModules_frame request.old.count view.dtv view.sizes (request.count + 1)
    (mapped + request.bytes) (le_of_eq hsizes.symm) hmapped modules
    (mapped + viewHeaderBytes + 2 * request.tableBytes) (copyTables m' request mapped)
    hend.le (by omega)
    (fun module hmodule => lt_succ_of_le (hrequest.ids module hmodule)) hrequest.valid
  constructor
  · rw [read_frame hplaced (apart_of_le (le_of_eq hdtv.symm))]
    exact hread
  · refine trans (htables.mono ⟨?_, ?_⟩) (hplaced.mono ⟨?_, ?_⟩) <;>
      · dsimp only
        omega

/-- What a complete view is: `ws` are its own modules and their blocks. -/
structure ViewBuilt (m : ByteMemory) (modules : List TlsObject) (request : ViewRequest)
    (mapped : Nat) (m' : ByteMemory) (ws : List PlacedModule) : Prop where
  frame : ByteMemory.Frame ⟨mapped, request.bytes⟩ m m'
  header : read m' mapped = request.view mapped
  modules : ws.map Prod.fst = newModules request.old.count modules
  placed : WellPlaced ⟨mapped, request.bytes⟩ (request.view mapped).dtv (request.view mapped).sizes
    (request.count + 1) ws
  carved : Carved (mapped + request.bytes)
    ((request.view mapped).sizes + 8 * (request.count + 1)) ws
  old : ∀ id, 0 < id → id ≤ request.old.count →
    m'.word (tableSlot (request.view mapped).dtv id) = m.word (tableSlot request.old.dtv id) ∧
      m'.word (tableSlot (request.view mapped).sizes id) = m.word (tableSlot request.old.sizes id)
  contents : ∀ w ∈ ws, ∀ i, i < w.1.tlsMemsz → m' (w.2 + i) = if i < w.1.tlsFilesz then m (w.1.tlsImage + i) else 0
  entries : ∀ w ∈ ws, m'.word (tableSlot (request.view mapped).dtv w.1.tlsModuleId) = w.2 ∧
    m'.word (tableSlot (request.view mapped).sizes w.1.tlsModuleId) = w.1.tlsMemsz
  complete : ∀ id, request.old.count < id → id ≤ request.count → ∃ w ∈ ws, w.1.tlsModuleId = id

/-- **The view.**  Where `prepare` succeeds the view is complete. -/
theorem buildView_true (hold : ∃ s, request.old.Inside s ∧ s.Apart ⟨mapped, request.bytes⟩)
    (himages : ∀ module ∈ newModules request.old.count modules,
      Span.Apart ⟨module.tlsImage, module.tlsFilesz⟩ ⟨mapped, request.bytes⟩) {m' : ByteMemory}
    (h : buildView (zeroed m ⟨mapped, request.bytes⟩) modules request mapped = (true, m')) :
    ∃ ws, ViewBuilt m modules request mapped m' ws := by
  obtain ⟨hdtv, hsizes, hend, hlimit⟩ := view_geometry hrequest mapped
  obtain ⟨hread, htables⟩ := copyTables_spec hrequest hmapped (zeroed m ⟨mapped, request.bytes⟩)
  have hcopied := @copyTables_entries m tp modules request mapped hrequest hold
  have hempty := @copyTables_empty m tp modules request mapped hrequest
  have hzeroed := zeroed_frame m ⟨mapped, request.bytes⟩
  have hinside : Span.Inside ⟨mapped, viewHeaderBytes + 2 * request.tableBytes⟩
      ⟨mapped, request.bytes⟩ := ⟨le_refl _, by dsimp only; omega⟩
  -- behind the tables the block is still zero
  have hrest (a : Nat) (ha : mapped + viewHeaderBytes + 2 * request.tableBytes ≤ a)
      (ha' : a < mapped + request.bytes) :
      copyTables (zeroed m ⟨mapped, request.bytes⟩) request mapped a = 0 := by
    rw [htables a (by rw [mem_mk]; omega), zeroed, if_pos (mem_mk.mpr ⟨by omega, ha'⟩)]
  simp only [buildView, Prod.mk.injEq, Bool.and_eq_true, all_eq_true, mem_range, decide_eq_true_eq] at h
  obtain ⟨⟨hplaced, hcomplete⟩, hm'⟩ := h
  rw [hm'] at hcomplete
  generalize hview : request.view mapped = view at *
  generalize copyTables (zeroed m ⟨mapped, request.bytes⟩) request mapped = m₁ at *
  obtain ⟨ws, hws, hmodules, hcarved, hdistinct, -⟩ := placeModules_true
    (le_of_eq hsizes.symm) hmapped hend.le (by omega) (by omega)
    (fun module hmodule => lt_succ_of_le (hrequest.ids module hmodule)) hrequest.valid
    (Prod.ext hplaced hm')
  rw [← hend] at hcarved hrest
  have hmem {w : PlacedModule} (hw : w ∈ ws) : w.1 ∈ newModules request.old.count modules :=
    hmodules ▸ mem_map_of_mem hw
  have hwell : WellPlaced ⟨mapped, request.bytes⟩ view.dtv view.sizes (request.count + 1) ws := by
    refine ⟨le_of_eq hsizes.symm, ⟨?_, ?_⟩, fun w hw => ?_, fun w hw a ha => ?_, fun w hw => ?_,
      fun w hw => himages w.1 (hmem hw), fun w hw => (hrequest.valid w.1 (hmem hw)).filesz_le,
      fun w hw => ⟨?_, (hrequest.valid w.1 (hmem hw)).memsz_lt⟩, hcarved.apart.and hdistinct⟩
    · dsimp only
      omega
    · exact hlimit
    · obtain ⟨hlow, hhigh, -⟩ := hcarved.bounds w hw
      exact ⟨by simp only [block]; omega, by simpa only [block] using hhigh⟩
    · obtain ⟨hlow, -, -⟩ := hcarved.bounds w hw
      rw [block, mem_mk] at ha
      omega
    · exact lt_succ_of_le (hrequest.ids w.1 (mem_newModules.mp (hmem hw)).1)
    · obtain ⟨-, hhigh, -⟩ := hcarved.bounds w hw
      omega
  -- the header and the old entries stand where no module is written
  have hkept {a : Nat} (ha : a + 8 ≤ view.dtv ∨
      ∃ id, 0 < id ∧ id ≤ request.old.count ∧ (a = tableSlot view.dtv id ∨ a = tableSlot view.sizes id)) :
      m'.word a = m₁.word a := by
    rw [hws]
    refine writeModules_word m₁ hwell fun w hw i hi => ?_
    have hnew := (mem_newModules.mp (hmem hw)).2
    have hlast := hwell.ids w hw
    obtain ⟨hlow, -, -⟩ := hcarved.bounds w hw
    simp only [Untouched, block, slotSpan, tableSlot, mem_mk] at ha ⊢
    rcases ha with ha | ⟨id, hpos, hid, rfl | rfl⟩ <;> omega
  have hframe : ByteMemory.Frame ⟨mapped, request.bytes⟩ m m' := by
    intro a ha
    rw [hws, writeModules_untouched m₁ hwell fun w hw => ?_]
    · exact (hzeroed.trans (htables.mono hinside)) a ha
    · have hid := hwell.ids w hw
      exact ⟨fun hblock => ha ((hwell.inside w hw).mem hblock),
        fun hslot => ha (hwell.slot_inside hid (.inl hslot)),
        fun hslot => ha (hwell.slot_inside hid (.inr hslot))⟩
  have hheader : RuntimeTlsView.read m' mapped = view := by
    have hbytes : viewHeaderBytes = 40 := rfl
    rw [← hread]
    simp only [RuntimeTlsView.read]
    rw [hkept (.inl (by omega)), hkept (.inl (by omega)), hkept (.inl (by omega)),
      hkept (.inl (by omega)), hkept (.inl (by omega))]
  subst hview
  refine ⟨ws, hframe, hheader, hmodules, hwell, hcarved, fun id hpos hid => ?_, fun w hw i hi => ?_,
    fun w hw => ?_, fun id hnew hid => ?_⟩
  · rw [hkept (.inr ⟨id, hpos, hid, .inl rfl⟩), hkept (.inr ⟨id, hpos, hid, .inr rfl⟩)]
    exact hcopied hpos hid
  · obtain ⟨hlow, hhigh, -⟩ := hcarved.bounds w hw
    rw [hws, (writeModules_spec m₁ hwell hw).1 i hi, hrest (w.2 + i) (by omega) (by omega)]
    split
    case isTrue hfile =>
      exact (hzeroed.trans (htables.mono hinside)) _ (hwell.images w hw _ (add_mem hfile))
    case isFalse => rfl
  · rw [hws]
    exact (writeModules_spec m₁ hwell hw).2
  · -- an entry that no module wrote would be empty
    by_contra hnone
    push Not at hnone
    have hfilled := (hcomplete (id - 1) (by omega)).1
    rw [Nat.sub_add_cancel (by omega), hws, writeModules_word m₁ hwell fun w hw i hi => ?_] at hfilled
    · exact hfilled (hempty hnew hid)
    · have hne := hnone w hw
      obtain ⟨hlow, -, -⟩ := hcarved.bounds w hw
      simp only [Untouched, block, slotSpan, tableSlot, mem_mk]
      omega

end

end Crabc.Ldso
