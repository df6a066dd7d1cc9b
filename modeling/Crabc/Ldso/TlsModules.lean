/-
  Crabc.Ldso.TlsModules

  Modules written to blocks and tables, one after the other.  Both the initial block of
  a thread and every later generation are made this way: where the blocks are apart from
  one another and from the tables, every module ends up with its image in its block and
  its entries in the tables, and nothing else is written.
-/

import Crabc.Ldso.TlsView

namespace Crabc.Ldso

open Crabc.Lib ByteMemory

/-- A module and where its block goes. -/
abbrev PlacedModule := TlsObject × Nat

namespace PlacedModule

/-- The block. -/
def block (w : PlacedModule) : Span := ⟨w.2, w.1.tlsMemsz⟩

/-- The image. -/
def image (w : PlacedModule) : Span := ⟨w.1.tlsImage, w.1.tlsFilesz⟩

end PlacedModule

/-- The writes of all modules, in order. -/
def writeModules (dtv sizes : Nat) : List PlacedModule → ByteMemory → ByteMemory
  | [], m => m
  | w :: ws, m => writeModules dtv sizes ws (writeModule dtv sizes w.1 w.2 m)

/-- A slot of a table as a span. -/
def slotSpan (table id : Nat) : Span := ⟨tableSlot table id, 8⟩

open Span

variable {a b : Nat}

theorem word_apart (h : a + 8 ≤ b ∨ b + 8 ≤ a) : Span.Apart ⟨a, 8⟩ ⟨b, 8⟩ :=
  h.elim (fun h => apart_of_le h) fun h => (apart_of_le h).symm

/-- A word beside the one that is written. -/
theorem word_setWord_other {w : Nat} {m : ByteMemory} (h : a + 8 ≤ b ∨ b + 8 ≤ a) : (m.setWord b w).word a = m.word a :=
  (frame_setWord m b w).word (word_apart h)

theorem slotSpan_apart {table table' id id' words : Nat} (h : table + 8 * words ≤ table')
    (hid : id < words) : (slotSpan table id).Apart (slotSpan table' id') := by
  apply apart_of_le
  simp only [slotSpan, tableSlot]
  omega

theorem slotSpan_apart_ne {table id id' : Nat} (h : id ≠ id') : (slotSpan table id).Apart (slotSpan table id') := by
  intro a ha ha'
  simp only [slotSpan, tableSlot, mem_mk] at ha ha'
  omega

/-- The tables and the blocks are in one region, apart from each other and from the images. -/
structure WellPlaced (region : Span) (dtv sizes words : Nat) (ws : List PlacedModule) :
    Prop where
  tables : dtv + 8 * words ≤ sizes
  tables_inside : region.base ≤ dtv ∧ sizes + 8 * words ≤ region.base + region.length
  inside : ∀ w ∈ ws, w.block.Inside region
  off_tables : ∀ w ∈ ws, ∀ a ∈ w.block, a < dtv ∨ sizes + 8 * words ≤ a
  ids : ∀ w ∈ ws, w.1.tlsModuleId < words
  images : ∀ w ∈ ws, w.image.Apart region
  filesz_le : ∀ w ∈ ws, w.1.tlsFilesz ≤ w.1.tlsMemsz
  bounded : ∀ w ∈ ws, w.2 < 2 ^ 64 ∧ w.1.tlsMemsz < 2 ^ 64
  apart : ws.Pairwise fun a b => a.block.Apart b.block ∧ a.1.tlsModuleId ≠ b.1.tlsModuleId

/-- What writing a module leaves alone. -/
def Untouched (dtv sizes : Nat) (w : PlacedModule) (a : Nat) : Prop :=
  a ∉ w.block ∧ a ∉ slotSpan dtv w.1.tlsModuleId ∧ a ∉ slotSpan sizes w.1.tlsModuleId

open List

section

variable {region : Span} {dtv sizes words : Nat} {w : PlacedModule} {ws : List PlacedModule}

theorem WellPlaced.tail (h : WellPlaced region dtv sizes words (w :: ws)) : WellPlaced region dtv sizes words ws where
  tables := h.tables
  tables_inside := h.tables_inside
  inside := fun w hw => h.inside w (mem_cons_of_mem _ hw)
  off_tables := fun w hw => h.off_tables w (mem_cons_of_mem _ hw)
  ids := fun w hw => h.ids w (mem_cons_of_mem _ hw)
  images := fun w hw => h.images w (mem_cons_of_mem _ hw)
  filesz_le := fun w hw => h.filesz_le w (mem_cons_of_mem _ hw)
  bounded := fun w hw => h.bounded w (mem_cons_of_mem _ hw)
  apart := (pairwise_cons.mp h.apart).2

variable {id : Nat}

/-- A slot of either table is no part of a block. -/
theorem WellPlaced.slot_apart (h : WellPlaced region dtv sizes words ws) (hw : w ∈ ws) (hid : id < words)
    (ha : a ∈ w.block) : a ∉ slotSpan dtv id ∧ a ∉ slotSpan sizes id := by
  have htables := h.tables
  have hoff := h.off_tables w hw a ha
  simp only [slotSpan, tableSlot, mem_mk]
  omega

/-- The slots of the tables are in the region. -/
theorem WellPlaced.slot_inside (h : WellPlaced region dtv sizes words ws)
    (hid : id < words) (ha : a ∈ slotSpan dtv id ∨ a ∈ slotSpan sizes id) :
    a ∈ region := by
  have htables := h.tables
  have hinside := h.tables_inside
  simp only [slotSpan, tableSlot, mem_mk] at ha
  rw [mem_iff]
  omega

variable (m : ByteMemory)

theorem writeModule_untouched (hfilesz : w.1.tlsFilesz ≤ w.1.tlsMemsz) (ha : Untouched dtv sizes w a) :
    writeModule dtv sizes w.1 w.2 m a = m a := by
  obtain ⟨hblock, hdtv, hsizes⟩ := ha
  have hfile : a ∉ mk w.2 w.1.tlsFilesz := by
    intro hmem
    apply hblock
    rw [mem_mk] at hmem
    rw [PlacedModule.block, mem_mk]
    omega
  rw [writeModule, frame_setWord _ _ _ a hsizes, frame_setWord _ _ _ a hdtv]
  split
  · exact frame_copy a hfile
  · rfl

/-- The entry that a module gets in the DTV. -/
theorem writeModule_entry (htables : dtv + 8 * words ≤ sizes) {module : TlsObject}
    (hid : module.tlsModuleId < words) {start : Nat} (hstart : start < 2 ^ 64) :
    (writeModule dtv sizes module start m).word (tableSlot dtv module.tlsModuleId) = start := by
  have hslots : (slotSpan dtv module.tlsModuleId).Apart (slotSpan sizes module.tlsModuleId) :=
    slotSpan_apart htables hid
  rw [writeModule, (frame_setWord _ _ _).word hslots]
  exact word_setWord hstart

section

variable (h : WellPlaced region dtv sizes words (w :: ws))
include h

/-- The block holds the image, and what it held behind it. -/
theorem writeModule_block {i : Nat} (hi : i < w.1.tlsMemsz) : writeModule dtv sizes w.1 w.2 m (w.2 + i) =
      if i < w.1.tlsFilesz then m (w.1.tlsImage + i) else m (w.2 + i) := by
  have hmem : w.2 + i ∈ w.block := add_mem hi
  obtain ⟨hdtv, hsizes⟩ := h.slot_apart mem_cons_self (h.ids w mem_cons_self) hmem
  rw [writeModule, frame_setWord _ _ _ _ hsizes, frame_setWord _ _ _ _ hdtv]
  by_cases hfile : i < w.1.tlsFilesz
  · rw [if_pos (by omega), if_pos hfile, copy, if_pos (add_mem hfile), Nat.add_sub_cancel_left]
  · split
    · apply frame_copy
      rw [mem_mk]
      omega
    · rfl

theorem writeModule_dtv : (writeModule dtv sizes w.1 w.2 m).word (tableSlot dtv w.1.tlsModuleId) = w.2 :=
  writeModule_entry m h.tables (h.ids w mem_cons_self) (h.bounded w mem_cons_self).1

theorem writeModule_sizes : (writeModule dtv sizes w.1 w.2 m).word (tableSlot sizes w.1.tlsModuleId) = w.1.tlsMemsz :=
  word_setWord (h.bounded w mem_cons_self).2

end

section

variable (h : WellPlaced region dtv sizes words ws)
include h

/-- Nothing but blocks and slots is written. -/
theorem writeModules_untouched (ha : ∀ w ∈ ws, Untouched dtv sizes w a) : writeModules dtv sizes ws m a = m a := by
  induction ws generalizing m with
  | nil => rfl
  | cons w ws ih =>
    rw [writeModules, ih _ h.tail fun w hw => ha w (mem_cons_of_mem _ hw)]
    exact writeModule_untouched m (h.filesz_le w mem_cons_self) (ha w mem_cons_self)

/-- A word that no write meets. -/
theorem writeModules_word (ha : ∀ w ∈ ws, ∀ i, i < 8 → Untouched dtv sizes w (a + i)) :
    (writeModules dtv sizes ws m).word a = m.word a :=
  number_congr fun i hi => writeModules_untouched m h fun w hw => ha w hw i hi

/-- **The writes.**  Every module has its image and the old bytes behind it in its block,
    and its entries in the tables. -/
theorem writeModules_spec (hw : w ∈ ws) : (∀ i, i < w.1.tlsMemsz → writeModules dtv sizes ws m (w.2 + i) =
      if i < w.1.tlsFilesz then m (w.1.tlsImage + i) else m (w.2 + i)) ∧
    (writeModules dtv sizes ws m).word (tableSlot dtv w.1.tlsModuleId) = w.2 ∧
    (writeModules dtv sizes ws m).word (tableSlot sizes w.1.tlsModuleId) = w.1.tlsMemsz := by
  induction ws generalizing m with
  | nil => exact absurd hw not_mem_nil
  | cons head ws ih =>
    obtain ⟨hhead, _⟩ := pairwise_cons.mp h.apart
    have hids := h.ids head mem_cons_self
    rw [writeModules]
    rcases mem_cons.mp hw with rfl | hw
    · -- the later writes leave this module alone
      refine ⟨fun i hi => ?_, ?_, ?_⟩
      · rw [← writeModule_block m h hi]
        refine writeModules_untouched _ h.tail fun w' hw' => ?_
        exact ⟨(hhead w' hw').1 _ (add_mem hi), h.slot_apart mem_cons_self (h.tail.ids w' hw') (add_mem hi)⟩
      · refine (writeModules_word _ h.tail fun w' hw' i hi => ?_).trans (writeModule_dtv m h)
        have hmem : tableSlot dtv w.1.tlsModuleId + i ∈ slotSpan dtv w.1.tlsModuleId :=
          add_mem hi
        exact ⟨fun hblock => (h.tail.slot_apart hw' hids hblock).1 hmem,
          slotSpan_apart_ne (hhead w' hw').2 _ hmem, slotSpan_apart h.tables hids _ hmem⟩
      · refine (writeModules_word _ h.tail fun w' hw' i hi => ?_).trans (writeModule_sizes m h)
        have hmem : tableSlot sizes w.1.tlsModuleId + i ∈ slotSpan sizes w.1.tlsModuleId :=
          add_mem hi
        exact ⟨fun hblock => (h.tail.slot_apart hw' hids hblock).2 hmem,
          (slotSpan_apart h.tables (h.tail.ids w' hw')).symm _ hmem,
          slotSpan_apart_ne (hhead w' hw').2 _ hmem⟩
    · -- the write of the head leaves the image and the block of this module alone
      have huntouched (a : Nat) (ha : a ∉ region ∨ a ∈ w.block) : Untouched dtv sizes head a := by
        rcases ha with ha | ha
        · exact ⟨fun hblock => ha ((h.inside head mem_cons_self).mem hblock),
            fun hslot => ha (h.slot_inside hids (.inl hslot)),
            fun hslot => ha (h.slot_inside hids (.inr hslot))⟩
        · exact ⟨(hhead w hw).1.symm _ ha, h.tail.slot_apart hw hids ha⟩
      have hsame (a : Nat) (ha : a ∉ region ∨ a ∈ w.block) :
          writeModule dtv sizes head.1 head.2 m a = m a :=
        writeModule_untouched m (h.filesz_le head mem_cons_self) (huntouched a ha)
      obtain ⟨hbytes, hwords⟩ := ih (writeModule dtv sizes head.1 head.2 m) h.tail hw
      refine ⟨fun i hi => ?_, hwords⟩
      rw [hbytes i hi]
      split
      case isTrue hfile => exact hsame _ (.inl (h.tail.images w hw _ (add_mem hfile)))
      case isFalse => exact hsame _ (.inr (add_mem hi))

end

end

end Crabc.Ldso
