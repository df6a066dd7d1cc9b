/-
  Crabc.Ldso.TlsGenerations

  The generations of one thread over a whole run of `prepare`, `publish` and `drop`.

  The state has the memory and, next to it, the generations that are not given back: the
  prepared ones and the published ones, the newest first.  A block that `allocate` hands
  out meets no block that is still in use and no image it is to be filled from.  Between
  the operations the program may write anything but the words that belong to the loader:
  three words of the TCB, and the headers and tables of the generations.

  Every word that `resolve` reads belongs to one generation and is never written again,
  and every generation starts with the entries of the one before it.
-/

import Crabc.Ldso.InitialTlsLaws
import Crabc.Ldso.TlsPrepare

namespace Crabc.Ldso

open Crabc.Lib Relation Nat List

open RuntimeTlsView (read read_congr)

/-! ## Tables -/

variable {t old : TlsTables} {a : Nat} {m m' : ByteMemory} {g : Generation}

open ByteMemory Span

namespace TlsTables

/-- The bytes of both tables. -/
def Holds (t : TlsTables) (a : Nat) : Prop :=
  a ∈ Span.mk t.dtv (8 * (t.count + 1)) ∨ a ∈ Span.mk t.sizes (8 * (t.count + 1))

theorem Inside.mem {s : Span} (h : t.Inside s) (ha : t.Holds a) : a ∈ s :=
  ha.elim h.dtv.mem h.sizes.mem

/-- The entries of a module. -/
def entry (t : TlsTables) (m : ByteMemory) (id : Nat) : Nat × Nat :=
  (m.word (tableSlot t.dtv id), m.word (tableSlot t.sizes id))

theorem entry_congr (h : ∀ a, t.Holds a → m' a = m a) {id : Nat} (hid : id ≤ t.count) :
    t.entry m' id = t.entry m id := by
  have hdtv : m'.word (tableSlot t.dtv id) = m.word (tableSlot t.dtv id) :=
    number_congr fun i hi => h _ (.inl (by rw [tableSlot, mem_mk]; omega))
  have hsizes : m'.word (tableSlot t.sizes id) = m.word (tableSlot t.sizes id) :=
    number_congr fun i hi => h _ (.inr (by rw [tableSlot, mem_mk]; omega))
  rw [entry, entry, hdtv, hsizes]

/-- The address at an offset in a module with these entries; `none` is the null pointer. -/
def answer (entry : Nat × Nat) (offset : Nat) : Option Nat :=
  if entry.1 = 0 ∨ entry.2 = 0 ∨ offset > entry.2 then none else Usize.checkedAdd entry.1 offset

/-- What a lookup in the tables answers. -/
def lookup (t : TlsTables) (m : ByteMemory) (id offset : Nat) : Option Nat :=
  if id = 0 ∨ id > t.count then none else answer (t.entry m id) offset

/-- The tables have the entries of older ones. -/
structure Inherits (m : ByteMemory) (t old : TlsTables) : Prop where
  count_le : old.count ≤ t.count
  entry : ∀ id, 0 < id → id ≤ old.count → t.entry m id = old.entry m id

theorem Inherits.refl (m : ByteMemory) (t : TlsTables) : Inherits m t t :=
  ⟨le_refl _, fun _ _ _ => rfl⟩

theorem Inherits.trans {t' t'' : TlsTables} (h : Inherits m t t') (h' : Inherits m t' t'') : Inherits m t t'' :=
  ⟨le_trans h'.count_le h.count_le, fun id hpos hid =>
    (h.entry id hpos (le_trans hid h'.count_le)).trans (h'.entry id hpos hid)⟩

theorem Inherits.congr (h : Inherits m t old) (ht : ∀ a, t.Holds a → m' a = m a)
    (hold : ∀ a, old.Holds a → m' a = m a) : Inherits m' t old :=
  ⟨h.count_le, fun id hpos hid => by
    rw [entry_congr ht (le_trans hid h.count_le), entry_congr hold hid, h.entry id hpos hid]⟩

/-- A module of the older tables gets the same answers. -/
theorem Inherits.lookup (h : Inherits m t old) {id : Nat} (hpos : 0 < id) (hid : id ≤ old.count) (offset : Nat) :
    t.lookup m id offset = old.lookup m id offset := by
  have hcount := h.count_le
  rw [TlsTables.lookup, TlsTables.lookup, if_neg (by omega), if_neg (by omega), h.entry id hpos hid]

/-- Only the modules of a table have an address. -/
theorem lookup_eq_some {id offset address : Nat} (h : t.lookup m id offset = some address) : 0 < id ∧ id ≤ t.count := by
  rw [lookup] at h
  split at h
  case isTrue => cases h
  case isFalse hid => omega

theorem lookup_congr (h : ∀ a, t.Holds a → m' a = m a) (id offset : Nat) :
    t.lookup m' id offset = t.lookup m id offset := by
  by_cases hid : id = 0 ∨ id > t.count
  · rw [lookup, lookup, if_pos hid, if_pos hid]
  · rw [lookup, lookup, entry_congr h (by omega)]

end TlsTables

/-- The tables of a view. -/
def RuntimeTlsView.tables (view : RuntimeTlsView) : TlsTables :=
  ⟨view.dtv, view.sizes, view.moduleCount⟩

theorem resolve_eq_lookup {view : Nat} (h : view ≠ 0) {id offset : Nat} :
    resolve m view id offset = (read m view).tables.lookup m id offset := by
  rw [resolve, TlsTables.lookup]
  by_cases hid : id = 0 ∨ id > (read m view).moduleCount
  · rw [if_pos (.inr hid)]
    exact (if_pos hid).symm
  · rw [if_neg (fun hview => hid (hview.resolve_left h))]
    exact (if_neg hid).symm

/-! ## The state -/

/-- What a thread starts with: a block with its TCB and its tables. -/
structure Attachment where
  block : Span
  tables : TlsTables

/-- A generation that was not given back. -/
structure Generation where
  block : Span
  view : RuntimeTlsView
  old : TlsTables
  modules : List PlacedModule
deriving DecidableEq

namespace Generation

/-- The generation that `prepare` left in a block. -/
def of (m : ByteMemory) (old : TlsTables) (modules : List TlsObject) (block : Span) :
    Generation where
  block := block
  view := read m block.base
  old := old
  modules := (newModules old.count modules).map fun module =>
    (module, m.word (tableSlot (read m block.base).dtv module.tlsModuleId))

/-- The header, the tables and the blocks of the modules. -/
def parts (g : Generation) : List Span :=
  ⟨g.block.base, viewHeaderBytes⟩ :: ⟨g.view.dtv, 8 * (g.view.moduleCount + 1)⟩ ::
    ⟨g.view.sizes, 8 * (g.view.moduleCount + 1)⟩ :: g.modules.map PlacedModule.block

/-- The bytes of the header and the tables. -/
def Holds (g : Generation) (a : Nat) : Prop :=
  a ∈ Span.mk g.block.base viewHeaderBytes ∨ g.view.tables.Holds a

end Generation

/-- A thread with its generations, the newest first. -/
structure ThreadViews where
  memory : ByteMemory
  prepared : List Generation
  published : List Generation

namespace ThreadViews

/-- All generations. -/
def live (s : ThreadViews) : List Generation := s.prepared ++ s.published

/-- The newest published generation; zero is the null pointer. -/
def current (s : ThreadViews) : Nat := (s.published.head?.map (·.block.base)).getD 0

/-- The tables that a thread uses. -/
def tables (initial : Attachment) (s : ThreadViews) : TlsTables :=
  (s.published.head?.map (·.view.tables)).getD initial.tables

/-- The bytes that belong to the loader, apart from the pointer to the current view. -/
def Reserved (tp : Nat) (initial : Attachment) (s : ThreadViews) (a : Nat) : Prop :=
  a ∈ Span.mk (tp + 8) 16 ∨ initial.tables.Holds a ∨ ∃ g ∈ s.live, g.Holds a

end ThreadViews

/-- What is known about a block that `allocate` hands out. -/
structure FreshBlock (initial : Attachment) (s : ThreadViews) (modules : List TlsObject)
    (block : Span) : Prop where
  base_ne : block.base ≠ 0
  bounded : block.base + block.length < 2 ^ 64
  initial : initial.block.Apart block
  live : ∀ g ∈ s.live, g.block.Apart block
  images : ∀ module ∈ modules, Span.Apart ⟨module.tlsImage, module.tlsFilesz⟩ block

open Generation

/-- One operation on the thread.  A view is published while the one it was made from is
    still the current one, as `publish` asks of its caller. -/
inductive ViewStep (tp : Nat) (initial : Attachment) : ThreadViews → ThreadViews → Prop where
  | prepare {s : ThreadViews} {modules : List TlsObject} {allocation : Option Nat} {block : Span}
      {m' : ByteMemory} {old : TlsTables}
      (hview : prepareView s.memory tp modules allocation = .view block m')
      (hold : oldTables s.memory tp = some old) (hfresh : FreshBlock initial s modules block) :
      ViewStep tp initial s { s with
        memory := m', prepared := of m' old modules block :: s.prepared }
  | refuse {s : ThreadViews} {modules : List TlsObject} {allocation : Option Nat}
      (hrefused : prepareView s.memory tp modules allocation = .refused) : ViewStep tp initial s s
  | abandon {s : ThreadViews} {modules : List TlsObject} {allocation : Option Nat} {block : Span}
      {m' : ByteMemory} (hview : prepareView s.memory tp modules allocation = .abandoned block m')
      (hfresh : FreshBlock initial s modules block) (leftover : ByteMemory) :
      ViewStep tp initial s { s with memory := dropView m' block.base leftover }
  | publish {s : ThreadViews} {g : Generation} (hg : g ∈ s.prepared)
      (hcurrent : g.view.previous = currentView s.memory tp) :
      ViewStep tp initial s
        ⟨publishView s.memory tp g.block.base, s.prepared.erase g, g :: s.published⟩
  | drop {s : ThreadViews} {g : Generation} (hg : g ∈ s.prepared) (leftover : ByteMemory) :
      ViewStep tp initial s { s with
        memory := dropView s.memory g.block.base leftover, prepared := s.prepared.erase g }
  | store {s : ThreadViews} {m' : ByteMemory}
      (hreserved : ∀ a, s.Reserved tp initial a → m' a = s.memory a)
      (hcurrent : currentView m' tp = currentView s.memory tp) :
      ViewStep tp initial s { s with memory := m' }

/-! ## The invariant -/

/-- A thread with its initial attachment and no view yet. -/
structure Attached (tp : Nat) (initial : Attachment) (m : ByteMemory) : Prop where
  dtv : m.word (tp + 8) = initial.tables.dtv
  sizes : m.word (tp + tlsTcbModuleSizeTableOffset) = initial.tables.sizes
  count : m.word initial.tables.dtv = initial.tables.count
  current : currentView m tp = 0
  dtv_ne : initial.tables.dtv ≠ 0
  sizes_ne : initial.tables.sizes ≠ 0
  tcb_inside : Span.Inside ⟨tp, tlsTcbPrefixSize⟩ initial.block
  tables_inside : initial.tables.Inside initial.block
  tables_behind : tp + tlsTcbPrefixSize ≤ initial.tables.dtv ∧ tp + tlsTcbPrefixSize ≤ initial.tables.sizes

/-- The parts of a generation lie in its block, and its modules have their entries. -/
structure Generation.Placed (g : Generation) : Prop where
  base_ne : g.block.base ≠ 0
  base_lt : g.block.base < 2 ^ 64
  byteLen : g.view.byteLen = g.block.length
  apart : g.parts.Pairwise Span.Apart
  inside : ∀ part ∈ g.parts, part.Inside g.block
  ids : ∀ w ∈ g.modules, 0 < w.1.tlsModuleId ∧ w.1.tlsModuleId ≤ g.view.moduleCount
  modules : ∀ w ∈ g.modules, w.2 ≠ 0 ∧ w.1.tlsMemsz ≠ 0 ∧ w.2 + w.1.tlsMemsz < 2 ^ 64

theorem Generation.Placed.mem (h : g.Placed) (ha : g.Holds a) : a ∈ g.block := by
  have hpart (part : Span) (hpart : part ∈ g.parts) (ha : a ∈ part) : a ∈ g.block :=
    (h.inside part hpart).mem ha
  rcases ha with ha | ha | ha
  · exact hpart _ mem_cons_self ha
  · exact hpart _ (mem_cons_of_mem _ mem_cons_self) ha
  · exact hpart _ (mem_cons_of_mem _ (mem_cons_of_mem _ mem_cons_self)) ha

theorem Generation.Placed.base_mem (h : g.Placed) : g.block.base ∈ g.block :=
  h.mem (.inl (mem_mk.mpr ⟨Nat.le_refl _, Nat.lt_add_of_pos_right (by decide)⟩))

/-- What holds of the generations of a thread; `m₀` is the memory it started with. -/
structure Retained (tp : Nat) (initial : Attachment) (m₀ : ByteMemory) (s : ThreadViews) :
    Prop where
  tcb : s.memory.word (tp + 8) = initial.tables.dtv ∧
    s.memory.word (tp + tlsTcbModuleSizeTableOffset) = initial.tables.sizes
  initialKept : ∀ a, initial.tables.Holds a → s.memory a = m₀ a
  placed : ∀ g ∈ s.live, g.Placed
  apart : (initial.block :: s.live.map block).Pairwise Span.Apart
  header : ∀ g ∈ s.live, read s.memory g.block.base = g.view
  entries : ∀ g ∈ s.live, ∀ w ∈ g.modules, g.view.tables.entry s.memory w.1.tlsModuleId = (w.2, w.1.tlsMemsz)
  origin : ∀ g ∈ s.prepared, (g.view.previous = 0 ∧ g.old = initial.tables) ∨
    ∃ p ∈ s.published, p.block.base = g.view.previous ∧ g.old = p.view.tables
  inherits : ∀ g ∈ s.prepared, g.view.tables.Inherits s.memory g.old
  chain : (s.published.map (·.view.tables) ++ [initial.tables]).Pairwise
    (TlsTables.Inherits s.memory)

/-- What holds of a thread between its operations. -/
structure Coherent (tp : Nat) (initial : Attachment) (m₀ : ByteMemory) (s : ThreadViews) :
    Prop extends Retained tp initial m₀ s where
  current : currentView s.memory tp = s.current

open ThreadViews TlsTables

section

variable {tp : Nat} {initial : Attachment} {m₀ : ByteMemory} {s : ThreadViews}

theorem ThreadViews.mem_live : g ∈ s.live ↔ g ∈ s.prepared ∨ g ∈ s.published := mem_append

/-- The tables in use are reserved. -/
theorem ThreadViews.reserved_tables (ht : t ∈ s.published.map (·.view.tables) ++ [initial.tables])
    (ha : t.Holds a) : s.Reserved tp initial a := by
  rcases mem_append.mp ht with ht | ht
  · obtain ⟨g, hg, rfl⟩ := mem_map.mp ht
    exact .inr (.inr ⟨g, mem_live.mpr (.inr hg), .inr ha⟩)
  · rw [mem_singleton.mp ht] at ha
    exact .inr (.inl ha)

section

variable (h : Retained tp initial m₀ s)
include h

/-- The tables that a prepared generation was made from are still there. -/
theorem Retained.old_mem (hg : g ∈ s.prepared) : g.old ∈ s.published.map (·.view.tables) ++ [initial.tables] := by
  rcases h.origin g hg with ⟨-, hold⟩ | ⟨p, hp, -, hold⟩
  · exact mem_append.mpr (.inr (mem_singleton.mpr hold))
  · exact mem_append.mpr (.inl (mem_map.mpr ⟨p, hp, hold.symm⟩))

/-- Only the reserved bytes matter. -/
theorem Retained.memory (hsame : ∀ a, s.Reserved tp initial a → m' a = s.memory a) :
    Retained tp initial m₀ { s with memory := m' } := by
  have htcb (i : Nat) (hi : 8 ≤ i) (hi' : i ≤ 16) : m'.word (tp + i) = s.memory.word (tp + i) :=
    word_congr fun a ha => hsame a (.inl (by rw [mem_mk] at *; omega))
  have hlive {g : Generation} (hg : g ∈ s.live) (a : Nat) (ha : g.Holds a) : m' a = s.memory a :=
    hsame a (.inr (.inr ⟨g, hg, ha⟩))
  exact
    { tcb := ⟨(htcb 8 (by decide) (by decide)).trans h.tcb.1, (htcb 16 (by decide) (by decide)).trans h.tcb.2⟩
      initialKept := fun a ha => (hsame a (.inr (.inl ha))).trans (h.initialKept a ha)
      placed := h.placed
      apart := h.apart
      header := fun g hg =>
        (read_congr fun a ha => hlive hg a (.inl ha)).trans (h.header g hg)
      entries := fun g hg w hw => by
        rw [← h.entries g hg w hw]
        exact entry_congr (fun a ha => hlive hg a (.inr ha)) ((h.placed g hg).ids w hw).2
      origin := h.origin
      inherits := fun g hg => (h.inherits g hg).congr
        (fun a ha => hlive (mem_live.mpr (.inl hg)) a (.inr ha))
        fun a ha => hsame a (reserved_tables (h.old_mem hg) ha)
      chain := h.chain.imp_of_mem fun ht ht' hinherits => hinherits.congr
        (fun a ha => hsame a (reserved_tables ht ha))
        fun a ha => hsame a (reserved_tables ht' ha) }

/-- A generation can be left out. -/
theorem Retained.erase (g : Generation) : Retained tp initial m₀ { s with prepared := s.prepared.erase g } := by
  have hsublist : (s.prepared.erase g ++ s.published).Sublist s.live :=
    erase_sublist.append_right _
  exact
    { tcb := h.tcb
      initialKept := h.initialKept
      placed := fun g' hg' => h.placed g' (hsublist.subset hg')
      apart := h.apart.sublist ((hsublist.map _).cons_cons _)
      header := fun g' hg' => h.header g' (hsublist.subset hg')
      entries := fun g' hg' => h.entries g' (hsublist.subset hg')
      origin := fun g' hg' => h.origin g' (mem_of_mem_erase hg')
      inherits := fun g' hg' => h.inherits g' (mem_of_mem_erase hg')
      chain := h.chain }

/-- A generation can be added. -/
theorem Retained.add (hplaced : g.Placed) (hinitial : initial.block.Apart g.block)
    (hlive : ∀ g' ∈ s.live, g'.block.Apart g.block)
    (hheader : read s.memory g.block.base = g.view)
    (hentries : ∀ w ∈ g.modules, g.view.tables.entry s.memory w.1.tlsModuleId = (w.2, w.1.tlsMemsz))
    (horigin : (g.view.previous = 0 ∧ g.old = initial.tables) ∨ ∃ p ∈ s.published, p.block.base = g.view.previous ∧ g.old = p.view.tables)
    (hinherits : g.view.tables.Inherits s.memory g.old) :
    Retained tp initial m₀ { s with prepared := g :: s.prepared } where
  tcb := h.tcb
  initialKept := h.initialKept
  placed := forall_mem_cons.mpr ⟨hplaced, h.placed⟩
  apart := by
    obtain ⟨hfirst, hrest⟩ := pairwise_cons.mp h.apart
    refine pairwise_cons.mpr ⟨forall_mem_cons.mpr ⟨hinitial, hfirst⟩, pairwise_cons.mpr ⟨fun block hblock => ?_, hrest⟩⟩
    obtain ⟨g', hg', rfl⟩ := mem_map.mp hblock
    exact (hlive g' hg').symm
  header := forall_mem_cons.mpr ⟨hheader, h.header⟩
  entries := forall_mem_cons.mpr ⟨hentries, h.entries⟩
  origin := forall_mem_cons.mpr ⟨horigin, h.origin⟩
  inherits := forall_mem_cons.mpr ⟨hinherits, h.inherits⟩
  chain := h.chain

end

/-- The generation that goes from the prepared to the published ones. -/
theorem Retained.perm_live (hg : g ∈ s.prepared) : (s.prepared.erase g ++ g :: s.published).Perm s.live :=
  perm_middle.trans ((perm_cons_erase hg).symm.append_right s.published)

/-- The tables in use come first in the chain. -/
theorem ThreadViews.tables_chain (s : ThreadViews) {initial : Attachment} : ∃ rest,
    s.published.map (·.view.tables) ++ [initial.tables] = s.tables initial :: rest := by
  rw [tables]
  cases s.published with
  | nil => exact ⟨[], rfl⟩
  | cons g rest => exact ⟨_, rfl⟩

/-- A generation made from the tables in use can be published. -/
theorem Retained.promote (h : Retained tp initial m₀ s) (hg : g ∈ s.prepared) (hold : g.old = s.tables initial) :
    Retained tp initial m₀ ⟨s.memory, s.prepared.erase g, g :: s.published⟩ := by
  have hperm := perm_live hg
  have hmem {g' : Generation} (hg' : g' ∈ s.prepared.erase g ++ g :: s.published) : g' ∈ s.live :=
    hperm.mem_iff.mp hg'
  exact
    { tcb := h.tcb
      initialKept := h.initialKept
      placed := fun g' hg' => h.placed g' (hmem hg')
      apart := ((hperm.map block).cons initial.block).symm.pairwise h.apart
        fun hapart => hapart.symm
      header := fun g' hg' => h.header g' (hmem hg')
      entries := fun g' hg' => h.entries g' (hmem hg')
      origin := fun g' hg' => (h.origin g' (mem_of_mem_erase hg')).imp_right
        fun ⟨p, hp, hprevious⟩ => ⟨p, mem_cons_of_mem _ hp, hprevious⟩
      inherits := fun g' hg' => h.inherits g' (mem_of_mem_erase hg')
      chain := by
        refine pairwise_cons.mpr ⟨fun t ht => ?_, h.chain⟩
        -- the new tables inherit from those in use, and these from all others
        have hnew : g.view.tables.Inherits s.memory (s.tables initial) := hold ▸ h.inherits g hg
        obtain ⟨rest, hrest⟩ := s.tables_chain
        have hchain := h.chain
        change t ∈ s.published.map (·.view.tables) ++ [initial.tables] at ht
        rw [hrest] at hchain ht
        rcases mem_cons.mp ht with rfl | ht
        · exact hnew
        · exact hnew.trans ((pairwise_cons.mp hchain).1 t ht) }

/-- The bytes of the TCB are in the first block. -/
theorem Attached.tcb_mem (hstart : Attached tp initial m₀) (hlow : tp ≤ a) (hhigh : a < tp + tlsTcbPrefixSize) :
    a ∈ initial.block :=
  hstart.tcb_inside.mem (mem_mk.mpr ⟨hlow, hhigh⟩)

section

variable (h : Retained tp initial m₀ s) (hstart : Attached tp initial m₀)
include h hstart

/-- A block that meets none in use has no reserved bytes. -/
theorem Retained.not_mem_block {block : Span} (hinitial : initial.block.Apart block)
    (hlive : ∀ g ∈ s.live, g.block.Apart block) (ha : s.Reserved tp initial a) : a ∉ block := by
  rcases ha with ha | ha | ⟨g, hg, ha⟩
  · rw [mem_mk] at ha
    exact hinitial a (hstart.tcb_mem (by omega) (by rw [tlsTcbPrefixSize]; omega))
  · exact hinitial a (hstart.tables_inside.mem ha)
  · exact hlive g hg a ((h.placed g hg).mem ha)

/-- The pointer to the current view is no reserved byte: it stands in the TCB, behind the
    two words for the tables. -/
theorem Retained.not_mem_slot (ha : s.Reserved tp initial a) : a ∉ Span.mk (tp + currentViewTcbOffset) 8 := by
  intro hslot
  rw [currentViewTcbOffset, mem_mk] at hslot
  have hprefix : tlsTcbPrefixSize = 64 := rfl
  rcases ha with ha | ha | ⟨g, hg, ha⟩
  · rw [mem_mk] at ha
    omega
  · have hbehind := hstart.tables_behind
    simp only [TlsTables.Holds, mem_mk] at ha
    omega
  · exact (pairwise_cons.mp h.apart).1 _ (mem_map_of_mem hg) a
      (hstart.tcb_mem (by omega) (by omega)) ((h.placed g hg).mem ha)

/-- What is written outside the blocks in use changes nothing. -/
theorem Retained.outside {block : Span} (hinitial : initial.block.Apart block)
    (hlive : ∀ g ∈ s.live, g.block.Apart block) (hframe : ByteMemory.Frame block s.memory m') :
    Retained tp initial m₀ { s with memory := m' } ∧ currentView m' tp = currentView s.memory tp := by
  refine ⟨h.memory fun a ha => hframe a (h.not_mem_block hstart hinitial hlive ha), word_congr fun a ha => hframe a ?_⟩
  rw [currentViewTcbOffset, mem_mk] at ha
  exact hinitial a (hstart.tcb_mem (by omega) (by rw [tlsTcbPrefixSize]; omega))

end

/-- The other blocks are apart from the block of a prepared generation. -/
theorem Retained.others_apart (h : Retained tp initial m₀ s) (hg : g ∈ s.prepared) : initial.block.Apart g.block ∧
      ∀ g' ∈ s.prepared.erase g ++ s.published, g'.block.Apart g.block := by
  obtain ⟨hinitial, hapart⟩ := pairwise_cons.mp h.apart
  have hperm : (s.live.map block).Perm
      (g.block :: (s.prepared.erase g ++ s.published).map block) :=
    ((perm_cons_erase hg).append_right s.published).map block
  have hothers := (pairwise_cons.mp (hperm.pairwise hapart fun happart => happart.symm)).1
  exact ⟨hinitial _ (mem_map_of_mem (mem_live.mpr (.inl hg))),
    fun g' hg' => (hothers _ (mem_map_of_mem hg')).symm⟩

/-- The thread has the tables of its newest generation. -/
theorem Coherent.oldTables (h : Coherent tp initial m₀ s) (hstart : Attached tp initial m₀) :
    oldTables s.memory tp = some (s.tables initial) := by
  have hcurrent := h.current
  rw [ThreadViews.current] at hcurrent
  rw [Ldso.oldTables, tables]
  cases hpublished : s.published with
  | nil =>
    have hzero : currentView s.memory tp = 0 := by
      rw [hcurrent, hpublished]
      rfl
    have hcount : s.memory.word initial.tables.dtv = initial.tables.count := by
      rw [← hstart.count]
      refine word_congr fun a ha => h.initialKept a (.inl ?_)
      rw [mem_mk] at ha ⊢
      omega
    rw [if_pos hzero, h.tcb.1, h.tcb.2, if_neg (not_or.mpr ⟨hstart.dtv_ne, hstart.sizes_ne⟩), hcount]
    rfl
  | cons g rest =>
    have hg : g ∈ s.live := by
      rw [mem_live, hpublished]
      exact .inr mem_cons_self
    have hbase : currentView s.memory tp = g.block.base := by
      rw [hcurrent, hpublished]
      rfl
    rw [hbase, if_neg (h.placed g hg).base_ne, h.header g hg]
    rfl

/-- The tables in use stand in a block in use. -/
theorem Coherent.tables_inside (h : Coherent tp initial m₀ s) (hstart : Attached tp initial m₀) :
    (s.tables initial).Inside initial.block ∨ ∃ g ∈ s.live, (s.tables initial).Inside g.block := by
  rw [tables]
  cases hpublished : s.published with
  | nil => exact .inl hstart.tables_inside
  | cons g rest =>
    have hg : g ∈ s.live := by
      rw [mem_live, hpublished]
      exact .inr mem_cons_self
    have hinside := (h.placed g hg).inside
    refine .inr ⟨g, hg, hinside _ (mem_cons_of_mem _ mem_cons_self), hinside _ ?_⟩
    exact mem_cons_of_mem _ (mem_cons_of_mem _ mem_cons_self)

/-- Two published generations do not stand at one address. -/
theorem Retained.base_inj (h : Retained tp initial m₀ s) {g' : Generation} {rest : List Generation}
    (hpublished : s.published = g :: rest) (hg' : g' ∈ s.published) (hbase : g'.block.base = g.block.base) :
    g' = g := by
  rw [hpublished] at hg'
  rcases mem_cons.mp hg' with rfl | hrest
  · rfl
  · -- otherwise their blocks would be apart
    have hsublist : (s.published.map block).Sublist (s.live.map block) :=
      (sublist_append_right _ _).map _
    have hapart := (pairwise_cons.mp h.apart).2.sublist hsublist
    rw [hpublished, map_cons, pairwise_cons] at hapart
    have hlive (p : Generation) (hp : p ∈ g :: rest) : p ∈ s.live :=
      mem_live.mpr (.inr (hpublished ▸ hp))
    have hmem := (h.placed g' (hlive g' hg')).base_mem
    rw [hbase] at hmem
    exact absurd hmem (hapart.1 _ (mem_map_of_mem hrest) _
      (h.placed g (hlive g mem_cons_self)).base_mem)

/-- A generation that follows the current view was made from the tables in use. -/
theorem Coherent.old_eq (h : Coherent tp initial m₀ s) (hg : g ∈ s.prepared)
    (hprevious : g.view.previous = currentView s.memory tp) : g.old = s.tables initial := by
  have horigin := h.origin g hg
  rw [hprevious, h.current, ThreadViews.current] at horigin
  rw [tables]
  cases hpublished : s.published with
  | nil =>
    rw [hpublished] at horigin
    rcases horigin with ⟨-, hold⟩ | ⟨p, hp, -⟩
    · exact hold
    · exact absurd hp not_mem_nil
  | cons newest rest =>
    have hbase : (s.published.head?.map (·.block.base)).getD 0 = newest.block.base := by
      rw [hpublished]
      rfl
    rw [hbase] at horigin
    rcases horigin with ⟨hzero, -⟩ | ⟨p, hp, hp', hold⟩
    · refine absurd hzero (h.placed newest (mem_live.mpr (.inr ?_))).base_ne
      exact hpublished ▸ mem_cons_self
    · rw [hold, h.base_inj hpublished hp hp']
      rfl

end

/-! ## The operations -/

section

variable {tp : Nat} {initial : Attachment} {m₀ : ByteMemory} {s : ThreadViews}
  {modules : List TlsObject} {allocation : Option Nat} {block : Span} {m' : ByteMemory}

/-- `prepare` with a block. -/
theorem prepareView_eq : (prepareView m tp modules allocation = .view block m' → ∃ request mapped,
      viewRequest m tp modules = some request ∧ block = ⟨mapped, request.bytes⟩ ∧
        buildView (zeroed m ⟨mapped, request.bytes⟩) modules request mapped = (true, m')) ∧
    (prepareView m tp modules allocation = .abandoned block m' → ∃ request mapped,
      viewRequest m tp modules = some request ∧ block = ⟨mapped, request.bytes⟩ ∧
        (buildView (zeroed m ⟨mapped, request.bytes⟩) modules request mapped).2 = m') := by
  unfold prepareView
  cases viewRequest m tp modules with
  | none => exact ⟨nofun, nofun⟩
  | some request =>
    cases allocation with
    | none => exact ⟨nofun, nofun⟩
    | some mapped =>
      dsimp only
      split
      case isTrue hbuilt =>
        refine ⟨fun h => ?_, nofun⟩
        cases h
        exact ⟨request, mapped, rfl, rfl, Prod.ext hbuilt rfl⟩
      case isFalse =>
        refine ⟨nofun, fun h => ?_⟩
        cases h
        exact ⟨request, mapped, rfl, rfl, rfl⟩

section

variable {m : ByteMemory} {request : ViewRequest} {mapped : Nat} {ws : List PlacedModule}
  (h : ViewBuilt m modules request mapped m' ws)
include h

/-- The modules of a new generation are those that `prepare` carved out. -/
theorem ViewBuilt.generation_of : of m' request.old modules ⟨mapped, request.bytes⟩ =
      ⟨⟨mapped, request.bytes⟩, request.view mapped, request.old, ws⟩ := by
  have hentry (w : PlacedModule) (hw : w ∈ ws) :
      (w.1, m'.word (tableSlot (request.view mapped).dtv w.1.tlsModuleId)) = w := by
    rw [(h.entries w hw).1]
  rw [of, h.header, ← h.modules, List.map_map]
  congr 1
  exact (map_congr_left hentry).trans (map_id ws)

/-- A new generation is in its place. -/
theorem ViewBuilt.generation_placed (hrequest : Requested m tp modules request)
    (hmapped : mapped ≠ 0) (hbounded : mapped + request.bytes < 2 ^ 64) :
    Generation.Placed ⟨⟨mapped, request.bytes⟩, request.view mapped, request.old, ws⟩ := by
  obtain ⟨hdtv, hsizes, hend, hlimit⟩ := view_geometry hrequest mapped
  have hcount : (request.view mapped).moduleCount = request.count := rfl
  have hmem {w : PlacedModule} (hw : w ∈ ws) : w.1 ∈ newModules request.old.count modules :=
    h.modules ▸ mem_map_of_mem hw
  have hbounds := h.carved.bounds
  refine ⟨hmapped, lt_of_le_of_lt (le_add_right _ _) hbounded, rfl, ?_, ?_,
    fun w hw => ⟨?_, ?_⟩, fun w hw => ⟨?_, ?_, ?_⟩⟩
  · -- every part ends where the next one starts, or before
    have hblocks (w : PlacedModule) (hw : w ∈ ws) (part : Span) (hpart : part.base + part.length ≤
        (request.view mapped).sizes + 8 * (request.count + 1)) : part.Apart w.block :=
      apart_of_le (le_trans hpart (hbounds w hw).1)
    simp only [parts, pairwise_cons, forall_mem_cons, forall_mem_map, pairwise_map, hcount]
    refine ⟨⟨apart_of_le ?_, apart_of_le ?_, fun w hw => hblocks w hw _ ?_⟩,
      ⟨apart_of_le ?_, fun w hw => hblocks w hw _ ?_⟩, fun w hw => hblocks w hw _ ?_,
      h.carved.apart⟩ <;>
      · dsimp only
        omega
  · simp only [parts, forall_mem_cons, forall_mem_map, hcount]
    refine ⟨⟨?_, ?_⟩, ⟨?_, ?_⟩, ⟨?_, ?_⟩, fun w hw => h.placed.inside w hw⟩ <;>
      · dsimp only
        omega
  · exact lt_of_le_of_lt (zero_le _) (mem_newModules.mp (hmem hw)).2
  · exact hrequest.ids w.1 (mem_newModules.mp (hmem hw)).1
  · have := hbounds w hw
    omega
  · exact (hrequest.valid w.1 (hmem hw)).memsz_ne
  · have := hbounds w hw
    omega

end

variable {leftover : ByteMemory}

/-- A block that was dropped. -/
theorem dropView_frame {block : Span} (h : (read m block.base).byteLen = block.length) :
    ByteMemory.Frame block m (dropView m block.base leftover) := by
  intro a ha
  rw [dropView, h, released]
  exact if_neg ha

/-- **A preparation that fails** writes to its block only. -/
theorem abandoned_frame (hview : prepareView m tp modules allocation = .abandoned block m')
    (hbounded : block.base + block.length < 2 ^ 64) : ByteMemory.Frame block m (dropView m' block.base leftover) := by
  obtain ⟨request, mapped, hsome, rfl, rfl⟩ := prepareView_eq.2 hview
  obtain ⟨hheader, hframe⟩ := buildView_frame (viewRequest_eq_some hsome) hbounded
    (zeroed m ⟨mapped, request.bytes⟩)
  refine ((zeroed_frame m _).trans hframe).trans (dropView_frame ?_)
  rw [hheader]
  rfl

/-! ## What `resolve` answers -/

variable {newer older : List Generation} {g' : Generation}

theorem mem_live_of_newer (hpublished : s.published = newer ++ g :: older) (hg' : g' ∈ newer ++ [g]) : g' ∈ s.live := by
  rw [mem_live, hpublished]
  rcases mem_append.mp hg' with hg' | hg'
  · exact .inr (mem_append_left _ hg')
  · exact .inr (mem_append_right _ (mem_singleton.mp hg' ▸ mem_cons_self))

section

variable (h : Retained tp initial m₀ s)
include h

theorem Retained.byteLen (hg : g ∈ s.prepared) : (read s.memory g.block.base).byteLen = g.block.length := by
  have hlive : g ∈ s.live := mem_live.mpr (.inl hg)
  rw [h.header g hlive]
  exact (h.placed g hlive).byteLen

/-- `resolve` on a generation is a lookup in its tables. -/
theorem Retained.resolve_eq (hg : g ∈ s.live) (id offset : Nat) :
    resolve s.memory g.block.base id offset = g.view.tables.lookup s.memory id offset := by
  rw [resolve_eq_lookup (h.placed g hg).base_ne, h.header g hg]

/-- A newer generation has the entries of an older one. -/
theorem Retained.inherits_of_newer (hpublished : s.published = newer ++ g :: older) (hg' : g' ∈ newer ++ [g]) :
    g'.view.tables.Inherits s.memory g.view.tables := by
  rcases mem_append.mp hg' with hg' | hg'
  · have hchain := (pairwise_append.mp h.chain).1
    rw [hpublished, map_append, map_cons] at hchain
    exact (pairwise_append.mp hchain).2.2 _ (mem_map_of_mem hg') _ mem_cons_self
  · rw [mem_singleton.mp hg']
    exact .refl _ _

/-- Every generation has the entries of the initial tables. -/
theorem Retained.inherits_initial (hg : g ∈ s.published) : g.view.tables.Inherits s.memory initial.tables :=
  (pairwise_append.mp h.chain).2.2 _ (mem_map_of_mem hg) _ mem_cons_self

/-- The modules of a generation are found by it and all newer ones, up to their sizes. -/
theorem Retained.resolve_module (hpublished : s.published = newer ++ g :: older) {w : PlacedModule} (hw : w ∈ g.modules)
    (hg' : g' ∈ newer ++ [g]) (offset : Nat) :
    resolve s.memory g'.block.base w.1.tlsModuleId offset =
      if offset ≤ w.1.tlsMemsz then some (w.2 + offset) else none := by
  have hlive {p : Generation} (hp : p ∈ newer ++ [g]) : p ∈ s.live := mem_live_of_newer hpublished hp
  have hg : g ∈ s.live := hlive (mem_append_right _ mem_cons_self)
  obtain ⟨hpos, hid⟩ := (h.placed g hg).ids w hw
  have hid : w.1.tlsModuleId ≤ g.view.tables.count := hid
  obtain ⟨hbase, hsize, hbounded⟩ := (h.placed g hg).modules w hw
  rw [h.resolve_eq (hlive hg'), (h.inherits_of_newer hpublished hg').lookup hpos hid,
    TlsTables.lookup, if_neg (by omega), h.entries g hg w hw, answer]
  by_cases hoffset : offset ≤ w.1.tlsMemsz
  · rw [if_neg (by omega), if_pos hoffset]
    exact Usize.checkedAdd_eq_some.mpr ⟨by omega, rfl⟩
  · rw [if_pos (.inr (.inr (Nat.lt_of_not_le hoffset))), if_neg hoffset]

/-- The modules of the initial attachment are found where they were. -/
theorem Retained.resolve_initial (hg : g ∈ s.published) {id : Nat}
    (hpos : 0 < id) (hid : id ≤ initial.tables.count) (offset : Nat) :
    resolve s.memory g.block.base id offset = initial.tables.lookup m₀ id offset := by
  rw [h.resolve_eq (mem_live.mpr (.inr hg)), (h.inherits_initial hg).lookup hpos hid, lookup_congr h.initialKept]

/-- All parts of all generations are apart. -/
theorem Retained.parts_apart : (initial.block :: s.live.flatMap parts).Pairwise Span.Apart := by
  have hinside {g : Generation} (hg : g ∈ s.live) {part : Span} (hpart : part ∈ g.parts) :
      part.Inside g.block := (h.placed g hg).inside part hpart
  obtain ⟨hinitial, hblocks⟩ := pairwise_cons.mp h.apart
  rw [pairwise_map] at hblocks
  refine pairwise_cons.mpr ⟨fun part hpart => ?_, pairwise_flatMap.mpr
    ⟨fun g hg => (h.placed g hg).apart, hblocks.imp_of_mem fun hg hg' hapart part hpart part' hpart' => ?_⟩⟩
  · obtain ⟨g, hg, hpart⟩ := mem_flatMap.mp hpart
    exact ((hinitial _ (mem_map_of_mem hg)).symm.inside (hinside hg hpart)).symm
  · exact ((hapart.inside (hinside hg hpart)).symm.inside (hinside hg' hpart')).symm

end

/-! ## The runs -/

theorem Attached.coherent (hstart : Attached tp initial m₀) : Coherent tp initial m₀ ⟨m₀, [], []⟩ where
  tcb := ⟨hstart.dtv, hstart.sizes⟩
  initialKept := fun _ _ => rfl
  placed := nofun
  apart := pairwise_singleton _ _
  header := nofun
  entries := nofun
  origin := nofun
  inherits := nofun
  chain := pairwise_singleton _ _
  current := hstart.current

section

variable (h : Coherent tp initial m₀ s) (hstart : Attached tp initial m₀)
include h hstart

section

variable (hview : prepareView s.memory tp modules allocation = .view block m')
  (hfresh : FreshBlock initial s modules block)
include hview hfresh

/-- The view that `prepare` makes for a thread. -/
theorem Coherent.viewBuilt : ∃ request mapped ws,
      Requested s.memory tp modules request ∧ request.old = s.tables initial ∧
        block = ⟨mapped, request.bytes⟩ ∧ ViewBuilt s.memory modules request mapped m' ws := by
  obtain ⟨request, mapped, hsome, rfl, hbuilt⟩ := prepareView_eq.1 hview
  have hrequest := viewRequest_eq_some hsome
  have hold : request.old = s.tables initial :=
    Option.some.inj (hrequest.old.symm.trans (h.oldTables hstart))
  -- the old tables and the images stand outside the new block
  have hinside : ∃ t, request.old.Inside t ∧ t.Apart ⟨mapped, request.bytes⟩ := by
    rw [hold]
    rcases h.tables_inside hstart with hinside | ⟨g, hg, hinside⟩
    · exact ⟨_, hinside, hfresh.initial⟩
    · exact ⟨_, hinside, hfresh.live g hg⟩
  have himages : ∀ module ∈ newModules request.old.count modules,
      Span.Apart ⟨module.tlsImage, module.tlsFilesz⟩ ⟨mapped, request.bytes⟩ :=
    fun module hmodule => hfresh.images module (mem_newModules.mp hmodule).1
  obtain ⟨ws, hws⟩ := buildView_true hrequest hfresh.bounded hinside himages hbuilt
  exact ⟨request, mapped, ws, hrequest, hold, rfl, hws⟩

section

variable (hold : Ldso.oldTables s.memory tp = some old)
include hold

/-- **Preparation.**  The new generation joins the others. -/
theorem Coherent.prepare : Coherent tp initial m₀ { s with
      memory := m', prepared := of m' old modules block :: s.prepared } := by
  obtain ⟨request, mapped, ws, hrequest, htables, rfl, hbuilt⟩ := h.viewBuilt hstart hview hfresh
  obtain rfl : request.old = old := Option.some.inj (hrequest.old.symm.trans hold)
  obtain ⟨hretained, hcurrent⟩ := h.outside hstart hfresh.initial hfresh.live hbuilt.frame
  -- the tables it was made from are not written
  have hkept (a : Nat) (ha : request.old.Holds a) : m' a = s.memory a := by
    apply hbuilt.frame
    rw [htables] at ha
    rcases h.tables_inside hstart with hinside | ⟨g, hg, hinside⟩
    · exact hfresh.initial a (hinside.mem ha)
    · exact hfresh.live g hg a (hinside.mem ha)
  rw [hbuilt.generation_of]
  refine ⟨hretained.add (hbuilt.generation_placed hrequest hfresh.base_ne hfresh.bounded)
    hfresh.initial hfresh.live hbuilt.header (fun w hw => Prod.ext_iff.mpr (hbuilt.entries w hw))
    ?_ ⟨hrequest.oldCount_le, fun id hpos hid => ?_⟩, hcurrent.trans h.current⟩
  · -- the view follows the current one, and its tables are those in use
    have hprevious : (request.view mapped).previous = s.current :=
      hrequest.previous.trans h.current
    rw [hprevious, htables, ThreadViews.current, tables]
    cases s.published with
    | nil => exact .inl ⟨rfl, rfl⟩
    | cons g rest => exact .inr ⟨g, mem_cons_self, rfl, rfl⟩
  · exact (Prod.ext_iff.mpr (hbuilt.old id hpos hid)).trans (entry_congr hkept hid).symm

/-- The new modules of a successful preparation: they are complete, each has one id, and
    the blocks have their images. -/
theorem Coherent.prepare_modules : (newModules old.count modules).Pairwise (fun a b => a.tlsModuleId ≠ b.tlsModuleId) ∧
      (∀ id, old.count < id → id ≤ (read m' block.base).moduleCount → ∃ module ∈ modules, module.tlsModuleId = id) ∧
      ∀ module ∈ modules, old.count < module.tlsModuleId → module.Valid ∧ ∃ start,
        (module, start) ∈ (of m' old modules block).modules ∧
          start % module.tlsAlign = module.tlsImage % module.tlsAlign ∧
          ∀ i, i < module.tlsMemsz →
            m' (start + i) = if i < module.tlsFilesz then s.memory (module.tlsImage + i) else 0 := by
  obtain ⟨request, mapped, ws, hrequest, htables, rfl, hbuilt⟩ := h.viewBuilt hstart hview hfresh
  obtain rfl : request.old = old := Option.some.inj (hrequest.old.symm.trans hold)
  rw [hbuilt.generation_of, hbuilt.header]
  refine ⟨?_, fun id hnew hid => ?_, fun module hmodule hnew => ?_⟩
  · rw [← hbuilt.modules, pairwise_map]
    exact hbuilt.placed.apart.imp fun hapart => hapart.2
  · obtain ⟨w, hw, hwid⟩ := hbuilt.complete id hnew hid
    have hmem : w.1 ∈ newModules request.old.count modules :=
      hbuilt.modules ▸ mem_map_of_mem hw
    exact ⟨w.1, (mem_newModules.mp hmem).1, hwid⟩
  · have hmem : module ∈ ws.map Prod.fst := by
      rw [hbuilt.modules]
      exact mem_newModules.mpr ⟨hmodule, hnew⟩
    obtain ⟨w, hw, rfl⟩ := mem_map.mp hmem
    exact ⟨hrequest.valid w.1 (mem_newModules.mpr ⟨hmodule, hnew⟩), w.2, hw,
      (hbuilt.carved.bounds w hw).2.2, hbuilt.contents w hw⟩

end

end

variable {s' : ThreadViews}

/-- **The step.** -/
theorem Coherent.step (hstep : ViewStep tp initial s s') : Coherent tp initial m₀ s' := by
  cases hstep with
  | prepare hview hold hfresh => exact h.prepare hstart hview hfresh hold
  | refuse => exact h
  | abandon hview hfresh leftover =>
    obtain ⟨hretained, hcurrent⟩ := h.outside hstart hfresh.initial hfresh.live
      (abandoned_frame hview hfresh.bounded)
    exact ⟨hretained, hcurrent.trans h.current⟩
  | @publish g hg hcurrent =>
    have hg' : g.Placed := h.placed g (mem_live.mpr (.inl hg))
    have hretained : Retained tp initial m₀
        { s with memory := publishView s.memory tp g.block.base } :=
      h.memory fun a ha =>
        frame_setWord _ _ _ a (h.not_mem_slot hstart ha)
    exact ⟨hretained.promote hg (h.old_eq hg hcurrent), word_setWord hg'.base_lt⟩
  | @drop g hg leftover =>
    obtain ⟨hinitial, hothers⟩ := h.others_apart hg
    obtain ⟨hretained, hcurrent⟩ := (h.erase g).outside hstart hinitial hothers
      (dropView_frame (h.byteLen hg))
    exact ⟨hretained, hcurrent.trans h.current⟩
  | store hreserved hcurrent => exact ⟨h.memory hreserved, hcurrent.trans h.current⟩

/-- **The run.** -/
theorem Coherent.run (hrun : ReflTransGen (ViewStep tp initial) s s') : Coherent tp initial m₀ s' := by
  induction hrun with
  | refl => exact h
  | tail _ hstep ih => exact ih.step hstart hstep

/-- A step keeps the published generations, and writes none of their tables. -/
theorem Coherent.step_published (hstep : ViewStep tp initial s s') : ∃ later, s'.published = later ++ s.published ∧
      ∀ g ∈ s.published, ∀ a, g.view.tables.Holds a → s'.memory a = s.memory a := by
  have hreserved {t : ThreadViews} (ht : t.published = s.published) (g : Generation)
      (hg : g ∈ s.published) (a : Nat) (ha : g.view.tables.Holds a) : t.Reserved tp initial a :=
    .inr (.inr ⟨g, mem_live.mpr (.inr (ht ▸ hg)), .inr ha⟩)
  cases hstep with
  | prepare hview hold hfresh =>
    obtain ⟨request, mapped, ws, -, -, rfl, hbuilt⟩ := h.viewBuilt hstart hview hfresh
    exact ⟨[], rfl, fun g hg a ha => hbuilt.frame a
      (h.not_mem_block hstart hfresh.initial hfresh.live (hreserved rfl g hg a ha))⟩
  | refuse => exact ⟨[], rfl, fun _ _ _ _ => rfl⟩
  | abandon hview hfresh leftover =>
    exact ⟨[], rfl, fun g hg a ha => abandoned_frame hview hfresh.bounded a
      (h.not_mem_block hstart hfresh.initial hfresh.live (hreserved rfl g hg a ha))⟩
  | @publish g hg hcurrent =>
    exact ⟨[g], rfl, fun g' hg' a ha => frame_setWord _ _ _ a
      (h.not_mem_slot hstart (hreserved rfl g' hg' a ha))⟩
  | @drop g hg leftover =>
    obtain ⟨hinitial, hothers⟩ := h.others_apart hg
    exact ⟨[], rfl, fun g' hg' a ha => dropView_frame (h.byteLen hg) a
      ((h.erase g).not_mem_block hstart hinitial hothers
        (hreserved (t := { s with prepared := s.prepared.erase g }) rfl g' hg' a ha))⟩
  | store hsame hcurrent => exact ⟨[], rfl, fun g hg a ha => hsame a (hreserved rfl g hg a ha)⟩

section

variable (hrun : ReflTransGen (ViewStep tp initial) s s')
include hrun

theorem Coherent.run_published : ∃ later, s'.published = later ++ s.published ∧
      ∀ g ∈ s.published, ∀ a, g.view.tables.Holds a → s'.memory a = s.memory a := by
  induction hrun with
  | refl => exact ⟨[], rfl, fun _ _ _ _ => rfl⟩
  | tail hrun hstep ih =>
    obtain ⟨later, hlater, hsame⟩ := ih
    obtain ⟨later', hlater', hsame'⟩ := (h.run hstart hrun).step_published hstart hstep
    refine ⟨later' ++ later, by rw [hlater', hlater, append_assoc], fun g hg a ha => ?_⟩
    rw [hsame' g (hlater ▸ mem_append_right _ hg) a ha, hsame g hg a ha]

/-- **Answers stay.**  What a published generation has answered it and all newer ones
    answer from then on. -/
theorem Coherent.resolve_stable : ∃ later, s'.published = later ++ s.published ∧
      ∀ newer g older, s.published = newer ++ g :: older → ∀ id offset address,
        resolve s.memory g.block.base id offset = some address →
          ∀ g' ∈ later ++ newer ++ [g], resolve s'.memory g'.block.base id offset = some address := by
  obtain ⟨later, hlater, hsame⟩ := h.run_published hstart hrun
  refine ⟨later, hlater, fun newer g older hpublished id offset address hresolve g' hg' => ?_⟩
  have h' := h.run hstart hrun
  have hg : g ∈ s.published := by
    rw [hpublished]
    exact mem_append_right _ mem_cons_self
  have hpublished' : s'.published = (later ++ newer) ++ g :: older := by rw [hlater, hpublished, append_assoc]
  rw [h.resolve_eq (mem_live.mpr (.inr hg))] at hresolve
  obtain ⟨hpos, hid⟩ := lookup_eq_some hresolve
  rw [h'.resolve_eq (mem_live_of_newer hpublished' hg'), (h'.inherits_of_newer hpublished' hg').lookup hpos hid,
    lookup_congr (hsame g hg)]
  exact hresolve

end

end

/-- **TLS generations.**  In every run of one thread the current view is the newest
    published generation, answers stay, the parts of all generations are apart, the
    modules of a generation are found up to their sizes, a preparation that succeeds is
    complete and gives every new module its image, and one that fails changes nothing. -/
theorem tlsGenerations_coherent {tp : Nat} {initial : Attachment} {m₀ : ByteMemory}
    (hstart : Attached tp initial m₀) {s : ThreadViews}
    (hrun : ReflTransGen (ViewStep tp initial) ⟨m₀, [], []⟩ s) :
    currentView s.memory tp = s.current ∧
    (∀ s', ReflTransGen (ViewStep tp initial) s s' → ∃ later, s'.published = later ++ s.published ∧
      ∀ newer g older, s.published = newer ++ g :: older → ∀ id offset address,
        resolve s.memory g.block.base id offset = some address → ∀ g' ∈ later ++ newer ++ [g],
            resolve s'.memory g'.block.base id offset = some address) ∧
    (∀ g ∈ s.published, ∀ id offset, 0 < id → id ≤ initial.tables.count →
      resolve s.memory g.block.base id offset = initial.tables.lookup m₀ id offset) ∧
    (∀ newer g older, s.published = newer ++ g :: older → ∀ w ∈ g.modules,
      ∀ g' ∈ newer ++ [g], ∀ offset, resolve s.memory g'.block.base w.1.tlsModuleId offset =
        if offset ≤ w.1.tlsMemsz then some (w.2 + offset) else none) ∧
    (initial.block :: s.live.flatMap parts).Pairwise Span.Apart ∧
    (∀ modules allocation block m' old, prepareView s.memory tp modules allocation = .view block m' →
      oldTables s.memory tp = some old → FreshBlock initial s modules block →
        (newModules old.count modules).Pairwise (fun a b => a.tlsModuleId ≠ b.tlsModuleId) ∧
        (∀ id, old.count < id → id ≤ (read m' block.base).moduleCount → ∃ module ∈ modules, module.tlsModuleId = id) ∧
        ∀ module ∈ modules, old.count < module.tlsModuleId → module.Valid ∧ ∃ start,
          (module, start) ∈ (of m' old modules block).modules ∧
          start % module.tlsAlign = module.tlsImage % module.tlsAlign ∧
          ∀ i, i < module.tlsMemsz → m' (start + i) =
            if i < module.tlsFilesz then s.memory (module.tlsImage + i) else 0) ∧
    (∀ modules allocation block m' leftover, prepareView s.memory tp modules allocation = .abandoned block m' →
      FreshBlock initial s modules block → currentView (dropView m' block.base leftover) tp = currentView s.memory tp ∧
        ∀ g ∈ s.published, ∀ id offset, resolve (dropView m' block.base leftover) g.block.base id offset =
            resolve s.memory g.block.base id offset) := by
  have h : Coherent tp initial m₀ s := hstart.coherent.run hstart hrun
  refine ⟨h.current, fun s' hrun' => h.resolve_stable hstart hrun',
    fun g hg id offset hpos hid => h.resolve_initial hg hpos hid offset,
    fun newer g older hpublished w hw g' hg' offset =>
      h.resolve_module hpublished hw hg' offset, h.parts_apart,
    fun modules allocation block m' old hview hold hfresh =>
      h.prepare_modules hstart hview hfresh hold,
    fun modules allocation block m' leftover hview hfresh => ?_⟩
  obtain ⟨hretained, hcurrent⟩ := h.outside hstart hfresh.initial hfresh.live
    (abandoned_frame hview hfresh.bounded)
  refine ⟨hcurrent, fun g hg id offset => ?_⟩
  obtain ⟨later, -, hsame⟩ := h.step_published hstart (.abandon hview hfresh leftover)
  have hlive : g ∈ s.live := ThreadViews.mem_live.mpr (.inr hg)
  rw [h.resolve_eq hlive, hretained.resolve_eq hlive]
  exact TlsTables.lookup_congr (hsame g hg) id offset

end

/-- The memory of a thread at `0x1000` with one module of 16 bytes at `0x1060`. -/
def oneModuleMemory : ByteMemory :=
  let m : ByteMemory := fun a => if a < 0x1000 then 0x5a else 0
  ((((m.setWord 0x1008 0x1040).setWord 0x1010 0x1050).setWord 0x1040 1).setWord 0x1048
    0x1060).setWord 0x1058 16

def oneModuleAttachment : Attachment := ⟨⟨0x1000, 0x100⟩, ⟨0x1040, 0x1050, 1⟩⟩

/-- The module of the thread, and one of 40 bytes at phase 4. -/
def secondModule : List TlsObject := [⟨0, 0, 16, 16, 0, 1⟩, ⟨0x804, 3, 40, 16, 0, 2⟩]

def secondModuleView : Bool × ByteMemory :=
  buildView (zeroed oneModuleMemory ⟨0x8000, 143⟩) secondModule
    ⟨0, ⟨0x1040, 0x1050, 1⟩, 2, 24, 143⟩ 0x8000

theorem tlsGenerations_secondModule : ∃ s,
    ReflTransGen (ViewStep 0x1000 oneModuleAttachment) ⟨oneModuleMemory, [], []⟩ s ∧
      currentView s.memory 0x1000 = 0x8000 ∧ resolve s.memory 0x8000 1 4 = some 0x1064 := by
  have hstart : Attached 0x1000 oneModuleAttachment oneModuleMemory := by
    refine ⟨?_, ?_, ?_, ?_, ?_, ?_, ⟨?_, ?_⟩, ⟨⟨?_, ?_⟩, ⟨?_, ?_⟩⟩, ⟨?_, ?_⟩⟩ <;> decide +kernel
  have hrequest : viewRequest oneModuleMemory 0x1000 secondModule =
      some ⟨0, ⟨0x1040, 0x1050, 1⟩, 2, 24, 143⟩ := by decide +kernel
  have hbuilt : secondModuleView.1 = true := by decide +kernel
  have hview : prepareView oneModuleMemory 0x1000 secondModule (some 0x8000) =
      .view ⟨0x8000, 143⟩ secondModuleView.2 := by
    unfold prepareView
    rw [hrequest]
    exact if_pos hbuilt
  have hold : oldTables oneModuleMemory 0x1000 = some ⟨0x1040, 0x1050, 1⟩ := by decide +kernel
  have hfresh : FreshBlock oneModuleAttachment ⟨oneModuleMemory, [], []⟩ secondModule
      ⟨0x8000, 143⟩ := by
    refine ⟨by decide, by decide, Span.apart_of_le (by decide),
      nofun, fun module hmodule => Span.apart_of_le ?_⟩
    simp only [secondModule, mem_cons, not_mem_nil, or_false] at hmodule
    rcases hmodule with rfl | rfl <;> decide
  have hprevious : (of secondModuleView.2 ⟨0x1040, 0x1050, 1⟩ secondModule
      ⟨0x8000, 143⟩).view.previous = currentView secondModuleView.2 0x1000 := by decide +kernel
  -- the view is prepared and published
  have hprepare : ViewStep 0x1000 oneModuleAttachment ⟨oneModuleMemory, [], []⟩ _ :=
    .prepare hview hold hfresh
  have hrun := (ReflTransGen.single hprepare).tail (.publish mem_cons_self hprevious)
  obtain ⟨hcurrent, -, hinitial, -⟩ := tlsGenerations_coherent hstart hrun
  have hlookup : oneModuleAttachment.tables.lookup oneModuleMemory 1 4 = some 0x1064 := by decide +kernel
  exact ⟨_, hrun, hcurrent, (hinitial _ mem_cons_self 1 4 (by decide) (by decide)).trans hlookup⟩

end Crabc.Ldso
