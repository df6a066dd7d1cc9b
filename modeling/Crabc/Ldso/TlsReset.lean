/-
  Crabc.Ldso.TlsReset

  `module_image_bounds` and `reset_module_image_preserving` of
  `x86_64_runtime_tls_view.rs`: the image of a module gets its template bytes and zeros
  again, except for the spans that the runtime keeps.
-/

import Crabc.Ldso.TlsView

namespace Crabc.Ldso

open Crabc.Lib ByteMemory Span Usize

/-- `module_image_bounds`. -/
def moduleImageBounds (m : ByteMemory) (tp : Nat) (object : TlsObject) : Option (Nat × Nat) :=
  if object.tlsMemsz = 0 then some (0, 0)
  else if object.tlsModuleId = 0 ∨ object.tlsFilesz > object.tlsMemsz ∨
      (object.tlsFilesz ≠ 0 ∧ object.tlsImage = 0) then none
  else do
    let tables ← oldTables m tp
    if object.tlsModuleId > tables.count then none
    else
      let destination := m.word (tableSlot tables.dtv object.tlsModuleId)
      let size := m.word (tableSlot tables.sizes object.tlsModuleId)
      if destination = 0 ∨ size ≠ object.tlsMemsz then none
      else return (destination, ← checkedAdd destination size)

/-- The first preserved span behind `cursor`: its start and its end. -/
def nextPreserved (start stop cursor : Nat) : List Span → Nat × Nat → Option (Nat × Nat)
  | [], found => some found
  | span :: preserved, found =>
    match checkedAdd span.base span.length with
    | none => none
    | some spanStop =>
      if span.base < stop ∧ spanStop > start then
        if span.base < start ∨ spanStop > stop ∨ span.length = 0 then none
        else nextPreserved start stop cursor preserved
          (if span.base ≥ cursor ∧ span.base < found.1 then (span.base, spanStop) else found)
      else nextPreserved start stop cursor preserved found

variable (object : TlsObject) (preserved : List Span) (start stop : Nat)

/-- What one round writes. -/
def resetGap (cursor next : Nat) (m : ByteMemory) : ByteMemory :=
  let offset := cursor - start
  let gapEnd := next - start
  let initializedEnd := min gapEnd object.tlsFilesz
  let m := if offset < initializedEnd then
    m.copy (object.tlsImage + offset) (start + offset) (initializedEnd - offset) else m
  let zeroStart := max offset object.tlsFilesz
  if zeroStart < gapEnd then m.fill ⟨start + zeroStart, gapEnd - zeroStart⟩ 0 else m

/-- `none` if so many rounds are not enough. -/
def resetGaps : Nat → Nat → ByteMemory → Option (Bool × ByteMemory)
  | 0, _, _ => none
  | rounds + 1, cursor, m =>
    if cursor < stop then
      match nextPreserved start stop cursor preserved (stop, stop) with
      | none => some (false, m)
      | some (next, protectedEnd) =>
        let m := resetGap object start cursor next m
        if next = stop then some (true, m) else resetGaps rounds protectedEnd m
    else some (true, m)

/-- `reset_module_image_preserving`. -/
def resetModuleImagePreserving (m : ByteMemory) (tp : Nat) (write : Bool) : Option (Bool × ByteMemory) :=
  match moduleImageBounds m tp object with
  | none => some (false, m)
  | some (start, stop) =>
    if write = false ∨ start = stop then some (true, m)
    else resetGaps object preserved start stop (stop - start + 1) start m

/-- The memory with the image reset up to an address. -/
def resetUpTo (m : ByteMemory) (cursor : Nat) : ByteMemory := fun a =>
  if start ≤ a ∧ a < cursor ∧ ∀ span ∈ preserved, a ∉ span then
    if a - start < object.tlsFilesz then m (object.tlsImage + (a - start)) else 0
  else m a

/-- The span is partly in the image. -/
def Crosses (span : Span) : Prop := start < stop ∧ span.base < stop ∧ start < span.base + span.length ∧
  (span.base < start ∨ stop < span.base + span.length)

/-- The spans are not empty, end in the address space, do not cross the ends of the image and do not meet. -/
structure Preserved : Prop where
  pos : ∀ span ∈ preserved, 0 < span.length
  bounded : ∀ span ∈ preserved, span.base + span.length < 2 ^ 64
  whole : ∀ span ∈ preserved, ¬ Crosses start stop span
  apart : ∀ s ∈ preserved, ∀ t ∈ preserved, s = t ∨ s.base + s.length ≤ t.base ∨ t.base + t.length ≤ s.base

variable {object preserved start stop} {cursor : Nat} {m : ByteMemory}

theorem nextPreserved_crossed {span : Span} (hmem : span ∈ preserved) (h : Crosses start stop span) (found : Nat × Nat) :
    nextPreserved start stop cursor preserved found = none := by
  induction preserved generalizing found with
  | nil => cases hmem
  | cons first preserved ih => grind [nextPreserved, checkedAdd, Crosses]

/-- The search finds the first span behind the cursor, if there is one. -/
theorem nextPreserved_finds (h : Preserved preserved start stop) (hstart : start ≤ cursor) (hstop : cursor < stop)
    (found : Nat × Nat) :
    ∃ r, nextPreserved start stop cursor preserved found = some r ∧
      (r = found ∨ ∃ span ∈ preserved, r = (span.base, span.base + span.length) ∧ cursor ≤ r.1 ∧ r.1 < found.1) ∧
      ∀ span ∈ preserved, cursor ≤ span.base → span.base < stop → r.1 ≤ span.base := by
  induction preserved generalizing found with
  | nil => exact ⟨found, rfl, .inl rfl, nofun⟩
  | cons span preserved ih =>
    obtain ⟨hpos, hbounded, hwhole, hapart⟩ := h
    rw [List.forall_mem_cons] at hpos hbounded hwhole
    obtain ⟨found', hfound⟩ : ∃ found', found' = if cursor ≤ span.base ∧ span.base < min stop found.1 then
        (span.base, span.base + span.length) else found := ⟨_, rfl⟩
    have hstep : nextPreserved start stop cursor (span :: preserved) found =
        nextPreserved start stop cursor preserved found' := by
      grind [nextPreserved, checkedAdd, Crosses]
    obtain ⟨r, heq, hr, hfirst⟩ := ih ⟨hpos.2, hbounded.2, hwhole.2, by grind⟩ found'
    exact ⟨r, hstep.trans heq, by grind, by grind⟩

theorem resetGap_apply {next : Nat} (h : start ≤ cursor) (m : ByteMemory) (a : Nat) :
    resetGap object start cursor next m a = if cursor ≤ a ∧ a < next then
      if a - start < object.tlsFilesz then m (object.tlsImage + (a - start)) else 0 else m a := by
  have hindex (ha : cursor ≤ a) : object.tlsImage + (cursor - start) + (a - (start + (cursor - start))) =
      object.tlsImage + (a - start) := by omega
  simp only [resetGap]
  split <;> split <;> grind [fill, copy, mem_mk]

section

variable (himage : Apart ⟨object.tlsImage, object.tlsFilesz⟩ ⟨start, stop - start⟩)
include himage

/-- One round: a gap is reset, and the span behind it is passed over. -/
theorem resetGap_resetUpTo (hstart : start ≤ cursor) {next next' : Nat} (hcursor : cursor ≤ next) (hnext : next ≤ next')
    (hstop : next' ≤ stop) (hgap : ∀ a, cursor ≤ a → a < next' → (a < next ↔ ∀ span ∈ preserved, a ∉ span)) :
    resetGap object start cursor next (resetUpTo object preserved start m cursor) =
      resetUpTo object preserved start m next' := by
  funext a
  have htemplate (hi : a - start < object.tlsFilesz) :
      resetUpTo object preserved start m cursor (object.tlsImage + (a - start)) = m (object.tlsImage + (a - start)) := by
    have hout := himage _ (add_mem hi)
    rw [mem_mk] at hout
    rw [resetUpTo, if_neg (by omega)]
  rw [resetGap_apply hstart]
  by_cases ha : cursor ≤ a <;> grind [resetUpTo]

theorem resetGaps_resets (h : Preserved preserved start stop) (hstart : start ≤ cursor) (hstop : cursor ≤ stop)
    (hcut : ∀ span ∈ preserved, span.base + span.length ≤ cursor ∨ cursor ≤ span.base) {rounds : Nat}
    (hrounds : stop - cursor < rounds) :
    resetGaps object preserved start stop rounds cursor (resetUpTo object preserved start m cursor) =
      some (true, resetUpTo object preserved start m stop) := by
  induction rounds generalizing cursor with
  | zero => omega
  | succ rounds ih =>
    rw [resetGaps]
    split
    case isFalse hend => rw [show cursor = stop by omega]
    case isTrue hlt =>
      obtain ⟨⟨next, protectedEnd⟩, heq, hr, hfirst⟩ := nextPreserved_finds h hstart hlt (stop, stop)
      rw [heq]
      dsimp only at hr hfirst ⊢
      have hgap (a : Nat) (ha : cursor ≤ a) (ha' : a < next) (span : Span) (hspan : span ∈ preserved) : a ∉ span := by
        grind [mem_iff]
      obtain hr | ⟨span, hspan, hr, hcursor, hnext⟩ := hr <;> cases hr
      · rw [if_pos rfl, resetGap_resetUpTo himage hstart hstop le_rfl le_rfl]
        grind
      · have hpos := h.pos span hspan
        have hwhole := h.whole span hspan
        have hapart := h.apart span hspan
        rw [Crosses] at hwhole
        rw [if_neg (by omega), resetGap_resetUpTo himage hstart hcursor (Nat.le_add_right _ span.length) (by omega)]
        · exact ih (by omega) (by omega) (by grind) (by omega)
        · grind [mem_iff]

/-- With write access, the preserved spans stay and all other bytes of the image get their template byte or
    zero.  If a span crosses an end of the image, nothing is written. -/
theorem resetModuleImagePreserving_resets {tp : Nat} (hbounds : moduleImageBounds m tp object = some (start, stop)) :
    (Preserved preserved start stop → resetModuleImagePreserving object preserved m tp true =
      some (true, resetUpTo object preserved start m stop)) ∧
    ∀ span ∈ preserved, Crosses start stop span →
      resetModuleImagePreserving object preserved m tp true = some (false, m) := by
  have hbefore {stop : Nat} (hle : stop ≤ start) : resetUpTo object preserved start m stop = m :=
    funext fun a => if_neg (by omega)
  rw [resetModuleImagePreserving, hbounds]
  refine ⟨fun h => ?_, fun span hspan hcrosses => ?_⟩
  · by_cases hlt : start < stop
    · have hwhole := h.whole
      have hreset := resetGaps_resets himage h (le_refl start) hlt.le (m := m) (by grind [Crosses]) (Nat.lt_add_one _)
      simpa [hlt.ne, hbefore] using hreset
    · grind [resetGaps]
  · have hnone := @nextPreserved_crossed _ _ _ start _ hspan hcrosses (stop, stop)
    simp [resetGaps, hnone, hcrosses.1, hcrosses.1.ne]

end

/-- The image of module 1 of the thread at 100 is at 240, with a template of two bytes at 10. -/
def oneImage : ByteMemory := fun a => if a = 108 then 200 else if a = 116 ∨ a = 208 then 240
  else if a = 200 then 1 else if a = 243 ∨ a = 248 then 4 else 0

theorem resetModuleImagePreserving_resets_oneImage :
    resetModuleImagePreserving ⟨10, 2, 4, 1, 0, 1⟩ [⟨241, 2⟩] oneImage 100 true =
      some (true, resetUpTo ⟨10, 2, 4, 1, 0, 1⟩ [⟨241, 2⟩] 240 oneImage 244) := by
  refine (resetModuleImagePreserving_resets (apart_of_le (by decide)) (by decide)).1 ⟨?_, ?_, ?_, ?_⟩
  all_goals simp [Crosses]

/-- The end of a span that is the end of the address space does not fit a word. -/
theorem resetModuleImagePreserving_last :
    (resetModuleImagePreserving ⟨10, 2, 4, 1, 0, 1⟩ [⟨2 ^ 64 - 1, 1⟩] oneImage 100 true).map
      (fun result => (result.1, result.2 243)) = some (false, 4) := by
  decide

end Crabc.Ldso
