/-
  Crabc.Ldso.InitialTlsPlan

  What the plan of the initial TLS leaves in the object table, and what the layout of a
  thread's block reads off it.

  The modules stand one below the other under the thread pointer.  The distance of each
  makes up for the phase of its image: it and the address of the image add up to a
  multiple of the alignment.
-/

import Crabc.Ldso.InitialTls

namespace Crabc.Ldso

open Crabc.Lib Nat

/-- The objects that have a TLS image. -/
def tlsModules (objects : List TlsObject) : List TlsObject :=
  objects.filter (·.tlsMemsz ≠ 0)

variable {object : TlsObject} {objects : List TlsObject} {reach : Nat}

open List

theorem mem_tlsModules : object ∈ tlsModules objects ↔ object ∈ objects ∧ object.tlsMemsz ≠ 0 := by
  rw [tlsModules, mem_filter, decide_eq_true_iff]

theorem tlsModules_skip (objects : List TlsObject) (h : object.tlsMemsz = 0) :
    tlsModules (object :: objects) = tlsModules objects :=
  filter_cons_of_neg (by simpa using h)

theorem tlsModules_take (objects : List TlsObject) (h : object.tlsMemsz ≠ 0) :
    tlsModules (object :: objects) = object :: tlsModules objects :=
  filter_cons_of_pos (by simpa using h)

/-! ## The plan -/

/-- A module with a valid image at a distance that fits the image. -/
structure TlsObject.Sited (object : TlsObject) : Prop where
  filesz_le : object.tlsFilesz ≤ object.tlsMemsz
  aligned : object.tlsAlign.isPowerOfTwo
  memsz_le : object.tlsMemsz ≤ object.tlsOffsetBelowTp
  phased : object.tlsAlign ∣ object.tlsOffsetBelowTp + object.tlsImage

/-- The modules stand one below the other, all below `reach` bytes under the thread pointer. -/
def Stacked : Nat → List TlsObject → Prop
  | _, [] => True
  | reach, object :: objects =>
    object.Sited ∧ reach + object.tlsMemsz ≤ object.tlsOffsetBelowTp ∧ Stacked object.tlsOffsetBelowTp objects

theorem Stacked.below (h : Stacked reach objects) :
    ∀ object ∈ objects, object.Sited ∧ reach + object.tlsMemsz ≤ object.tlsOffsetBelowTp := by
  induction objects generalizing reach with
  | nil => exact nofun
  | cons head objects ih =>
    obtain ⟨hsited, hreach, hrest⟩ := h
    intro object hmem
    rcases mem_cons.mp hmem with rfl | hmem
    · exact ⟨hsited, hreach⟩
    · obtain ⟨hobject, hbelow⟩ := ih hrest object hmem
      exact ⟨hobject, by omega⟩

theorem Stacked.pairwise (h : Stacked reach objects) :
    objects.Pairwise fun a b => a.tlsOffsetBelowTp + b.tlsMemsz ≤ b.tlsOffsetBelowTp := by
  induction objects generalizing reach with
  | nil => exact .nil
  | cons object objects ih =>
    exact pairwise_cons.mpr ⟨fun b hb => (h.2.2.below b hb).2, ih h.2.2⟩

/-- The slack of the formula is less than an alignment, and the phase makes the distance and the image add up. -/
theorem placeBelowTp_spec {offset : Nat} (haligned : object.tlsAlign.isPowerOfTwo)
    (h : placeBelowTp reach object = some offset) :
    reach + object.tlsMemsz ≤ offset ∧ object.tlsAlign ∣ offset + object.tlsImage := by
  have hpos : 0 < object.tlsAlign := pos_of_isPowerOfTwo haligned
  simp only [placeBelowTp, Option.bind_eq_bind, Option.bind_eq_some_iff,
    Usize.checkedAdd_eq_some, Usize.checkedSub_eq_some, Usize.phase_eq_mod haligned] at h
  obtain ⟨_, ⟨-, rfl⟩, slack, ⟨-, hslack⟩, phased, ⟨-, rfl⟩, _, ⟨hle, rfl⟩, h⟩ := h
  split at h
  case isTrue => cases h
  case isFalse =>
    cases h
    have hlt := mod_lt (slack + object.tlsImage % object.tlsAlign) hpos
    refine ⟨by omega, ?_⟩
    rw [add_mod_mod] at hle ⊢
    have hsum : slack - (slack + object.tlsImage) % object.tlsAlign + object.tlsImage =
        slack + object.tlsImage - (slack + object.tlsImage) % object.tlsAlign := by omega
    rw [hsum]
    exact dvd_sub_mod _

/-- What the loop plans for the objects from `index` on. -/
inductive PlannedFrom : Nat → Nat → List TlsObject → List (Nat × Nat) → Prop
  | nil (index reach : Nat) : PlannedFrom index reach [] []
  | skip {index reach : Nat} {object : TlsObject} {objects : List TlsObject}
      {planned : List (Nat × Nat)} (empty : object.tlsMemsz = 0)
      (rest : PlannedFrom (index + 1) reach objects planned) :
      PlannedFrom index reach (object :: objects) planned
  | place {index reach offset : Nat} {object : TlsObject} {objects : List TlsObject}
      {planned : List (Nat × Nat)} (nonempty : object.tlsMemsz ≠ 0)
      (filesz_le : object.tlsFilesz ≤ object.tlsMemsz) (aligned : object.tlsAlign.isPowerOfTwo)
      (placed : placeBelowTp reach object = some offset)
      (rest : PlannedFrom (index + 1) offset objects planned) :
      PlannedFrom index reach (object :: objects) ((index, offset) :: planned)

variable {index : Nat} {planning planning' : TlsPlanning}

/-- One object. -/
theorem planObject_ok (h : planObject planning index object = .ok planning') :
    object.tlsMemsz = 0 ∧ planning' = planning ∨
      object.tlsMemsz ≠ 0 ∧ object.tlsFilesz ≤ object.tlsMemsz ∧ object.tlsAlign.isPowerOfTwo ∧
        ∃ offset, placeBelowTp planning.offsetBelowTp object = some offset ∧ planning'.offsetBelowTp = offset ∧
          planning'.planned.items = planning.planned.items ++ [(index, offset)] := by
  rw [planObject] at h
  split at h
  case isTrue hempty =>
    cases h
    exact .inl ⟨hempty, rfl⟩
  case isFalse hnonempty =>
  split at h
  case isTrue => cases h
  case isFalse hvalid =>
  push Not at hvalid
  cases hplaced : placeBelowTp planning.offsetBelowTp object with
  | none =>
    rw [hplaced] at h
    cases h
  | some offset =>
  rw [hplaced] at h
  cases hassigned : planning.registry.assignInitial index planning.answers with
  | none =>
    rw [hassigned] at h
    cases h
  | some assigned =>
  rw [hassigned] at h
  dsimp only at h
  split at h
  case isTrue => cases h
  case isFalse =>
  split at h
  case isFalse => cases h
  case isTrue hgranted =>
  cases h
  refine .inr ⟨hnonempty, hvalid.2.1, hvalid.2.2.2, offset, rfl, rfl, ?_⟩
  rw [GrowVec.push_items, if_pos hgranted]

/-- The whole loop. -/
theorem planObjects_ok (h : planObjects index objects planning = .ok planning') :
    ∃ planned, planning'.planned.items = planning.planned.items ++ planned ∧
      PlannedFrom index planning.offsetBelowTp objects planned := by
  induction objects generalizing index planning with
  | nil =>
    cases h
    exact ⟨[], (append_nil _).symm, .nil _ _⟩
  | cons object objects ih =>
    rw [planObjects] at h
    cases hobject : planObject planning index object with
    | error e =>
      rw [hobject] at h
      cases h
    | ok next =>
      rw [hobject] at h
      obtain ⟨planned, hplanned, hrest⟩ := ih h
      rcases planObject_ok hobject with ⟨hempty, rfl⟩ |
        ⟨hnonempty, hfilesz, haligned, offset, hplaced, hoffset, hitems⟩
      · exact ⟨planned, hplanned, .skip hempty hrest⟩
      · refine ⟨(index, offset) :: planned, ?_, .place hnonempty hfilesz haligned hplaced ?_⟩
        · rw [hplanned, hitems, append_assoc]
          rfl
        · rw [← hoffset]
          exact hrest

theorem modify_length {α : Type} (xs : List α) (x : α) (ys : List α) (f : α → α) :
    (xs ++ x :: ys).modify xs.length f = xs ++ f x :: ys := by
  induction xs with
  | nil => rfl
  | cons y xs ih => simp [ih]

/-- The second pass, from module `count + 1` and object `index` on. -/
theorem PlannedFrom.attach {planned : List (Nat × Nat)}
    (h : PlannedFrom index reach objects planned) (settled : List TlsObject) (hsettled : settled.length = index)
    (count : Nat) :
    ∃ attached, (planned.zipIdx count).foldl attachModule (settled ++ clearModules objects) =
        settled ++ attached ∧ Stacked reach (tlsModules attached) := by
  induction h generalizing settled count with
  | nil => exact ⟨[], rfl, trivial⟩
  | @skip index reach object objects planned empty _ ih =>
    obtain ⟨attached, hattached, hstacked⟩ :=
      ih (settled ++ [object.placed 0 0]) (by simp [hsettled]) count
    refine ⟨object.placed 0 0 :: attached, ?_, ?_⟩
    · rw [append_cons settled, ← hattached, append_assoc]
      rfl
    · rw [@tlsModules_skip (object.placed 0 0) attached empty]
      exact hstacked
  | @place index reach offset object objects planned nonempty filesz_le aligned placed _ ih =>
    obtain ⟨hreach, hphased⟩ := placeBelowTp_spec aligned placed
    obtain ⟨attached, hattached, hstacked⟩ :=
      ih (settled ++ [object.placed offset (count + 1)]) (by simp [hsettled]) (count + 1)
    refine ⟨object.placed offset (count + 1) :: attached, ?_, ?_⟩
    · have hwrite : attachModule (settled ++ clearModules (object :: objects))
          ((index, offset), count) = settled ++ [object.placed offset (count + 1)] ++ clearModules objects := by
        rw [attachModule, ← hsettled, clearModules, map_cons, modify_length]
        simp [clearModules, TlsObject.placed]
      rw [zipIdx_cons, foldl_cons, hwrite, hattached, append_assoc]
      rfl
    · rw [@tlsModules_take (object.placed offset (count + 1)) attached nonempty]
      exact ⟨⟨filesz_le, aligned, le_trans (le_add_left _ _) hreach, hphased⟩, hreach, hstacked⟩

/-- **The plan.**  The modules of an accepted table stand one below the other. -/
theorem planInitialTls_stacked {state state' : InitialTlsState} {answers : Answers}
    {hasTls : Bool} (h : planInitialTls state answers = .ok (hasTls, state')) :
    Stacked 0 (tlsModules state'.objects) := by
  rw [planInitialTls] at h
  split at h
  case isTrue => cases h
  case isFalse =>
  split at h
  case isTrue => cases h
  case isFalse =>
  split at h
  case isTrue => cases h
  case isFalse =>
  cases hplanning : planObjects 0 state.objects ⟨.empty, 0, .new, false, answers⟩ with
  | error e =>
    rw [hplanning] at h
    cases h
  | ok planning =>
  rw [hplanning] at h
  change (if _ then _ else _) = _ at h
  split at h
  case isTrue => cases h
  case isFalse =>
  cases h
  obtain ⟨planned, hplanned, hfrom⟩ := planObjects_ok hplanning
  obtain ⟨attached, hattached, hstacked⟩ := hfrom.attach [] rfl 0
  show Stacked 0 (tlsModules (attachModules planning.planned.items (clearModules state.objects)))
  rw [hplanned, attachModules]
  change planned.zipIdx.foldl attachModule (clearModules state.objects) = attached at hattached
  change Stacked 0 (tlsModules (planned.zipIdx.foldl attachModule (clearModules state.objects)))
  rw [hattached]
  exact hstacked

end Crabc.Ldso
