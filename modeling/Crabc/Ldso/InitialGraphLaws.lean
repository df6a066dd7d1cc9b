/-
  Crabc.Ldso.InitialGraphLaws

  The initial graph over whole transactions.

  All the edges of the graph are one sequence that only grows, and an object owns a
  window of it.  A window that is not the last one is copied to the end before it
  grows, so no window is ever written over, whatever is attached in between and
  wherever storage runs out.
-/

import Crabc.Ldso.InitialGraph

namespace Crabc.Ldso

open Crabc.Lib List GraphRun

namespace InitialGraphState

variable (graph : InitialGraphState)

/-! ## Slots -/

/-- All slots, the one of the main image first. -/
def slots : List ObjectSlot := graph.main :: graph.dependencies.items

variable {index : Nat}

theorem slot_eq : graph.slot index = graph.slots[index]? := by
  cases index with
  | zero => rfl
  | succ index => rfl

theorem objectCount_eq : graph.objectCount = graph.slots.length := Nat.add_comm _ _

variable {slot : ObjectSlot}

theorem slots_setSlot : (graph.setSlot index slot).slots = graph.slots.set index slot := by
  cases index with
  | zero => rfl
  | succ index => rfl

theorem edges_setSlot : (graph.setSlot index slot).edges = graph.edges := by
  cases index with
  | zero => rfl
  | succ index => rfl

/-- `find` misses no slot. -/
theorem notMem_of_find_none {identity : ObjectIdentity} (h : graph.find identity = none) :
    identity ∉ graph.slots.map (·.identity) := by
  rw [find] at h
  split at h
  case isTrue => cases h
  case isFalse hmain =>
    rw [Option.map_eq_none_iff, findIdx?_eq_none_iff] at h
    intro hmem
    obtain ⟨slot, hslot, rfl⟩ := mem_map.mp hmem
    rcases mem_cons.mp hslot with rfl | hslot
    · exact hmain rfl
    · simpa using h slot hslot

/-! ## Windows -/

variable {edges contents : List Nat} {start count : Nat}

section

variable (h : window edges start count = some contents)
include h

/-- What a window holds. -/
theorem window_inside : start + count ≤ edges.length ∧ contents.length = count := by
  rw [window] at h
  split at h
  case isFalse => cases h
  case isTrue hinside =>
    cases h
    refine ⟨hinside, ?_⟩
    rw [length_take, length_drop]
    omega

/-- A window stays what it is when edges are appended. -/
theorem window_append {more : List Nat} : window (edges ++ more) start count = some contents := by
  have hinside := (window_inside h).1
  rw [window, if_pos hinside] at h
  rw [window, if_pos (by rw [length_append]; omega), ← h, drop_append_of_le_length (by omega),
    take_append_of_le_length (by rw [length_drop]; omega)]

/-- The last window takes one more edge. -/
theorem window_push {child : Nat} (hlast : start + count = edges.length) :
    window (edges ++ [child]) start (count + 1) = some (contents ++ [child]) := by
  rw [window, if_pos (Nat.le_of_eq hlast)] at h
  rw [window, if_pos (by rw [length_append, length_singleton]; omega)]
  cases h
  rw [drop_append_of_le_length (by omega), take_of_length_le
      (by rw [length_append, length_drop, length_singleton]; omega),
    take_of_length_le (by rw [length_drop]; omega)]

end

/-- What is appended at the end is the last window. -/
theorem window_end : window (edges ++ contents) edges.length contents.length = some contents := by
  rw [window, if_pos (Nat.le_of_eq length_append.symm), drop_left, take_length]

/-- A move appends the window, or part of it where storage runs out. -/
theorem moveWindow_items {edges : GrowVec Nat}
    (hwindow : window edges.items slot.edgeStart slot.edgeCount = some contents) {answers : Answers} :
    ∃ added, (moveWindow edges slot answers).vec.items = edges.items ++ added ∧
      ((moveWindow edges slot answers).granted → added = contents) := by
  rw [moveWindow]
  have hreserve := edges.reserve_items answers (slot.edgeCount + 1)
  split
  case isFalse hrefused => exact ⟨[], by rw [hreserve, append_nil], fun h => absurd h hrefused⟩
  case isTrue =>
    obtain ⟨added, hitems, hadded⟩ := (edges.reserve (slot.edgeCount + 1) answers).vec.pushEach_items
      (edges.reserve (slot.edgeCount + 1) answers).answers
      (fun edges offset => edges.getD (slot.edgeStart + offset) 0) slot.edgeCount 0
    rw [hreserve] at hitems hadded
    refine ⟨added, hitems, fun hgranted => ?_⟩
    obtain ⟨hlength, heach⟩ := hadded hgranted
    have hinside := (window_inside hwindow).1
    rw [window, if_pos hinside] at hwindow
    cases hwindow
    -- the edge read at `offset` stands in the part that the pushes leave alone
    refine ext_getElem (by rw [length_take, length_drop]; omega) fun k hk hk' => ?_
    have hread := heach k hk
    rw [get_eq_getElem, Nat.zero_add, getD_eq_getElem?_getD,
      List.getElem?_append_left (by omega), List.getElem?_eq_getElem (by omega)] at hread
    rw [hread, getElem_take, getElem_drop]
    rfl

/-! ## What the calls do -/

/-- An admission finds the object, appends a fresh slot or fails. -/
theorem admitWithProvenance_cases (identity : ObjectIdentity) (mapped : Bool) (answers : Answers) :
    (graph.admitWithProvenance identity mapped answers).2.1.edges = graph.edges ∧
      ((graph.admitWithProvenance identity mapped answers).2.1.slots = graph.slots ∨
        identity ∉ graph.slots.map (·.identity) ∧ (graph.admitWithProvenance identity mapped answers).2.1.slots =
            graph.slots ++ [.fresh identity mapped]) := by
  rw [admitWithProvenance]
  cases hfind : graph.find identity with
  | some index =>
    dsimp only
    cases graph.slot index <;> exact ⟨rfl, .inl rfl⟩
  | none =>
    have hpush := graph.dependencies.push_items answers (.fresh identity mapped)
    dsimp only
    split
    case isTrue hgranted =>
      rw [if_pos hgranted] at hpush
      refine ⟨rfl, .inr ⟨graph.notMem_of_find_none hfind, ?_⟩⟩
      show graph.main :: _ = _
      rw [hpush]
      rfl
    case isFalse hrefused =>
      rw [if_neg hrefused] at hpush
      refine ⟨rfl, .inl ?_⟩
      show graph.main :: _ = _
      rw [hpush]
      rfl

/-- An attachment appends to the edges.  A failed one changes nothing else; a successful
    one leaves the parent a window with the child at its end. -/
theorem attachNeeded_cases (parent child : Nat) (answers : Answers)
    (hwindows : ∀ slot, graph.slots[parent]? = some slot →
      ∃ contents, window graph.edges.items slot.edgeStart slot.edgeCount = some contents) :
    ∃ more, (graph.attachNeeded parent child answers).2.1.edges.items = graph.edges.items ++ more ∧
      ((graph.attachNeeded parent child answers).1.isOk = false ∧
          (graph.attachNeeded parent child answers).2.1.slots = graph.slots ∨
        (graph.attachNeeded parent child answers).1.isOk = true ∧ child < graph.slots.length ∧
          ∃ slot start, graph.slots[parent]? = some slot ∧
            (graph.attachNeeded parent child answers).2.1.slots = graph.slots.set parent
              { slot with edgeStart := start, edgeCount := slot.edgeCount + 1 } ∧
            ∀ contents, window graph.edges.items slot.edgeStart slot.edgeCount = some contents →
              window (graph.edges.items ++ more) start (slot.edgeCount + 1) = some (contents ++ [child])) := by
  have hunchanged : graph.edges.items = graph.edges.items ++ [] := (append_nil _).symm
  rw [attachNeeded]
  split
  case isTrue => exact ⟨[], hunchanged, .inl ⟨rfl, rfl⟩⟩
  case isFalse hchild =>
  rw [objectCount_eq, Nat.not_le] at hchild
  cases hslot : graph.slot parent with
  | none => exact ⟨[], hunchanged, .inl ⟨rfl, rfl⟩⟩
  | some slot =>
    rw [slot_eq] at hslot
    obtain ⟨contents, hwindow⟩ := hwindows slot hslot
    dsimp only
    -- the edges before the push of the child
    obtain ⟨moved, hmoved⟩ : ∃ moved, moved =
        if slot.edgeStart + slot.edgeCount = graph.edges.items.length then
          ⟨true, graph.edges, answers⟩
        else moveWindow graph.edges slot answers := ⟨_, rfl⟩
    obtain ⟨start, hstart⟩ : ∃ start, start =
        if slot.edgeStart + slot.edgeCount = graph.edges.items.length then slot.edgeStart
        else graph.edges.items.length := ⟨_, rfl⟩
    rw [← hmoved, ← hstart]
    obtain ⟨added, hadded, hnewest⟩ : ∃ added, moved.vec.items = graph.edges.items ++ added ∧
        (moved.granted → window (graph.edges.items ++ added ++ [child]) start
          (slot.edgeCount + 1) = some (contents ++ [child])) := by
      by_cases hlast : slot.edgeStart + slot.edgeCount = graph.edges.items.length
      · rw [if_pos hlast] at hmoved hstart
        refine ⟨[], by rw [hmoved, ← hunchanged], fun _ => ?_⟩
        rw [← hunchanged, hstart]
        exact window_push hwindow hlast
      · rw [if_neg hlast] at hmoved hstart
        obtain ⟨added, hitems, hall⟩ := moveWindow_items hwindow
        refine ⟨added, by rw [hmoved, hitems], fun hgranted => ?_⟩
        rw [hstart, hall (hmoved ▸ hgranted)]
        have hlength := (window_inside hwindow).2
        apply window_push
        · rw [← hlength]
          exact window_end
        · rw [length_append, hlength]
    split
    case isFalse => exact ⟨added, hadded, .inl ⟨rfl, rfl⟩⟩
    case isTrue hgranted =>
      have hpush := moved.vec.push_items moved.answers child
      split
      case isFalse hrefused =>
        rw [if_neg hrefused, hadded] at hpush
        exact ⟨added, hpush, .inl ⟨rfl, rfl⟩⟩
      case isTrue hpushed =>
        rw [if_pos hpushed, hadded, append_assoc] at hpush
        refine ⟨added ++ [child], ?_, .inr ⟨rfl, hchild, slot, start, hslot, ?_, ?_⟩⟩
        · rw [edges_setSlot]
          exact hpush
        · rw [slots_setSlot]
          rfl
        · intro contents' hcontents
          rw [hwindow] at hcontents
          cases hcontents
          rw [← append_assoc]
          exact hnewest hgranted

/-- The end of a discovery changes the state of a slot at most. -/
theorem finishDiscovery_cases (index : Nat) : (graph.finishDiscovery index).2.edges = graph.edges ∧
      ((graph.finishDiscovery index).2.slots = graph.slots ∨ ∃ slot, graph.slots[index]? = some slot ∧
          (graph.finishDiscovery index).2.slots = graph.slots.set index { slot with state := .ready }) := by
  rw [finishDiscovery]
  cases hslot : graph.slot index with
  | none => exact ⟨rfl, .inl rfl⟩
  | some slot =>
    rw [slot_eq] at hslot
    dsimp only
    split
    · exact ⟨rfl, .inl rfl⟩
    · exact ⟨edges_setSlot _, .inr ⟨slot, hslot, slots_setSlot _⟩⟩

/-! ## The invariant of a transaction -/

/-- No identity stands in two slots, and the window of every object holds the children
    attached to it, all of them objects of the graph. -/
structure Consistent (attached : Nat → List Nat) : Prop where
  distinct : (graph.slots.map (·.identity)).Nodup
  windows : ∀ p slot, graph.slots[p]? = some slot →
    window graph.edges.items slot.edgeStart slot.edgeCount = some (attached p)
  unborn : ∀ p, graph.slots.length ≤ p → attached p = []
  admitted : ∀ p, ∀ child ∈ attached p, child < graph.slots.length

variable {graph} {attached : Nat → List Nat}

theorem Consistent.rollbackToMain (graph : InitialGraphState) : graph.rollbackToMain.2.Consistent fun _ => [] where
  distinct := nodup_singleton _
  windows := by
    intro p slot hslot
    cases p with
    | zero =>
      cases hslot
      rfl
    | succ p => cases hslot
  unborn := fun _ _ => rfl
  admitted := nofun

theorem consistent_new {main : ObjectIdentity} : (new main).Consistent fun _ => [] := .rollbackToMain (new main)

variable {graph' : InitialGraphState}

section

variable (h : graph.Consistent attached)
include h

/-- A slot may change where its identity and its window stay. -/
theorem Consistent.set {slot' : ObjectSlot} (hslot : graph.slots[index]? = some slot)
    (hslots : graph'.slots = graph.slots.set index slot') (hid : slot'.identity = slot.identity)
    {attached' : Nat → List Nat} (hothers : ∀ p, p ≠ index → attached' p = attached p)
    (hwindows : ∀ start count contents, window graph.edges.items start count = some contents →
        window graph'.edges.items start count = some contents)
    (hwindow : window graph'.edges.items slot'.edgeStart slot'.edgeCount = some (attached' index))
    (hadmitted : ∀ child ∈ attached' index, child < graph.slots.length) : graph'.Consistent attached' where
  distinct := by
    have hsame : graph'.slots.map (·.identity) = graph.slots.map (·.identity) := by
      rw [hslots, map_set, hid]
      apply ext_getElem?
      intro i
      rw [List.getElem?_set]
      split
      case isFalse => rfl
      case isTrue heq =>
        subst heq
        rw [length_map, if_pos (List.getElem?_eq_some_iff.mp hslot).1, List.getElem?_map, hslot]
        rfl
    rw [hsame]
    exact h.distinct
  windows := by
    intro p slot'' hp
    rw [hslots, List.getElem?_set] at hp
    split at hp
    case isTrue heq =>
      subst heq
      rw [if_pos (List.getElem?_eq_some_iff.mp hslot).1] at hp
      cases hp
      exact hwindow
    case isFalse hne =>
      rw [hothers p (Ne.symm hne)]
      exact hwindows _ _ _ (h.windows p slot'' hp)
  unborn := by
    intro p hp
    rw [hslots, List.length_set] at hp
    have hlt := (List.getElem?_eq_some_iff.mp hslot).1
    rw [hothers p (by omega)]
    exact h.unborn p hp
  admitted := by
    intro p child hchild
    rw [hslots, List.length_set]
    by_cases hp : p = index
    · exact hadmitted child (hp ▸ hchild)
    · rw [hothers p hp] at hchild
      exact h.admitted p child hchild

/-- Edges may be appended. -/
theorem Consistent.extend (hslots : graph'.slots = graph.slots) (more : List Nat)
    (hedges : graph'.edges.items = graph.edges.items ++ more) : graph'.Consistent attached where
  distinct := hslots ▸ h.distinct
  windows := fun p slot hp => by
    rw [hedges]
    exact window_append (h.windows p slot (hslots ▸ hp))
  unborn := fun p hp => h.unborn p (hslots ▸ hp)
  admitted := fun p child hchild => hslots ▸ h.admitted p child hchild

theorem Consistent.admitWithProvenance (identity : ObjectIdentity) (mapped : Bool) (answers : Answers) :
    (graph.admitWithProvenance identity mapped answers).2.1.Consistent attached := by
  obtain ⟨hedges, hsame | ⟨hnew, hslots⟩⟩ :=
    graph.admitWithProvenance_cases identity mapped answers
  · exact h.extend hsame [] (by rw [hedges, append_nil])
  · have hlength : (graph.admitWithProvenance identity mapped answers).2.1.slots.length = graph.slots.length + 1 := by
      rw [hslots, length_append, length_singleton]
    refine ⟨?_, ?_, fun p hp => h.unborn p (by omega), fun p child hchild => ?_⟩
    · rw [hslots, map_append]
      refine nodup_append.mpr ⟨h.distinct, nodup_singleton _, fun a ha b hb heq => ?_⟩
      have hidentity : b = identity := mem_singleton.mp hb
      exact hnew (hidentity ▸ heq ▸ ha)
    · intro p slot hp
      rw [hedges]
      rw [hslots, List.getElem?_append] at hp
      split at hp
      · exact h.windows p slot hp
      case isFalse hbeyond =>
        -- the fresh slot, whose window is empty
        have hfresh : slot = .fresh identity mapped :=
          mem_singleton.mp (mem_of_getElem? hp)
        rw [hfresh, h.unborn p (by omega)]
        exact if_pos (Nat.zero_le _)
    · have := h.admitted p child hchild
      omega

theorem Consistent.finishDiscovery (index : Nat) : (graph.finishDiscovery index).2.Consistent attached := by
  obtain ⟨hedges, hsame | ⟨slot, hslot, hslots⟩⟩ := graph.finishDiscovery_cases index
  · exact h.extend hsame [] (by rw [hedges, append_nil])
  · refine h.set hslot hslots rfl (fun _ _ => rfl) (fun _ _ _ hw => hedges ▸ hw) ?_ (h.admitted index)
    rw [hedges]
    exact h.windows index slot hslot

end

/-- An attachment adds the child to its parent when it succeeds, and to no other object. -/
theorem Consistent.attachNeeded (h : graph.Consistent attached) (parent child : Nat)
    (answers : Answers) : (graph.attachNeeded parent child answers).2.1.Consistent fun p =>
      if (graph.attachNeeded parent child answers).1.isOk ∧ parent = p then attached p ++ [child]
      else attached p := by
  obtain ⟨more, hedges, ⟨hfailed, hslots⟩ | ⟨hok, hchild, slot, start, hslot, hslots, hwindow⟩⟩ :=
    graph.attachNeeded_cases parent child answers fun slot hslot =>
      ⟨_, h.windows parent slot hslot⟩
  · rw [hfailed]
    simpa using h.extend hslots more hedges
  · rw [hok]
    refine h.set hslot hslots rfl (fun p hp => if_neg fun heq => hp heq.2.symm) ?_ ?_ ?_
    · intro start count contents hcontents
      rw [hedges]
      exact window_append hcontents
    · rw [if_pos ⟨rfl, rfl⟩, hedges]
      exact hwindow _ (h.windows parent slot hslot)
    · intro c hc
      rw [if_pos ⟨rfl, rfl⟩] at hc
      rcases mem_append.mp hc with hc | hc
      · exact h.admitted parent c hc
      · exact mem_singleton.mp hc ▸ hchild

end InitialGraphState

/-- **One call** keeps the graph consistent with the log. -/
theorem GraphRun.call_consistent {run : GraphRun} {call : GraphCall}
    (h : run.graph.Consistent fun p => attachedTo p run.log) :
    (run.call call).graph.Consistent fun p => attachedTo p (run.call call).log := by
  have hlog : ∀ p, attachedTo p (run.call call).log =
      attachedNext p (attachedTo p run.log) (call, (call.perform run.graph run.answers).1) := by
    intro p
    exact foldl_append
  simp only [hlog]
  cases call with
  | admitMapped identity => exact h.admitWithProvenance identity true run.answers
  | admitInterpreter identity => exact h.admitWithProvenance identity false run.answers
  | finishDiscovery index => exact h.finishDiscovery index
  | rollbackToMain => exact InitialGraphState.Consistent.rollbackToMain run.graph
  | attachNeeded parent child =>
    have hattach := h.attachNeeded parent child run.answers
    have hsame : ∀ p, attachedNext p (attachedTo p run.log) (.attachNeeded parent child,
          ((GraphCall.attachNeeded parent child).perform run.graph run.answers).1) =
        if (run.graph.attachNeeded parent child run.answers).1.isOk ∧ parent = p then
          attachedTo p run.log ++ [child] else attachedTo p run.log := by
      intro p
      show attachedNext p _ (_, (run.graph.attachNeeded parent child run.answers).1.isOk) = _
      cases (run.graph.attachNeeded parent child run.answers).1.isOk with
      | true => simp [attachedNext]
      | false => simp [attachedNext]
    simp only [hsame]
    exact hattach

/-- **Whole transactions** keep it. -/
theorem runCalls_consistent {main : ObjectIdentity} {answers : Answers} {calls : List GraphCall} :
    (runCalls main answers calls).graph.Consistent fun p =>
      attachedTo p (runCalls main answers calls).log := by
  have hrun : ∀ run : GraphRun, (run.graph.Consistent fun p => attachedTo p run.log) →
      (calls.foldl call run).graph.Consistent fun p =>
        attachedTo p (calls.foldl call run).log := by
    induction calls with
    | nil => exact fun _ h => h
    | cons call calls ih => exact fun run h => ih (run.call call) (call_consistent h)
  exact hrun _ InitialGraphState.consistent_new

end Crabc.Ldso
