/-
  Crabc.Lib.Postorder

  Depth-first search with an explicit stack, over any graph given by successor lists.
  A frame is a node and the position of its next successor.  A node is entered when a
  frame first meets it and finished when its own frame has met all its successors;
  meeting an entered or a finished node again has no effect, so the search ends on
  graphs with cycles too.  The nodes in the order in which they are finished are the
  postorder.
-/

import Mathlib

namespace Crabc.Lib

variable {ν : Type} (succ : ν → List ν)

/-- There is a path, perhaps an empty one. -/
abbrev Descends : ν → ν → Prop := Relation.ReflTransGen fun a b => b ∈ succ a

/-- The nodes reachable from `root`, each once, every node behind those of its
    successors that do not lead back to it. -/
structure IsPostorder (root : ν) (order : List ν) : Prop where
  nodup : order.Nodup
  mem_iff : ∀ v, v ∈ order ↔ Descends succ root v
  before : ∀ xs v ys, order = xs ++ v :: ys → ∀ w ∈ succ v, w ∈ xs ∨ Descends succ w v

/-- The frames, innermost first, and the nodes finished so far. -/
structure Search (ν : Type) where
  stack : List (ν × Nat)
  finished : List ν

open List

namespace Search

/-- The nodes whose frames are on the stack. -/
def active (s : Search ν) : List ν := s.stack.map Prod.fst

/-- Entered, and perhaps finished. -/
def Met (s : Search ν) (v : ν) : Prop := v ∈ s.active ∨ v ∈ s.finished

/-- One round: the innermost frame meets a new node, meets a node again, or has met all the successors of its own. -/
inductive Step : Search ν → Search ν → Prop
  | enter {v w : ν} {next : Nat} {rest : List (ν × Nat)} {finished : List ν}
      (successor : (succ v)[next]? = some w)
      (fresh : ¬ Met ⟨(v, next) :: rest, finished⟩ w) :
      Step ⟨(v, next) :: rest, finished⟩ ⟨(w, 0) :: (v, next + 1) :: rest, finished⟩
  | skip {v w : ν} {next : Nat} {rest : List (ν × Nat)} {finished : List ν}
      (successor : (succ v)[next]? = some w)
      (again : Met ⟨(v, next) :: rest, finished⟩ w) :
      Step ⟨(v, next) :: rest, finished⟩ ⟨(v, next + 1) :: rest, finished⟩
  | finish {v : ν} {next : Nat} {rest : List (ν × Nat)} {finished : List ν}
      (last : (succ v)[next]? = none) :
      Step ⟨(v, next) :: rest, finished⟩ ⟨rest, finished ++ [v]⟩

/-- What holds of every search from `root`. -/
structure Sound (root : ν) (s : Search ν) : Prop where
  nodup : (s.active ++ s.finished).Nodup
  rootMet : s.Met root
  reached : ∀ v, s.Met v → Descends succ root v
  /-- a frame stands on one that met its node -/
  chained : s.active.IsChain fun above below => above ∈ succ below
  scanned : ∀ v next, (v, next) ∈ s.stack → ∀ w ∈ (succ v).take next, s.Met w
  closed : ∀ v ∈ s.finished, ∀ w ∈ succ v, s.Met w
  before : ∀ xs v ys, s.finished = xs ++ v :: ys → ∀ w ∈ succ v, w ∈ xs ∨ Descends succ w v

variable {succ} {root : ν} {s s' : Search ν}

/-- The search that has entered the root. -/
theorem sound_start : Sound succ root ⟨[(root, 0)], []⟩ where
  nodup := nodup_singleton root
  rootMet := .inl mem_cons_self
  reached := by
    rintro v (hv | hv)
    · rw [mem_singleton.mp hv]
    · cases hv
  chained := List.IsChain.singleton root
  scanned := by
    intro v next hmem w hw
    cases mem_singleton.mp hmem
    cases hw
  closed := by
    intro v hv
    cases hv
  before := by
    intro xs v ys h
    cases xs <;> cases h

/-- A node below another on the stack reaches it. -/
theorem reaches_of_chained {v : ν} {below : List ν} (h : (v :: below).IsChain fun above below => above ∈ succ below) :
    ∀ w ∈ v :: below, Descends succ w v := by
  induction below generalizing v with
  | nil =>
    intro w hw
    rw [mem_singleton.mp hw]
  | cons u below ih =>
    obtain ⟨hedge, htail⟩ := isChain_cons_cons.mp h
    intro w hw
    rcases mem_cons.mp hw with rfl | hw
    · exact .refl
    · exact (ih htail w hw).tail hedge

theorem mem_take_succ {xs : List ν} {next : Nat} {w x : ν} (h : xs[next]? = some w)
    (hx : x ∈ xs.take (next + 1)) : x ∈ xs.take next ∨ x = w := by
  rw [take_add_one, h] at hx
  rcases mem_append.mp hx with hx | hx
  · exact .inl hx
  · exact .inr (mem_singleton.mp hx)

/-- The innermost frame moves on once its successor is met. -/
theorem Sound.advance {v w : ν} {next : Nat} {rest : List (ν × Nat)} {finished : List ν}
    (h : Sound succ root ⟨(v, next) :: rest, finished⟩)
    (hsucc : (succ v)[next]? = some w) (hmet : Met ⟨(v, next) :: rest, finished⟩ w) :
    Sound succ root ⟨(v, next + 1) :: rest, finished⟩ where
  nodup := h.nodup
  rootMet := h.rootMet
  reached := h.reached
  chained := h.chained
  scanned := by
    intro u k hmem x hx
    rcases mem_cons.mp hmem with heq | hmem
    · cases heq
      rcases mem_take_succ hsucc hx with hx | rfl
      · exact h.scanned v next mem_cons_self x hx
      · exact hmet
    · exact h.scanned u k (mem_cons_of_mem _ hmem) x hx
  closed := h.closed
  before := h.before

/-- **One round.**  Every round keeps what holds of the search. -/
theorem Sound.step (h : Sound succ root s) (hstep : Step succ s s') : Sound succ root s' := by
  cases hstep with
  | skip successor again => exact h.advance successor again
  | @enter v w next rest finished successor fresh =>
    have hedge : w ∈ succ v := mem_of_getElem? successor
    have hmet : ∀ x, Met ⟨(v, next) :: rest, finished⟩ x →
        Met ⟨(w, 0) :: (v, next + 1) :: rest, finished⟩ x := fun x hx =>
      hx.imp (mem_cons_of_mem _) id
    have hnew : Met ⟨(w, 0) :: (v, next + 1) :: rest, finished⟩ w := .inl mem_cons_self
    exact
      { nodup := nodup_cons.mpr ⟨fun hw => fresh (mem_append.mp hw), h.nodup⟩
        rootMet := hmet root h.rootMet
        reached := by
          rintro x (hx | hx)
          · rcases mem_cons.mp hx with rfl | hx
            · exact (h.reached v (.inl mem_cons_self)).tail hedge
            · exact h.reached x (.inl hx)
          · exact h.reached x (.inr hx)
        chained := isChain_cons_cons.mpr ⟨hedge, h.chained⟩
        scanned := by
          intro u k hmem x hx
          rcases mem_cons.mp hmem with heq | hmem
          · cases heq
            cases hx
          · rcases mem_cons.mp hmem with heq | hmem
            · cases heq
              rcases mem_take_succ successor hx with hx | rfl
              · exact hmet x (h.scanned v next mem_cons_self x hx)
              · exact hnew
            · exact hmet x (h.scanned u k (mem_cons_of_mem _ hmem) x hx)
        closed := fun u hu x hx => hmet x (h.closed u hu x hx)
        before := h.before }
  | @finish v next rest finished last =>
    have hmet : ∀ x, Met ⟨(v, next) :: rest, finished⟩ x → Met ⟨rest, finished ++ [v]⟩ x := by
      rintro x (hx | hx)
      · rcases mem_cons.mp hx with rfl | hx
        · exact .inr (mem_append_right _ mem_cons_self)
        · exact .inl hx
      · exact .inr (mem_append_left _ hx)
    have hscanned : ∀ w ∈ succ v, Met ⟨(v, next) :: rest, finished⟩ w := by
      intro w hw
      apply h.scanned v next mem_cons_self w
      rw [take_of_length_le (List.getElem?_eq_none_iff.mp last)]
      exact hw
    exact
      { nodup := by
          show (rest.map Prod.fst ++ (finished ++ [v])).Nodup
          rw [← append_assoc]
          exact (perm_append_singleton v _).nodup_iff.mpr h.nodup
        rootMet := hmet root h.rootMet
        reached := by
          rintro x (hx | hx)
          · exact h.reached x (.inl (mem_cons_of_mem _ hx))
          · rcases mem_append.mp hx with hx | hx
            · exact h.reached x (.inr hx)
            · rw [mem_singleton.mp hx]
              exact h.reached v (.inl mem_cons_self)
        chained := List.IsChain.of_cons h.chained
        scanned := fun u k hmem x hx => hmet x (h.scanned u k (mem_cons_of_mem _ hmem) x hx)
        closed := by
          intro u hu x hx
          rcases mem_append.mp hu with hu | hu
          · exact hmet x (h.closed u hu x hx)
          · rw [mem_singleton.mp hu] at hx
            exact hmet x (hscanned x hx)
        before := by
          intro xs u ys hsplit w hw
          rcases eq_nil_or_concat ys with rfl | ⟨ys, y, rfl⟩
          · -- the node that is finished now: a successor on the stack leads back to it
            obtain ⟨rfl, hlast⟩ := append_inj' hsplit rfl
            cases hlast
            rcases hscanned w hw with hactive | hfinished
            · exact .inr (reaches_of_chained h.chained w hactive)
            · exact .inl hfinished
          · have hsplit' : finished ++ [v] = (xs ++ u :: ys) ++ [y] := by
              rw [append_assoc, cons_append]
              exact hsplit.trans (by rw [concat_eq_append])
            exact h.before xs u ys (append_inj' hsplit' rfl).1 w hw }

/-- **The end.**  When no frame is left the finished nodes are the postorder. -/
theorem Sound.postorder (h : Sound succ root s) (hend : s.stack = []) : IsPostorder succ root s.finished := by
  have hactive : s.active = [] := by rw [active, hend, map_nil]
  have hmet : ∀ v, s.Met v ↔ v ∈ s.finished := by
    intro v
    rw [Met, hactive]
    exact or_iff_right not_mem_nil
  refine ⟨?_, fun v => ⟨fun hv => h.reached v ((hmet v).mpr hv), fun hreach => ?_⟩, h.before⟩
  · have := h.nodup
    rwa [hactive] at this
  · induction hreach with
    | refl => exact (hmet root).mp h.rootMet
    | tail _ hedge ih => exact (hmet _).mp (h.closed _ ih _ hedge)

end Search

/-! ## The number of rounds -/

/-- A node less among those that are counted. -/
theorem sum_filter_add_le (cost : ν → Nat) {counted still : ν → Bool}
    (hstill : ∀ v, still v → counted v) {w : ν} (hw : counted w) (hout : ¬ still w)
    {nodes : List ν} (hmem : w ∈ nodes) :
    ((nodes.filter still).map cost).sum + cost w ≤ ((nodes.filter counted).map cost).sum := by
  have hmono : ∀ nodes : List ν, ((nodes.filter still).map cost).sum ≤ ((nodes.filter counted).map cost).sum :=
    fun nodes => ((monotone_filter_right nodes hstill).map cost).sum_le_sum
      fun _ _ => Nat.zero_le _
  induction nodes with
  | nil => cases hmem
  | cons v nodes ih =>
    by_cases hv : v = w
    · rw [hv, filter_cons_of_neg hout, filter_cons_of_pos hw, map_cons, sum_cons]
      have := hmono nodes
      omega
    · have := ih ((mem_cons.mp hmem).resolve_left (Ne.symm hv))
      rw [filter_cons, filter_cons]
      split
      case isTrue hstillv =>
        rw [if_pos (hstill v hstillv), map_cons, map_cons, sum_cons, sum_cons]
        omega
      case isFalse =>
        split
        · rw [map_cons, sum_cons]
          omega
        · exact this

namespace Search

variable [DecidableEq ν]

/-- Neither on the stack nor finished. -/
def unmet (s : Search ν) (v : ν) : Bool := v ∉ s.active && v ∉ s.finished

/-- A bound on the rounds to come: two and one a successor for each node not met, and
    one and one a successor to come for each frame. -/
def budget (nodes : List ν) (s : Search ν) : Nat :=
  ((nodes.filter s.unmet).map fun v => (succ v).length + 2).sum +
    (s.stack.map fun frame => (succ frame.1).length - frame.2 + 1).sum

variable {succ} {s s' : Search ν}

theorem unmet_iff {v : ν} : s.unmet v ↔ ¬ s.Met v := by
  simp [unmet, Met]

/-- **Termination.**  Every round over a list of all nodes costs something. -/
theorem Step.budget_lt {nodes : List ν} (hstep : Step succ s s')
    (hnodes : ∀ v w, w ∈ succ v → w ∈ nodes) : budget succ nodes s' < budget succ nodes s := by
  cases hstep with
  | @enter v w next rest finished successor fresh =>
    have hless := @sum_filter_add_le ν (fun v => (succ v).length + 2)
      (unmet ⟨(v, next) :: rest, finished⟩)
      (unmet ⟨(w, 0) :: (v, next + 1) :: rest, finished⟩)
      (fun x hx => unmet_iff.mpr fun hmet => unmet_iff.mp hx
        (hmet.imp (mem_cons_of_mem _) id)) w
      (unmet_iff.mpr fresh) (fun hw => unmet_iff.mp hw (.inl mem_cons_self)) nodes
      (hnodes v w (mem_of_getElem? successor))
    simp only [budget, map_cons, sum_cons]
    omega
  | @skip v w next rest finished successor again =>
    have hlt := (List.getElem?_eq_some_iff.mp successor).1
    have hsame : unmet ⟨(v, next + 1) :: rest, finished⟩ = unmet ⟨(v, next) :: rest, finished⟩ :=
      rfl
    simp only [budget, hsame, map_cons, sum_cons]
    omega
  | @finish v next rest finished last =>
    have hsame : unmet ⟨rest, finished ++ [v]⟩ = unmet ⟨(v, next) :: rest, finished⟩ := by
      funext x
      rw [Bool.eq_iff_iff, unmet_iff, unmet_iff, not_iff_not]
      simp only [Met, active, map_cons, mem_cons, mem_append]
      tauto
    simp only [budget, hsame, map_cons, sum_cons]
    omega

end Search

end Crabc.Lib
