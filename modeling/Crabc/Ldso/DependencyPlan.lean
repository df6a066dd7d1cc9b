/-
  Crabc.Ldso.DependencyPlan

  The order in which the constructors of the initial objects run.

  `dependency_first_plan` is the depth-first search of `Lib.Postorder` over the edges
  of the graph, with the main image as its root: the marks say which objects are on
  the stack and which are finished, and the plan is the finished objects without the
  main image.
-/

import Crabc.Lib.Postorder
import Crabc.Ldso.InitialGraphLaws

namespace Crabc.Ldso

open Crabc.Lib List Search GrowVec

namespace InitialGraphState

variable (graph : InitialGraphState)

/-- The dependencies of an object. -/
def needed (index : Nat) : List Nat := (graph.edgesOf index).getD []

/-- All objects that the main image needs, directly or not, each once, every object
    behind those of its dependencies that do not need it in turn. -/
structure DependencyFirst (plan : List Nat) : Prop where
  nodup : plan.Nodup
  mem_iff : ∀ index, index ∈ plan ↔ index ≠ 0 ∧ Descends graph.needed 0 index
  before : ∀ xs index ys, plan = xs ++ index :: ys → ∀ dependency ∈ graph.needed index,
    dependency ∈ xs ∨ Descends graph.needed dependency index

/-- A plan is dependency first; only a refused request for storage fails. -/
def Planned (answers : Answers) : Except GraphStateError (List Nat) → Prop
  | .ok plan => graph.DependencyFirst plan
  | .error error => error = .objectCapacity ∧ ¬ answers.Generous

/-- The postorder without its root. -/
theorem dependencyFirst_of_isPostorder {order : List Nat}
    (h : IsPostorder graph.needed 0 order) : graph.DependencyFirst (order.filter (· ≠ 0)) where
  nodup := h.nodup.filter _
  mem_iff := by
    intro index
    rw [mem_filter, h.mem_iff, decide_eq_true_iff]
    exact and_comm
  before := by
    intro xs index ys hsplit dependency hdependency
    obtain ⟨front, rest, rfl, rfl, hrest⟩ := filter_eq_append_iff.mp hsplit
    obtain ⟨between, tail, rfl, hbetween, hindex, rfl⟩ := filter_eq_cons_iff.mp hrest
    have hbefore := h.before (front ++ between) index tail (by rw [append_assoc]) dependency
      hdependency
    rcases hbefore with hmem | hreaches
    · by_cases hzero : dependency = 0
      · -- the root reaches every object of the order
        have hindex : index ∈ front ++ (between ++ index :: tail) := by simp
        exact .inr (hzero ▸ (h.mem_iff index).mp hindex)
      · refine .inl (mem_filter.mpr ⟨?_, decide_eq_true hzero⟩)
        rcases mem_append.mp hmem with hmem | hmem
        · exact hmem
        · exact absurd (decide_eq_true hzero) (hbetween dependency hmem)
    · exact .inr hreaches

/-! ## The simulation -/

/-- The mark of an object in a search. -/
def markOf (search : Search Nat) (index : Nat) : VisitMark :=
  if index ∈ search.active then .active
  else if index ∈ search.finished then .done
  else .unvisited

/-- What the loop carries is a search. -/
structure Simulates (visit : PlanState) (search : Search Nat) : Prop where
  stack : visit.stack.items = search.stack.reverse
  marks : visit.marks = (List.range graph.objectCount).map (markOf search)
  plan : visit.plan.items = search.finished.filter (· ≠ 0)
  inside : ∀ index ∈ search.active, index < graph.objectCount

variable {graph} {visit : PlanState} {search : Search Nat} {index : Nat} {search' : Search Nat}

theorem Simulates.getElem?_marks (h : graph.Simulates visit search)
    (hindex : index < graph.objectCount) : visit.marks[index]? = some (markOf search index) := by
  rw [h.marks, getElem?_map, getElem?_range hindex]
  rfl

theorem marks_set {mark : VisitMark} (hmark : markOf search' index = mark)
    (hothers : ∀ i, i ≠ index → markOf search' i = markOf search i) (count : Nat) :
    ((range count).map (markOf search)).set index mark = (range count).map (markOf search') := by
  apply ext_getElem (by simp)
  intro i hi hi'
  rw [getElem_set]
  split
  case isTrue heq =>
    subst heq
    rw [getElem_map, getElem_range, hmark]
  case isFalse hne =>
    rw [getElem_map, getElem_map, getElem_range, hothers i (Ne.symm hne)]

/-- The marks of a search are told by what it met. -/
theorem markOf_congr (hactive : index ∈ search'.active ↔ index ∈ search.active)
    (hfinished : index ∈ search'.finished ↔ index ∈ search.finished) :
    markOf search' index = markOf search index := by
  simp only [markOf, hactive, hfinished]

variable (graph) in
/-- What the plan asks of the graph: every object is ready and has its dependencies,
    objects of the graph themselves. -/
structure Complete : Prop where
  ready : ∀ index, index < graph.objectCount → graph.state index = some .ready
  edges : ∀ index, index < graph.objectCount → graph.edgesOf index = some (graph.needed index)
  inside : ∀ index, ∀ dependency ∈ graph.needed index, dependency < graph.objectCount

variable (graph) in
/-- What a round does in terms of the search. -/
inductive RoundOf (visit : PlanState) (search : Search Nat) :
    Next PlanState (Except GraphStateError (List Nat)) → Prop
  | again {visit' : PlanState} {search' : Search Nat}
      (step : Search.Step graph.needed search search') (simulates : graph.Simulates visit' search')
      (generous : visit.answers.Generous → visit'.answers.Generous) :
      RoundOf visit search (.again visit')
  | finished (empty : search.stack = []) : RoundOf visit search (.done (.ok visit.plan.items))
  | refused (refusal : ¬ visit.answers.Generous) :
      RoundOf visit search (.done (.error .objectCapacity))

/-- The edge to `child` is followed, or passed over when the child was met before. -/
theorem roundOf_enter (hgraph : graph.Complete) {v next child : Nat} {rest : List (Nat × Nat)}
    {finished : List Nat} {stack : GrowVec (Nat × Nat)}
    (h : graph.Simulates visit ⟨(v, next) :: rest, finished⟩) (hchild : (graph.needed v)[next]? = some child)
    (hstack : stack.items = rest.reverse ++ [(v, next + 1)]) :
    graph.RoundOf visit ⟨(v, next) :: rest, finished⟩
      (match graph.enterDependency child { visit with stack } with
      | .ok visit => .again visit
      | .error error => .done (.error error)) := by
  have hcount : child < graph.objectCount := hgraph.inside v child (mem_of_getElem? hchild)
  have hmark : visit.marks[child]? = some (markOf ⟨(v, next) :: rest, finished⟩ child) :=
    h.getElem?_marks hcount
  have hstack' : stack.items = ((v, next + 1) :: rest).reverse := by rw [hstack, reverse_cons]
  -- an object that was met before is passed over
  have hskip (hmet : Search.Met ⟨(v, next) :: rest, finished⟩ child) :
      graph.RoundOf visit ⟨(v, next) :: rest, finished⟩ (.again { visit with stack }) :=
    .again (.skip hchild hmet) ⟨hstack', h.marks, h.plan, h.inside⟩ id
  rw [enterDependency]
  rw [hmark, markOf]
  by_cases hactive : child ∈ active ⟨(v, next) :: rest, finished⟩
  · rw [if_pos hactive]
    exact hskip (.inl hactive)
  by_cases hfinished : child ∈ finished
  · rw [if_neg hactive, if_pos hfinished]
    exact hskip (.inr hfinished)
  rw [if_neg hactive, if_neg hfinished]
  dsimp only
  rw [if_neg (not_not.mpr (hgraph.ready child hcount))]
  have hdrawn := stack.push_drawn visit.answers (child, 0)
  have hitems := stack.push_items visit.answers (child, 0)
  cases hgranted : (stack.push (child, 0) visit.answers).granted with
  | false => exact .refused (hdrawn.refused hgranted)
  | true =>
    rw [hgranted, if_pos rfl, hstack'] at hitems
    refine .again (.enter hchild fun hmet => hmet.elim hactive hfinished) ⟨?_, ?_, h.plan, ?_⟩
      hdrawn.left
    · rw [reverse_cons]
      exact hitems
    · show visit.marks.set child .active = _
      rw [h.marks]
      refine marks_set ?_ (fun i hi => ?_) _
      · exact if_pos mem_cons_self
      · exact markOf_congr (by simp [active, hi]) Iff.rfl
    · intro i hi
      rcases mem_cons.mp hi with rfl | hi
      · exact hcount
      · exact h.inside i hi

section

variable (hgraph : graph.Complete) (hsound : Search.Sound graph.needed 0 search)
  (h : graph.Simulates visit search)
include hgraph hsound h

/-- **One round** of the loop is one of the search. -/
theorem planRound_roundOf : graph.RoundOf visit search (graph.planRound visit) := by
  obtain ⟨stack, finished⟩ := search
  rw [planRound]
  cases stack with
  | nil =>
    have hnil : visit.stack.items = [] := h.stack
    rw [hnil]
    exact .finished rfl
  | cons frame rest =>
    obtain ⟨v, next⟩ := frame
    have hitems : visit.stack.items = rest.reverse ++ [(v, next)] := by rw [h.stack, reverse_cons]
    have hv : v < graph.objectCount := h.inside v mem_cons_self
    have hpopped : (visit.stack.truncate (visit.stack.items.length - 1)).items = rest.reverse := by
      rw [items_truncate, hitems]
      simp
    rw [show visit.stack.items.getLast? = some (v, next) by rw [hitems]; simp]
    dsimp only
    rw [hgraph.edges v hv]
    dsimp only
    cases hchild : (graph.needed v)[next]? with
    | some child =>
      apply roundOf_enter hgraph h hchild
      rw [items_write, hpopped]
    | none =>
      have hmarks : visit.marks.set v .done = (range graph.objectCount).map (markOf ⟨rest, finished ++ [v]⟩) := by
        -- no other frame is one of `v`
        have hnodup := (nodup_cons.mp hsound.nodup).1
        have hgone : v ∉ active ⟨rest, finished ++ [v]⟩ := fun hmem =>
          hnodup (mem_append_left _ hmem)
        rw [h.marks]
        apply marks_set
        · rw [markOf, if_neg hgone, if_pos (mem_append_right _ mem_cons_self)]
        · intro i hi
          exact markOf_congr (by simp [active, hi]) (by simp [hi])
      have hinside : ∀ i ∈ active ⟨rest, finished ++ [v]⟩, i < graph.objectCount :=
        fun i hi => h.inside i (mem_cons_of_mem _ hi)
      by_cases hmain : v = 0
      · rw [if_neg (not_not.mpr hmain)]
        refine .again (.finish hchild) ⟨hpopped, hmarks, ?_, hinside⟩ id
        rw [h.plan, filter_append]
        simp [hmain]
      · rw [if_pos hmain]
        have hdrawn := visit.plan.push_drawn visit.answers v
        have hplan := visit.plan.push_items visit.answers v
        cases hgranted : (visit.plan.push v visit.answers).granted with
        | false => exact .refused (hdrawn.refused hgranted)
        | true =>
          rw [hgranted, if_pos rfl, h.plan] at hplan
          refine .again (.finish hchild) ⟨hpopped, hmarks, ?_, hinside⟩ hdrawn.left
          simpa [hmain] using hplan

/-- The loop ends in a plan, unless storage is refused. -/
theorem loop_planned {answers : Answers} (hanswers : answers.Generous → visit.answers.Generous) (fuel : Nat)
    (hfuel : search.budget graph.needed (range graph.objectCount) < fuel) :
    ∃ result, loop graph.planRound fuel visit = some result ∧ graph.Planned answers result := by
  refine loop_refines graph.planRound
    (fun visit search => Search.Sound graph.needed 0 search ∧ graph.Simulates visit search ∧
      (answers.Generous → visit.answers.Generous))
    (budget graph.needed (range graph.objectCount)) (graph.Planned answers) ?_ ?_ fuel
    visit search ⟨hsound, h, hanswers⟩ hfuel
  · rintro visit search visit' ⟨hsound, h, hanswers⟩ hround
    have hspec := planRound_roundOf hgraph hsound h
    rw [hround] at hspec
    cases hspec with
    | again step simulates generous =>
      exact ⟨_, ⟨hsound.step step, simulates, fun hg => generous (hanswers hg)⟩,
        step.budget_lt fun v w hw => mem_range.mpr (hgraph.inside v w hw)⟩
  · rintro visit search result ⟨hsound, h, hanswers⟩ hround
    have hspec := planRound_roundOf hgraph hsound h
    rw [hround] at hspec
    cases hspec with
    | finished empty =>
      rw [h.plan]
      exact graph.dependencyFirst_of_isPostorder (hsound.postorder empty)
    | refused refusal => exact ⟨rfl, fun hg => refusal (hanswers hg)⟩

end

/-- **The plan** of a complete graph. -/
theorem dependencyFirstPlan_planned (hgraph : graph.Complete) (answers : Answers) : ∃ rounds, ∀ fuel, rounds < fuel →
      ∃ result, graph.dependencyFirstPlan answers fuel = some result ∧ graph.Planned answers result := by
  refine ⟨budget graph.needed (range graph.objectCount) ⟨[(0, 0)], []⟩,
    fun fuel hfuel => ?_⟩
  have hready : ¬ ((range graph.objectCount).any fun index =>
      graph.state index ≠ some .ready) = true := by
    rw [any_eq_true]
    rintro ⟨index, hindex, hnot⟩
    exact of_decide_eq_true hnot (hgraph.ready index (mem_range.mp hindex))
  rw [dependencyFirstPlan]
  dsimp only
  rw [if_neg hready]
  have hreserve := (empty : GrowVec VisitMark).reserve_items answers graph.objectCount
  have hreserved := (empty : GrowVec VisitMark).reserve_drawn answers graph.objectCount
  generalize (empty : GrowVec VisitMark).reserve graph.objectCount answers = reserved at *
  cases hgranted : reserved.granted with
  | false => exact ⟨_, rfl, rfl, hreserved.refused hgranted⟩
  | true =>
  obtain ⟨marks, hitems, hall⟩ := reserved.vec.pushEach_items reserved.answers
    (fun _ _ => VisitMark.unvisited) graph.objectCount 0
  have hpushed := reserved.vec.pushEach_drawn reserved.answers
    (fun _ _ => VisitMark.unvisited) graph.objectCount 0
  generalize reserved.vec.pushEach (fun _ _ => VisitMark.unvisited) graph.objectCount 0
    reserved.answers = filled at *
  cases hfilled : filled.granted with
  | false => exact ⟨_, rfl, rfl, fun hg => hpushed.refused hfilled (hreserved.left hg)⟩
  | true =>
  have hmarks : filled.vec.items = (range graph.objectCount).map (markOf ⟨[], []⟩) := by
    obtain ⟨hlength, heach⟩ := hall hfilled
    rw [hitems, hreserve]
    apply ext_getElem (by simpa using hlength)
    intro i hi hi'
    rw [getElem_map, getElem_range]
    exact heach i hi
  have hcount : 0 < graph.objectCount := by
    rw [objectCount]
    omega
  have hroot : filled.vec.items[0]? = some .unvisited := by
    rw [hmarks, getElem?_map, getElem?_range hcount]
    rfl
  -- the main image is entered
  rw [enterDependency]
  rw [hroot]
  dsimp only
  rw [if_neg (not_not.mpr (hgraph.ready 0 hcount))]
  have hstack := (empty : GrowVec (Nat × Nat)).push_items filled.answers (0, 0)
  have hdrawn := (empty : GrowVec (Nat × Nat)).push_drawn filled.answers (0, 0)
  have hgenerous (hg : answers.Generous) : filled.answers.Generous :=
    hpushed.left (hreserved.left hg)
  generalize (empty : GrowVec (Nat × Nat)).push (0, 0) filled.answers = entered at *
  cases hentered : entered.granted with
  | false => exact ⟨_, rfl, rfl, fun hg => hdrawn.refused hentered (hgenerous hg)⟩
  | true =>
    rw [hentered, if_pos rfl] at hstack
    refine loop_planned hgraph sound_start ⟨hstack, ?_, rfl, ?_⟩
      (fun hg => hdrawn.left (hgenerous hg)) fuel hfuel
    · show filled.vec.items.set 0 .active = _
      rw [hmarks]
      refine marks_set ?_ (fun i hi => ?_) _
      · exact if_pos mem_cons_self
      · exact markOf_congr (by simp [active, hi]) Iff.rfl
    · intro i hi
      rw [mem_singleton.mp hi]
      exact hcount

end InitialGraphState

/-- **Transactions.**  Whatever calls are made on the graph of a main image, and wherever
    storage is refused, no two objects have one identity and the edges of an object are
    the children attached to it, in order.  Once all objects are ready the plan is
    computed and is dependency first, or its storage is refused. -/
theorem initialGraph_transactions (main : ObjectIdentity) (answers : Answers)
    (calls : List GraphCall) : let run := runCalls main answers calls
    (∀ i j identity, run.graph.identity i = some identity → run.graph.identity j = some identity → i = j) ∧
    (∀ parent, parent < run.graph.objectCount → run.graph.edgesOf parent = some (attachedTo parent run.log)) ∧
    ((∀ index, index < run.graph.objectCount → run.graph.state index = some .ready) →
      ∀ planAnswers, ∃ rounds, ∀ fuel, rounds < fuel →
        ∃ result, run.graph.dependencyFirstPlan planAnswers fuel = some result ∧
          run.graph.Planned planAnswers result) := by
  intro run
  have h : run.graph.Consistent fun p => attachedTo p run.log :=
    runCalls_consistent
  have hedges (parent : Nat) (hparent : parent < run.graph.objectCount) :
      run.graph.edgesOf parent = some (attachedTo parent run.log) := by
    rw [InitialGraphState.objectCount_eq] at hparent
    have hslot := List.getElem?_eq_getElem hparent
    rw [InitialGraphState.edgesOf, InitialGraphState.slot_eq, hslot]
    exact h.windows parent _ hslot
  refine ⟨fun i j identity hi hj => ?_, hedges, fun hready planAnswers => ?_⟩
  · rw [InitialGraphState.identity, InitialGraphState.slot_eq, ← List.getElem?_map] at hi hj
    have hlt := (List.getElem?_eq_some_iff.mp hi).1
    exact (List.getElem?_inj hlt h.distinct).mp (hi.trans hj.symm)
  · apply InitialGraphState.dependencyFirstPlan_planned
    refine ⟨hready, fun index hindex => ?_, fun index dependency hdependency => ?_⟩
    · rw [InitialGraphState.needed, hedges index hindex]
      rfl
    · by_cases hindex : index < run.graph.objectCount
      · rw [InitialGraphState.needed, hedges index hindex] at hdependency
        rw [InitialGraphState.objectCount_eq]
        exact h.admitted index dependency hdependency
      · -- no object, no dependencies
        have hnone : run.graph.slot index = none := by
          rw [InitialGraphState.slot_eq, List.getElem?_eq_none_iff]
          rw [InitialGraphState.objectCount_eq] at hindex
          omega
        rw [InitialGraphState.needed, InitialGraphState.edgesOf, hnone] at hdependency
        cases hdependency

/-- Two libraries that need each other and a third one. -/
example : (runCalls ⟨1, 1⟩ []
    [.admitMapped ⟨1, 2⟩, .attachNeeded 0 1, .admitMapped ⟨1, 3⟩, .attachNeeded 1 2,
      .admitMapped ⟨1, 2⟩, .attachNeeded 2 1, .admitInterpreter ⟨1, 4⟩, .attachNeeded 1 3,
      .finishDiscovery 3, .finishDiscovery 2, .finishDiscovery 1,
      .finishDiscovery 0]).graph.dependencyFirstPlan [] 20 = some (.ok [2, 3, 1]) := by
  decide

end Crabc.Ldso
