/-
  Crabc.Ldso.InitialGraph

  The graph of the initial load: `InitialGraphState` of
  `x86_64_initial_graph_state.rs`, as the owned dynamic runtime builds it.

  `LoaderVec` is `GrowVec`: what its `grow` is refused, by the kernel or because a
  byte count does not fit a word, is an answer of `Answers`.  Positions and counts
  are those of vectors in memory and do not wrap.
-/

import Crabc.Lib.GrowVec
import Crabc.Lib.Loop

namespace Crabc.Ldso

open Crabc.Lib

/-- `(st_dev, st_ino)`. -/
structure ObjectIdentity where
  device : UInt64
  inode : UInt64
deriving DecidableEq

inductive ObjectState where
  | vacant
  | discovering
  | ready
deriving DecidableEq

inductive ObjectAdmission where
  | existing (index : Nat) (state : ObjectState)
  | new (index : Nat)
deriving DecidableEq

inductive GraphStateError where
  | objectCapacity
  | edgeCapacity
  | invalidObject
  | objectNotDiscovering
  | graphIncomplete
  | dependencyCycle
deriving DecidableEq

/-- One admitted object; its edges are the window `edgeStart..edgeStart + edgeCount` of the edges of the graph. -/
structure ObjectSlot where
  identity : ObjectIdentity
  state : ObjectState
  mappedByTransaction : Bool
  edgeStart : Nat
  edgeCount : Nat
deriving DecidableEq

/-- A slot as `new` and `admit_with_provenance` make it. -/
def ObjectSlot.fresh (identity : ObjectIdentity) (mappedByTransaction : Bool) : ObjectSlot :=
  ⟨identity, .discovering, mappedByTransaction, 0, 0⟩

structure InitialGraphState where
  main : ObjectSlot
  dependencies : GrowVec ObjectSlot
  edges : GrowVec Nat

namespace InitialGraphState

def new (main : ObjectIdentity) : InitialGraphState :=
  ⟨.fresh main false, .empty, .empty⟩

def objectCount (graph : InitialGraphState) : Nat := 1 + graph.dependencies.items.length

def slot (graph : InitialGraphState) (index : Nat) : Option ObjectSlot :=
  if index = 0 then some graph.main else graph.dependencies.items[index - 1]?

/-- A write through `slot_mut`. -/
def setSlot (graph : InitialGraphState) (index : Nat) (slot : ObjectSlot) : InitialGraphState :=
  if index = 0 then { graph with main := slot }
  else
    { graph with
      dependencies := ⟨graph.dependencies.items.set (index - 1) slot, graph.dependencies.capacity,
        by rw [List.length_set]; exact graph.dependencies.fits⟩ }

def identity (graph : InitialGraphState) (index : Nat) : Option ObjectIdentity :=
  (graph.slot index).map (·.identity)

def state (graph : InitialGraphState) (index : Nat) : Option ObjectState :=
  (graph.slot index).map (·.state)

/-- `edges.get(start..start + count)`. -/
def window (edges : List Nat) (start count : Nat) : Option (List Nat) :=
  if start + count ≤ edges.length then some ((edges.drop start).take count) else none

/-- The method `edges`. -/
def edgesOf (graph : InitialGraphState) (index : Nat) : Option (List Nat) :=
  (graph.slot index).bind fun slot => window graph.edges.items slot.edgeStart slot.edgeCount

def find (graph : InitialGraphState) (identity : ObjectIdentity) : Option Nat :=
  if graph.main.identity = identity then some 0
  else (graph.dependencies.items.findIdx? (·.identity = identity)).map (· + 1)

def admitWithProvenance (graph : InitialGraphState) (identity : ObjectIdentity)
    (mappedByTransaction : Bool) (answers : Answers) :
    Except GraphStateError ObjectAdmission × InitialGraphState × Answers :=
  match graph.find identity with
  | some index =>
    match graph.slot index with
    | some slot => (.ok (.existing index slot.state), graph, answers)
    | none => (.error .invalidObject, graph, answers)
  | none =>
    let pushed := graph.dependencies.push (.fresh identity mappedByTransaction) answers
    if pushed.granted then
      (.ok (.new graph.objectCount), { graph with dependencies := pushed.vec }, pushed.answers)
    else
      (.error .objectCapacity, { graph with dependencies := pushed.vec }, pushed.answers)

def admitMapped (graph : InitialGraphState) (identity : ObjectIdentity) (answers : Answers) :
    Except GraphStateError ObjectAdmission × InitialGraphState × Answers :=
  graph.admitWithProvenance identity true answers

def admitInterpreter (graph : InitialGraphState) (identity : ObjectIdentity)
    (answers : Answers) : Except GraphStateError ObjectAdmission × InitialGraphState × Answers :=
  graph.admitWithProvenance identity false answers

/-- The window of a slot moves to the end of the edges: the reservation, then one push an edge. -/
def moveWindow (edges : GrowVec Nat) (slot : ObjectSlot) (answers : Answers) : Grown Nat :=
  let reserved := edges.reserve (slot.edgeCount + 1) answers
  if reserved.granted then
    reserved.vec.pushEach (fun edges offset => edges.getD (slot.edgeStart + offset) 0)
      slot.edgeCount 0 reserved.answers
  else reserved

def attachNeeded (graph : InitialGraphState) (parent child : Nat) (answers : Answers) :
    Except GraphStateError Unit × InitialGraphState × Answers :=
  if graph.objectCount ≤ child then (.error .invalidObject, graph, answers)
  else
    match graph.slot parent with
    | none => (.error .invalidObject, graph, answers)
    | some slot =>
      let newest := slot.edgeStart + slot.edgeCount = graph.edges.items.length
      let start := if newest then slot.edgeStart else graph.edges.items.length
      let moved :=
        if newest then ⟨true, graph.edges, answers⟩ else moveWindow graph.edges slot answers
      if moved.granted then
        let pushed := moved.vec.push child moved.answers
        let graph := { graph with edges := pushed.vec }
        if pushed.granted then
          (.ok (), graph.setSlot parent
            { slot with edgeStart := start, edgeCount := slot.edgeCount + 1 }, pushed.answers)
        else (.error .edgeCapacity, graph, pushed.answers)
      else (.error .edgeCapacity, { graph with edges := moved.vec }, moved.answers)

def finishDiscovery (graph : InitialGraphState) (index : Nat) :
    Except GraphStateError Unit × InitialGraphState :=
  match graph.slot index with
  | none => (.error .invalidObject, graph)
  | some slot =>
    if slot.state ≠ .discovering then (.error .objectNotDiscovering, graph)
    else (.ok (), graph.setSlot index { slot with state := .ready })

/-- The indices handed to `unmap`, in order, and the graph of the main image alone. -/
def rollbackToMain (graph : InitialGraphState) : List Nat × InitialGraphState :=
  (((List.range graph.dependencies.items.length).map (· + 1)).reverse.filter fun index =>
      (graph.slot index).any (·.mappedByTransaction),
    { main := { graph.main with edgeStart := 0, edgeCount := 0, state := .discovering }
      dependencies := graph.dependencies.truncate 0
      edges := graph.edges.truncate 0 })

/-! ## The order of the constructors -/

/-- `MARK_UNVISITED`, `MARK_ACTIVE` and `MARK_DONE`. -/
inductive VisitMark where
  | unvisited
  | active
  | done
deriving DecidableEq

/-- What `dependency_first_plan` carries from round to round; a frame is an object and
    the position of its next edge, the innermost frame last. -/
structure PlanState where
  marks : List VisitMark
  stack : GrowVec (Nat × Nat)
  plan : GrowVec Nat
  answers : Answers

/-- `enter_dependency`; an active object is a back edge and is passed over. -/
def enterDependency (graph : InitialGraphState) (index : Nat) (visit : PlanState) :
    Except GraphStateError PlanState :=
  match visit.marks[index]? with
  | none => .error .invalidObject
  | some .active => .ok visit
  | some .done => .ok visit
  | some .unvisited =>
    if graph.state index ≠ some .ready then .error .graphIncomplete
    else
      let pushed := visit.stack.push (index, 0) visit.answers
      if pushed.granted then
        .ok { visit with
          marks := visit.marks.set index .active
          stack := pushed.vec
          answers := pushed.answers }
      else .error .objectCapacity

/-- One round of the loop of `dependency_first_plan`. -/
def planRound (graph : InitialGraphState) (visit : PlanState) :
    Next PlanState (Except GraphStateError (List Nat)) :=
  match visit.stack.items.getLast? with
  | none => .done (.ok visit.plan.items)
  | some (index, next) =>
    match graph.edgesOf index with
    | none => .done (.error .invalidObject)
    | some edges =>
      let popped := visit.stack.truncate (visit.stack.items.length - 1)
      match edges[next]? with
      | some child =>
        -- `frame.1 += 1`
        let advanced := popped.write (index, next + 1)
        match graph.enterDependency child { visit with stack := advanced } with
        | .ok visit => .again visit
        | .error error => .done (.error error)
      | none =>
        let marks := visit.marks.set index .done
        if index ≠ 0 then
          let pushed := visit.plan.push index visit.answers
          if pushed.granted then
            .again { marks, stack := popped, plan := pushed.vec, answers := pushed.answers }
          else .done (.error .objectCapacity)
        else .again { visit with marks, stack := popped }

/-- `dependency_first_plan` in at most `fuel` rounds: the indices of the plan. -/
def dependencyFirstPlan (graph : InitialGraphState) (answers : Answers) (fuel : Nat) :
    Option (Except GraphStateError (List Nat)) :=
  let count := graph.objectCount
  if (List.range count).any fun index => graph.state index ≠ some .ready then
    some (.error .graphIncomplete)
  else
    let reserved := (GrowVec.empty : GrowVec VisitMark).reserve count answers
    if reserved.granted then
      let marks := reserved.vec.pushEach (fun _ _ => .unvisited) count 0 reserved.answers
      if marks.granted then
        match graph.enterDependency 0
            { marks := marks.vec.items, stack := .empty, plan := .empty, answers := marks.answers } with
        | .ok visit => loop graph.planRound fuel visit
        | .error error => some (.error error)
      else some (.error .objectCapacity)
    else some (.error .objectCapacity)

end InitialGraphState

/-! ## Transactions -/

/-- The calls of the loader. -/
inductive GraphCall where
  | admitMapped (identity : ObjectIdentity)
  | admitInterpreter (identity : ObjectIdentity)
  | attachNeeded (parent child : Nat)
  | finishDiscovery (index : Nat)
  | rollbackToMain

/-- Whether a call succeeded, the graph it leaves and the answers to come. -/
def GraphCall.perform (graph : InitialGraphState) (answers : Answers) :
    GraphCall → Bool × InitialGraphState × Answers
  | .admitMapped identity => (graph.admitMapped identity answers).map (·.isOk) id
  | .admitInterpreter identity => (graph.admitInterpreter identity answers).map (·.isOk) id
  | .attachNeeded parent child => (graph.attachNeeded parent child answers).map (·.isOk) id
  | .finishDiscovery index =>
    let (result, graph) := graph.finishDiscovery index
    (result.isOk, graph, answers)
  | .rollbackToMain => (true, graph.rollbackToMain.2, answers)

/-- What a sequence of calls leaves, and the calls with their success. -/
structure GraphRun where
  graph : InitialGraphState
  answers : Answers
  log : List (GraphCall × Bool)

def GraphRun.call (run : GraphRun) (call : GraphCall) : GraphRun :=
  let (success, graph, answers) := call.perform run.graph run.answers
  ⟨graph, answers, run.log ++ [(call, success)]⟩

/-- A sequence of calls on the graph of a main image. -/
def runCalls (main : ObjectIdentity) (answers : Answers) (calls : List GraphCall) : GraphRun :=
  calls.foldl GraphRun.call ⟨.new main, answers, []⟩

/-- The children attached to `parent`, after one more call. -/
def attachedNext (parent : Nat) (attached : List Nat) : GraphCall × Bool → List Nat
  | (.attachNeeded p child, true) => if p = parent then attached ++ [child] else attached
  | (.rollbackToMain, _) => []
  | _ => attached

/-- The children successfully attached to `parent` in order, since the last rollback
    dropped the objects there were. -/
def attachedTo (parent : Nat) (log : List (GraphCall × Bool)) : List Nat :=
  log.foldl (attachedNext parent) []

end Crabc.Ldso
