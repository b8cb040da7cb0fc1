/-
Compiled plans and their runs.

An engine is a compiled plan with the registry it runs against, and what is known about
the names it tracks.  From a memory it makes the snapshot for the next compilation.  A run
within a budget of steps counts what it does, and reports each operation once: as a poll
when it is still waiting, as an operation otherwise.
-/
import Provisioning.Plan.Compile
import Provisioning.Run.Step

namespace Provisioning

/-- A compiled plan, ready to run. -/
structure Engine (W : Type) where
  program : Program
  registry : Registry W
  /-- The type of each tracked or declared name. -/
  typeIds : Table String
  /-- What each tracked or declared name depends on. -/
  dependencies : Table (List String)

/-- How a run within a budget ended. -/
inductive RunOutcome where
  /-- The program is done. -/
  | completed
  /-- A fault stopped it. -/
  | failed
  /-- The budget is spent. -/
  | paused
deriving DecidableEq, Inhabited

/-- The word for an outcome. -/
def RunOutcome.text : RunOutcome → String
  | .completed => "completed"
  | .failed => "failed"
  | .paused => "paused"

/-- What was done within a budget. -/
structure Summary where
  outcome : RunOutcome
  steps : Nat
  created : Nat
  updated : Nat
  deleted : Nat
  reads : Nat
  polls : Nat
deriving DecidableEq

namespace Summary

/-- Nothing was done. -/
def empty : Summary := ⟨.completed, 0, 0, 0, 0, 0, 0⟩

instance : Inhabited Summary := ⟨empty⟩

/-- How many changes were made. -/
def changes (s : Summary) : Nat := s.created + s.updated + s.deleted

/-- Counts an operation. -/
def add (s : Summary) (o : Operation) : Summary :=
  match o.name with
  | "CREATE" => { s with created := s.created + 1 }
  | "UPDATE" => { s with updated := s.updated + 1 }
  | "DELETE" => { s with deleted := s.deleted + 1 }
  | "READ" => { s with reads := s.reads + 1 }
  | _ => s

/-- Counts the operations of one step: each is a poll if the step is still waiting. -/
def addStep (s : Summary) (waiting : Bool) (os : List Operation) : Summary :=
  let s := { s with steps := s.steps + 1 }
  if waiting then { s with polls := s.polls + os.length } else os.foldl add s

end Summary

/-- What an observer of a run is told. -/
inductive Event where
  /-- An operation was carried out. -/
  | operation (o : Operation)
  /-- A check is not satisfied yet. -/
  | poll (o : Operation)
  /-- The budget, the program or the run is at its end. -/
  | finish (outcome : RunOutcome)
deriving DecidableEq

/-- The event as it is displayed. -/
def Event.text : Event → String
  | .operation o => "op " ++ o.text
  | .poll o => "poll " ++ o.text
  | .finish outcome => "finish " ++ outcome.text

namespace Engine

variable {W : Type}

/-- Compiles a plan for a registry. -/
def compile (registry : Registry W) (plan : Plan) : Except PlanError (Engine W) := do
  let program ← plan.compile
  return {
    program, registry
    typeIds := (plan.prior.mapValues fun _ t => t.typeId).overlay
      (plan.declaration.resources.entries.map fun e => (e.1, e.2.typeId))
    dependencies := (plan.prior.mapValues fun _ t => t.dependencies).overlay
      (plan.declaration.resources.entries.map fun e => (e.1, e.2.waits)) }

/-- One step of a run. -/
def step (e : Engine W) (r : Run W) : Run W := r.step e.program e.registry

/-- The name whose type a tracked name has: itself, or what it was before it was put
aside. -/
def typeKey (e : Engine W) (name : String) : String :=
  if e.typeIds.contains name then name else undeletable name

/-- What is recorded about a tracked name; nothing when its type is not known. -/
def tracked? (e : Engine W) (name : String) (remoteId : Json) : Option Tracked :=
  let key := e.typeKey name
  (e.typeIds.get? key).map fun typeId =>
    ⟨remoteId, typeId, (e.dependencies.get? key).getD []⟩

/-- The snapshot of everything a memory tracks. -/
def state (e : Engine W) (m : Memory) : Snapshot :=
  Table.ofList (m.remoteIds.entries.filterMap fun entry =>
    (e.tracked? entry.1 entry.2).map (entry.1, ·))

/-- A run with the counts and the events so far. -/
structure Progress (W : Type) where
  run : Run W
  summary : Summary
  events : List Event

/-- One step, counted and reported. -/
def advance (e : Engine W) (g : Progress W) : Progress W :=
  let after := e.step g.run
  let fresh := after.log.drop g.run.log.length
  ⟨after, g.summary.addStep after.waiting fresh,
    g.events ++ fresh.map (if after.waiting then Event.poll else Event.operation)⟩

/-- Steps until the run ends or the budget is spent. -/
def drive (e : Engine W) : (budget : Nat) → Progress W → Progress W
  | 0, g => g
  | budget + 1, g => if g.run.ended e.program then g else drive e budget (e.advance g)

/-- How a run stands. -/
def outcome (e : Engine W) (r : Run W) : RunOutcome :=
  if r.memory.error.isSome then .failed
  else if r.ended e.program then .completed
  else .paused

/-- Runs within a budget of steps. -/
def run (e : Engine W) (budget : Nat) (r : Run W) : Progress W :=
  let g := e.drive budget ⟨r, .empty, []⟩
  let outcome := e.outcome g.run
  ⟨g.run, { g.summary with outcome }, g.events ++ [.finish outcome]⟩

end Engine

end Provisioning
