/-
Compilation.

A declaration and a snapshot make a program.  What is tracked and no longer declared is
deleted; what is declared is created, or updated if it is tracked.  The driver calls, level
by level, the start and then the check of every resource, then with the levels in reverse
its commit and its finish.  The subroutines follow the driver, and each label points to the
first instruction of its body.

Errors are found in a fixed order: the levels, the types of what is to be deleted, the
fields that a creation needs, and the addresses of the declared values.
-/
import Provisioning.Code.Program
import Provisioning.Declare.Declaration
import Provisioning.Plan.Routine
import Provisioning.Snapshot

namespace Provisioning

/-- What is compiled: what is wanted, what is there, and whether to recreate what is gone. -/
structure Plan where
  declaration : Declaration
  prior : Snapshot
  createMissing : Bool

/-- The driver and the subroutines, not yet joined. -/
structure Layout where
  driver : List Instruction
  subroutines : Table Subroutine

namespace Layout

/-- Labels with their positions, for bodies that start at `start`. -/
def positions : (start : Nat) → List Subroutine → List (String × Nat)
  | _, [] => []
  | start, s :: rest => (s.label, start) :: positions (start + s.size) rest

/-- Where each label points; of two subroutines with one label the later one has it. -/
def labels (l : Layout) : Table Nat :=
  Table.ofList (positions l.driver.length l.subroutines.values)

/-- The driver, followed by the bodies. -/
def instructions (l : Layout) : List Instruction :=
  l.driver ++ l.subroutines.values.flatMap Subroutine.body

end Layout

namespace Plan

/-- Tracked resources that are no longer declared; nothing is known of their fields. -/
def deletables (plan : Plan) : Except PlanError (List Resource) :=
  (plan.prior.entries.filter fun e => !plan.declaration.resources.contains e.1).mapM fun e =>
    match plan.declaration.catalog.get? e.2.typeId with
    | none => .error (.unknownType e.2.typeId)
    | some schema => Resource.make e.1 e.2.typeId schema []

/-- The action for a declared name. -/
def declaredAction (plan : Plan) (name : String) : Action :=
  if plan.prior.contains name then .update else .create

/-- The action for every resource, the deletions first. -/
def actions (plan : Plan) : Except PlanError (List (Resource × Action)) := do
  let gone ← plan.deletables
  return gone.map (·, Action.delete) ++
    plan.declaration.resources.entries.map fun e => (e.2, plan.declaredAction e.1)

/-- Whether a name is declared or tracked. -/
def knows (plan : Plan) (name : String) : Bool :=
  plan.prior.contains name || plan.declaration.resources.contains name

/-- What the tracked resources waited for, as far as it is still known. -/
def trackedDependencies (plan : Plan) : Dependencies :=
  ⟨plan.prior.mapValues fun _ t => distinct (t.dependencies.filter plan.knows)⟩

/-- The declared dependencies, laid over the tracked ones. -/
def dependencies (plan : Plan) : Dependencies :=
  plan.trackedDependencies.merge plan.declaration.dependencies

/-- The levels in which resources are handled. -/
def levels (plan : Plan) : Except PlanError (List (List String)) := plan.dependencies.levels

/-- The subroutines of all resources; of two with one key the later one replaces the
earlier one in its place. -/
def subroutines (createMissing : Bool) (actions : List (Resource × Action)) :
    Except PlanError (Table Subroutine) := do
  let lists ← actions.mapM fun a => a.1.subroutines a.2 createMissing
  return Table.ofList lists.flatten

/-- The calls for some phases of the names of one level. -/
def levelCalls (table : Table Subroutine) (phases : List Phase) (level : List String) :
    List Instruction :=
  phases.flatMap fun phase =>
    level.filterMap fun name => (table.get? (subroutineKey name phase.text)).map Subroutine.call

/-- The driver for levels and subroutines. -/
def driver (levels : List (List String)) (table : Table Subroutine) : List Instruction :=
  .init :: (levels.flatMap (levelCalls table Phase.forward) ++
    levels.reverse.flatMap (levelCalls table Phase.backward) ++ [.halt])

/-- The driver and the subroutines of a plan. -/
def layout (plan : Plan) : Except PlanError Layout := do
  let levels ← plan.levels
  let actions ← plan.actions
  let table ← subroutines plan.createMissing actions
  return ⟨driver levels table, table⟩

/-- Stores resources under their names. -/
def storeAll : Rom → List (String × Resource) → Except PlanError Rom
  | rom, [] => .ok rom
  | rom, (name, r) :: rest =>
    match rom.add name r.toExpr with
    | (rom, .ok ()) => storeAll rom rest
    | (_, .error e) => .error e

/-- The table of the declared values. -/
def rom (plan : Plan) : Except PlanError Rom :=
  storeAll Rom.empty plan.declaration.resources.entries

/-- The program of a plan. -/
def compile (plan : Plan) : Except PlanError Program := do
  let layout ← plan.layout
  let rom ← plan.rom
  return {
    tables := { rom, remoteIds := plan.prior.mapValues fun _ t => t.remoteId,
                labels := layout.labels, outputs := Table.empty, deleted := [] }
    instructions := layout.instructions }

end Plan

end Provisioning
