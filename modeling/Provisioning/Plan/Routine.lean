/-
What has to be done for one resource, as subroutines.

The driver of a program goes through four phases for every resource: start, check,
commit and finish.  Which routine serves a phase follows from the action that is planned.
An update decides only when it runs what is to be done, and then jumps: so it comes with
further routines, which return in its place to the driver.

A put-off deletion is spread over the phases.  Starting puts the old object aside, the
replacement is created and checked, and only commit and finish delete what was put aside.
-/
import Provisioning.Code.Instruction
import Provisioning.Declare.Expr
import Provisioning.Reconcile

namespace Provisioning

/-- The four calls the driver makes for every resource. -/
inductive Phase where
  | start
  | check
  | commit
  | finish
deriving DecidableEq, Inhabited

namespace Phase

/-- The word for a phase. -/
def text : Phase → String
  | .start => "start"
  | .check => "check"
  | .commit => "commit"
  | .finish => "finish"

/-- The phases run in the order of dependencies. -/
def forward : List Phase := [.start, .check]

/-- The phases run in the opposite order. -/
def backward : List Phase := [.commit, .finish]

/-- All phases. -/
def all : List Phase := forward ++ backward

end Phase

/-- The kinds of subroutines. -/
inductive Routine where
  | create
  | checkCreate
  | commitCreate
  | finishCreate
  | update
  | checkUpdate
  | commitUpdate
  | finishUpdate
  | delete
  | checkDelete
  | commitDelete
  | finishDelete
  | modify
  | modifyCheck
  | recreate
  | recreateCheck
  | recreateCommit
  | recreateFinish
  | missingCreate
  | missingCreateCheck
deriving DecidableEq, Inhabited

namespace Routine

/-- The word for a routine, with which its labels begin. -/
def text : Routine → String
  | .create => "create"
  | .checkCreate => "check_create"
  | .commitCreate => "commit_create"
  | .finishCreate => "finish_create"
  | .update => "update"
  | .checkUpdate => "check_update"
  | .commitUpdate => "commit_update"
  | .finishUpdate => "finish_update"
  | .delete => "delete"
  | .checkDelete => "check_delete"
  | .commitDelete => "commit_delete"
  | .finishDelete => "finish_delete"
  | .modify => "modify"
  | .modifyCheck => "modify_check"
  | .recreate => "recreate"
  | .recreateCheck => "recreate_check"
  | .recreateCommit => "recreate_commit"
  | .recreateFinish => "recreate_finish"
  | .missingCreate => "missing_create"
  | .missingCreateCheck => "missing_create_check"

/-- All routines. -/
def all : List Routine :=
  [.create, .checkCreate, .commitCreate, .finishCreate, .update, .checkUpdate, .commitUpdate,
    .finishUpdate, .delete, .checkDelete, .commitDelete, .finishDelete, .modify, .modifyCheck,
    .recreate, .recreateCheck, .recreateCommit, .recreateFinish, .missingCreate,
    .missingCreateCheck]

/-- The routine that serves a phase of an action. -/
def forPhase : Action → Phase → Routine
  | .create, .start => .create
  | .create, .check => .checkCreate
  | .create, .commit => .commitCreate
  | .create, .finish => .finishCreate
  | .update, .start => .update
  | .update, .check => .checkUpdate
  | .update, .commit => .commitUpdate
  | .update, .finish => .finishUpdate
  | .delete, .start => .delete
  | .delete, .check => .checkDelete
  | .delete, .commit => .commitDelete
  | .delete, .finish => .finishDelete

/-- The routines that an update may jump to. -/
def branches (createMissing : Bool) : List Routine :=
  [.modify, .modifyCheck, .recreate, .recreateCheck, .recreateCommit, .recreateFinish] ++
    if createMissing then [.missingCreate, .missingCreateCheck] else []

/-- Whether a routine creates the object. -/
def creates : Routine → Bool
  | .create | .recreate | .missingCreate => true
  | _ => false

/-- The label of a routine of a resource. -/
def label (routine : Routine) (name : String) : String := routine.text ++ "_" ++ name

end Routine

/-- The key under which the subroutine of a resource for a step is kept. -/
def subroutineKey (name step : String) : String := name ++ "_" ++ step

/-- A labelled body that belongs to a resource. -/
structure Subroutine where
  /-- The resource it was made for. -/
  owner : String
  routine : Routine
  /-- What stands between emptying scratch and returning. -/
  inner : List Instruction
deriving DecidableEq, Inhabited

namespace Subroutine

/-- The label by which it is called. -/
def label (s : Subroutine) : String := s.routine.label s.owner

/-- The instructions: scratch is emptied first, and control returns last. -/
def body (s : Subroutine) : List Instruction := .clear :: (s.inner ++ [.ret])

/-- How many instructions the body has. -/
def size (s : Subroutine) : Nat := s.inner.length + 2

/-- The instruction that calls it. -/
def call (s : Subroutine) : Instruction := .call s.label

end Subroutine

/-! ### Pieces of bodies -/

namespace Emit

/-- Stages a name and a type. -/
def load (name typeId : String) : List Instruction :=
  [.key "resource_name", .value (.str name), .key "resource_desc", .value (.str typeId)]

/-- Stages a resource and does something with it. -/
def onResource (r : Resource) (op : ResourceOp) : List Instruction :=
  load r.name r.typeId ++ [.resource op]

/-- Stages a resource with its declared fields and does something with it. -/
def withProperties (r : Resource) (op : ResourceOp) : List Instruction :=
  load r.name r.typeId ++ [.key "properties", .valueRom r.name, .resource op]

/-- Goes to a routine of the resource if that was decided. -/
def branch (r : Resource) (d : Decision) (target : Routine) : List Instruction :=
  [.valueUpdate r.name, .compare (.str d.text), .gotoIf (.label (target.label r.name))]

/-- Writes a value into a table under the name of the resource. -/
def write (r : Resource) (table : String) (v : Json) : List Instruction :=
  [.key "superkey", .value (.str table), .key "key", .value (.str r.name), .memwrite v]

/-- Deletes now, of a type whose deletion is not put off. -/
def deleteNow (r : Resource) (op : ResourceOp) : List Instruction :=
  if r.schema.deleteAtEnd then [] else onResource r op

/-- Deletes what is tracked under `name`, of a type whose deletion is put off. -/
def deleteLate (r : Resource) (name : String) (op : ResourceOp) : List Instruction :=
  if r.schema.deleteAtEnd then load name r.typeId ++ [.resource op] else []

/-- Makes room for a replacement: by putting the old object aside, or by deleting it. -/
def vacate (r : Resource) : List Instruction :=
  if r.schema.deleteAtEnd then onResource r .markDeletable
  else onResource r .delete ++ onResource r .checkDelete

/-- Creates the replacement of an object that is gone: the decision is recorded, and its
identifier forgotten. -/
def replaceMissing (r : Resource) : List Instruction :=
  write r "update_action" (.str Decision.missing.text) ++ write r "remote_ids" .null

/-- Looks whether the object is there and goes to its replacement if not. -/
def probe (r : Resource) : List Instruction :=
  onResource r .checkExist ++ [.invert, .gotoIf (.label (Routine.missingCreate.label r.name))]

/-- Reads, decides, and goes where the decision leads. -/
def reconcile (r : Resource) : List Instruction :=
  onResource r .read ++ onResource r .rescmp ++ branch r .recreate .recreate ++
    branch r .modify .modify

end Emit

/-! ### Bodies -/

namespace Resource

open Emit

/-- The instructions of a routine of a resource. -/
def script (r : Resource) (createMissing : Bool) : Routine → List Instruction
  | .create => withProperties r .create
  | .checkCreate | .recreateCheck | .missingCreateCheck => onResource r .checkCreate
  | .commitCreate | .finishCreate => []
  | .update => (if createMissing then probe r else []) ++ reconcile r
  | .checkUpdate =>
    (if createMissing then branch r .missing .missingCreateCheck else []) ++
      branch r .recreate .recreateCheck ++ branch r .modify .modifyCheck
  | .commitUpdate => branch r .recreate .recreateCommit
  | .finishUpdate => branch r .recreate .recreateFinish
  | .delete => deleteNow r .delete
  | .checkDelete => deleteNow r .checkDelete
  | .commitDelete => deleteLate r r.name .delete
  | .finishDelete => deleteLate r r.name .checkDelete
  | .modify => withProperties r .update
  | .modifyCheck => onResource r .checkUpdate
  | .recreate => vacate r ++ withProperties r .create
  | .recreateCommit => deleteLate r (deletable r.name) .delete
  | .recreateFinish => deleteLate r (deletable r.name) .checkDelete
  | .missingCreate => replaceMissing r ++ withProperties r .create

/-- The instructions of a routine of a resource.  Whatever creates the object demands that
its required fields are bound. -/
def code (r : Resource) (createMissing : Bool) (routine : Routine) :
    Except PlanError (List Instruction) := do
  if routine.creates then r.checkRequired
  return r.script createMissing routine

/-- The subroutine of a routine of a resource. -/
def subroutine (r : Resource) (createMissing : Bool) (routine : Routine) :
    Except PlanError Subroutine :=
  (r.code createMissing routine).map fun inner => ⟨r.name, routine, inner⟩

/-- The routines a resource needs, each with the step it is kept under: the four phases
first, then what an update may jump to. -/
def routines (action : Action) (createMissing : Bool) : List (String × Routine) :=
  (Phase.all.map fun phase => (phase.text, Routine.forPhase action phase)) ++
    match action with
    | .update => (Routine.branches createMissing).map fun routine => (routine.text, routine)
    | .create | .delete => []

/-- The subroutines of a resource for its action, each under its key. -/
def subroutines (r : Resource) (action : Action) (createMissing : Bool) :
    Except PlanError (List (String × Subroutine)) :=
  (routines action createMissing).mapM fun e =>
    (r.subroutine createMissing e.2).map (subroutineKey r.name e.1, ·)

end Resource

end Provisioning
