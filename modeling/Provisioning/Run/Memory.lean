/-
The memory of a run.

Everything a paused run needs to go on is here: where it stands, the scratch values that
instructions hand to each other, and the tables that outlive them.  The fault that
stopped a run is kept beside them but never written out, so a restored memory has none.
-/
import Provisioning.Declare.Expr
import Provisioning.Fault
import Provisioning.Reconcile

namespace Provisioning

/-- The state of a run. -/
structure Memory where
  programCounter : Nat
  /-- Where the calls in progress came from, the innermost last. -/
  callStack : List Nat
  /-- Scratch values. -/
  temp : Properties
  /-- The identifier of each tracked name; `null` where there is none. -/
  remoteIds : Table Json
  /-- The outputs that were stored, by resource. -/
  outputs : Table Properties
  /-- What was decided about each resource. -/
  decisions : Table Decision
  /-- The names whose deletion was confirmed. -/
  deleted : List String
  /-- What stopped the run. -/
  error : Option Fault
  /-- Whether the program reached its end. -/
  ended : Bool
deriving DecidableEq

namespace Memory

/-- The memory a run starts with. -/
def fresh : Memory :=
  { programCounter := 0, callStack := [], temp := [], remoteIds := Table.empty,
    outputs := Table.empty, decisions := Table.empty, deleted := [], error := none, ended := false }

instance : Inhabited Memory := ⟨fresh⟩

/-- The scratch name of the key that was staged for the next value. -/
def stagedKey : String := "_key"

/-- The scratch name of the result that branches test. -/
def resultKey : String := "result"

/-! ### Scratch -/

/-- A staged scratch value. -/
def require (m : Memory) (instruction key : String) : Except Fault Json :=
  match m.temp.get? key with
  | some v => .ok v
  | none => .error (.missingParameter instruction key)

/-- A staged scratch value that has to be text. -/
def requireStr (m : Memory) (instruction key : String) : Except Fault String := do
  match ← m.require instruction key with
  | .str s => return s
  | _ => throw (.invalidOperand instruction ("'" ++ key ++ "' must be a string"))

/-- A staged scratch value that has to be an object. -/
def requireObject (m : Memory) (instruction key : String) : Except Fault Properties := do
  match ← m.require instruction key with
  | .obj fields => return fields
  | _ => throw (.invalidOperand instruction ("'" ++ key ++ "' must be a map"))

/-- The result that branches test: a whole number, truth values counting as 0 and 1. -/
def result (m : Memory) (instruction : String) : Except Fault Int := do
  let v ← m.require instruction resultKey
  let bad : Fault := .invalidOperand instruction ("result " ++ v.text ++ " is not an integer")
  match v with
  | .bool b => return if b then 1 else 0
  | .num n => match n.asInt64? with
    | some i => return i
    | none => throw bad
  | _ => throw bad

/-- Binds a scratch value. -/
def setTemp (m : Memory) (key : String) (v : Json) : Memory :=
  { m with temp := m.temp.set key v }

/-- Binds the result that branches test. -/
def setResult (m : Memory) (i : Int) : Memory := m.setTemp resultKey (.int i)

/-- Records whether a test held. -/
def setTest (m : Memory) (holds : Bool) : Memory := m.setResult (if holds then 1 else 0)

/-! ### Tables -/

/-- The identifier tracked for `name`; `null` counts as none. -/
def remoteId (m : Memory) (name : String) : Option Json :=
  (m.remoteIds.get? name).filter fun id => !id.isNull

/-- The value of an output in this run. -/
def outputValue (m : Memory) (o : OutputRef) : Except Fault Json :=
  if o.field = remoteIdField then .ok ((m.remoteIds.get? o.resource).getD .null)
  else
    match m.outputs.get? o.resource with
    | none => .error (.outputUnavailable o.resource o.field)
    | some fields => .ok ((fields.get? o.field).getD .null)

/-- Whether a run of a program of `length` instructions can make no further step. -/
def halted (m : Memory) (length : Nat) : Bool :=
  m.ended || m.error.isSome || length ≤ m.programCounter

/-! ### As JSON -/

/-- The memory without its fault, as the fields of an object. -/
def toFields (m : Memory) : Properties :=
  [("program_counter", .nat m.programCounter),
    ("call_stack", .arr (m.callStack.map .nat)),
    ("temp", .obj m.temp),
    ("remote_ids", .obj m.remoteIds.entries),
    ("outputs", .obj (m.outputs.entries.map fun e => (e.1, .obj e.2))),
    ("update_action", .obj (m.decisions.entries.map fun e => (e.1, .str e.2.text))),
    ("deleted", .strs m.deleted),
    ("end", .bool m.ended)]

/-- The memory without its fault. -/
def toJson (m : Memory) : Json := .obj m.toFields

/-- The memory that JSON stands for; every field has to be there. -/
def ofJson? (j : Json) : Option Memory :=
  j.decodeRecord? 8 fun r => do
    let programCounter ← r.required? 0 "program_counter" Json.index?
    let callStack ← r.required? 1 "call_stack" (Json.listOf? Json.index?)
    let temp ← r.required? 2 "temp" Json.asObj?
    let remoteIds ← r.required? 3 "remote_ids" (Json.tableOf? some)
    let outputs ← r.required? 4 "outputs" (Json.tableOf? Json.asObj?)
    let decisions ← r.required? 5 "update_action" (Json.tableOf? Decision.ofJson?)
    let deleted ← r.required? 6 "deleted" Json.strings?
    let ended ← r.required? 7 "end" Json.asBool?
    return { programCounter, callStack, temp, remoteIds, outputs, decisions, deleted,
             error := none, ended }

end Memory

end Provisioning
