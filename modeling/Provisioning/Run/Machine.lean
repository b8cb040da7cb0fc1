/-
The machine.

`execute` carries out one instruction on a memory and a world and says where control goes
next; the program counter itself is moved by the run.  Nothing is assumed about the
instruction or the memory, and nothing about the backends.

An instruction first looks for its scratch values, then checks whatever it can check
without the backend, then asks the backend, and writes into the tables of the memory last.
So a fault finds the tables as they were; only scratch may have changed.
-/
import Provisioning.Backend.Basic
import Provisioning.Code.Program
import Provisioning.Run.Memory

namespace Provisioning

/-- Where control goes after an instruction. -/
inductive Flow where
  /-- To the next instruction. -/
  | next
  /-- To the instruction at a position. -/
  | jump (i : Nat)
  /-- Nowhere: the same instruction runs again. -/
  | stay
deriving DecidableEq

/-- What an instruction leaves behind. -/
structure Outcome (W : Type) where
  flow : Except Fault Flow
  memory : Memory
  world : W

namespace Outcome

variable {W : Type}

/-- The instruction is done. -/
def next (m : Memory) (w : W) : Outcome W := ⟨.ok .next, m, w⟩

/-- The instruction cannot be carried out. -/
def fault (f : Fault) (m : Memory) (w : W) : Outcome W := ⟨.error f, m, w⟩

end Outcome

/-! ### Instructions that need no backend -/

/-- Takes the staged key out of scratch; the last scratch value moves into its place. -/
def takeStagedKey (m : Memory) : Except Fault String × Memory :=
  match m.temp.get? Memory.stagedKey with
  | none => (.error .noKeySet, m)
  | some v =>
    let taken := { m with temp := m.temp.swapErase Memory.stagedKey }
    match v with
    | .str key => (.ok key, taken)
    | _ => (.error (.invalidOperand "value" ("staged key " ++ v.text ++ " is not a string")), taken)

/-- Binds a value to the staged key. -/
def bindStaged {W : Type} (v : Json) (m : Memory) (w : W) : Outcome W :=
  match takeStagedKey m with
  | (.error f, m) => .fault f m w
  | (.ok key, m) => .next (m.setTemp key v) w

/-- Replaces the tables by the initial ones and forgets every decision. -/
def Memory.load (m : Memory) (t : InitialTables) : Memory :=
  { m with remoteIds := t.remoteIds, outputs := t.outputs, deleted := t.deleted,
           decisions := Table.empty }

/-- Writes `v` under `key` into one of the tables; `null` takes the entry out where the
table allows it. -/
def Memory.write (m : Memory) (table key : String) (v : Json) : Except Fault Memory :=
  match table with
  | "remote_ids" =>
    if v.isNull then .ok { m with remoteIds := m.remoteIds.erase key }
    else .ok { m with remoteIds := m.remoteIds.insert key v }
  | "outputs" =>
    match v with
    | .null => .ok { m with outputs := m.outputs.erase key }
    | .obj fields => .ok { m with outputs := m.outputs.insert key fields }
    | _ => .error (.invalidOperand "memwrite" ("outputs must be a map, got " ++ v.text))
  | "update_action" =>
    match v.asStr?.bind Decision.ofText? with
    | some d => .ok { m with decisions := m.decisions.insert key d }
    | none => .error (.invalidOperand "memwrite" ("bad update action " ++ v.text))
  | _ => .error (.invalidOperand "memwrite" ("cannot write into '" ++ table ++ "'"))

/-- Writes where the staged `superkey` and `key` say. -/
def Memory.writeStaged (m : Memory) (v : Json) : Except Fault Memory := do
  let table ← m.requireStr "memwrite" "superkey"
  let key ← m.requireStr "memwrite" "key"
  m.write table key v

/-- Where a branch that is taken goes. -/
def Program.target (p : Program) : Target → Except Fault Nat
  | .index i => .ok i
  | .label l => p.label l

/-! ### The staged resource -/

/-- The resource an instruction acts on. -/
structure Staged (W : Type) where
  op : ResourceOp
  name : String
  typeId : String
  kind : Kind W

namespace Staged

variable {W : Type}

/-- The resource whose name and type are in scratch. -/
def ofMemory (types : Registry W) (op : ResourceOp) (m : Memory) : Except Fault (Staged W) := do
  let name ← m.requireStr op.name "resource_name"
  let typeId ← m.requireStr op.name "resource_desc"
  let kind ← types.resolve typeId
  return ⟨op, name, typeId, kind⟩

/-- Who provides the staged resource. -/
def provider (s : Staged W) : Except Fault (Provider W) := s.kind.provides s.typeId

/-- Asks about the object of an identifier; a refusal becomes a fault that names the
operation and the resource. -/
def ask (s : Staged W) (p : Provider W) (id : Option Json) (r : Request) (w : W) :
    Except Fault r.Answer × W :=
  match p.ask id r w with
  | (.ok a, w) => (.ok a, w)
  | (.error reason, w) => (.error (.backend s.op.name s.name reason), w)

/-! ### Operations on the staged resource -/

/-- What a creation needs: the staged properties, no identifier that would be lost, and a
provider. -/
def prepareCreate (s : Staged W) (m : Memory) : Except Fault (Properties × Provider W) := do
  let properties ← m.requireObject s.op.name "properties"
  if s.kind.schema.needsRemoteId && (m.remoteId s.name).isSome then
    throw (.remoteIdAlreadySet s.name)
  let p ← s.provider
  return (properties, p)

/-- Creates the object and tracks its identifier. -/
def create (s : Staged W) (m : Memory) (w : W) : Outcome W :=
  match s.prepareCreate m with
  | .error f => .fault f m w
  | .ok (properties, p) =>
    match s.ask p none (.create properties) w with
    | (.error f, w) => .fault f m w
    | (.ok id, w) =>
      let id : Option Json := id
      if s.kind.schema.needsRemoteId && id.isNone then .fault (.missingRemoteId s.name) m w
      else .next { m with remoteIds := m.remoteIds.insert s.name (id.getD .null) } w

/-- Each field with the value that was read, `null` where none was. -/
def currentFields (fields : List String) (found : Properties) : Properties :=
  Entries.ofList (fields.map fun f => (f, (found.get? f).getD .null))

/-- Reads the fields to compare, and the outputs if the type has any. -/
def read (s : Staged W) (m : Memory) (w : W) : Outcome W :=
  let fields := s.kind.schema.readable
  let id := m.remoteId s.name
  match s.provider with
  | .error f => .fault f m w
  | .ok p =>
    match s.ask p id (.read fields) w with
    | (.error f, w) => .fault f m w
    | (.ok found, w) =>
      let m := m.setTemp "current" (.obj (currentFields fields found))
      if s.kind.schema.outputs.isEmpty then .next m w
      else
        match s.ask p id .outputs w with
        | (.error f, w) => .fault f m w
        | (.ok outputs, w) => .next { m with outputs := m.outputs.insert s.name outputs } w

/-- Compares what was read with what is declared, and decides. -/
def decide (s : Staged W) (rom : Rom) (m : Memory) : Except Fault Decision := do
  let desired ← match ← rom.resolve m.outputValue s.name with
    | .obj fields => pure fields
    | other => throw (.invalidOperand s.op.name
        ("'" ++ s.name ++ "' resolved to " ++ other.text ++ ", expected a map"))
  let current ← m.requireObject s.op.name "current"
  return compare s.kind.schema current desired

/-- The properties that may be changed in place. -/
def mutableOnly (s : Staged W) (properties : Properties) : Properties :=
  properties.filter fun e => s.kind.schema.mutableFields.contains e.1

/-- Sends the mutable part of the staged properties. -/
def sendUpdate (s : Staged W) (p : Provider W) (properties : Properties) (m : Memory) (w : W) :
    Outcome W :=
  match s.ask p (m.remoteId s.name) (.update (s.mutableOnly properties)) w with
  | (.error f, w) => .fault f m w
  | (.ok _, w) => .next m w

/-- Changes the object in place, once it is sure that no immutable field would change. -/
def update (s : Staged W) (m : Memory) (w : W) : Outcome W :=
  match (do return (← m.requireObject s.op.name "properties", ← s.provider) :
      Except Fault (Properties × Provider W)) with
  | .error f => .fault f m w
  | .ok (properties, p) =>
    match s.kind.schema.immutableFields.filter properties.contains with
    | [] => s.sendUpdate p properties m w
    | fixed =>
      match s.ask p (m.remoteId s.name) (.read fixed) w with
      | (.error f, w) => .fault f m w
      | (.ok current, w) =>
        match changedImmutable s.kind.schema current properties with
        | [] => s.sendUpdate p properties m w
        | changed => .fault (.immutableFieldChanged s.name changed) m w

/-- Deletes the object. -/
def delete (s : Staged W) (m : Memory) (w : W) : Outcome W :=
  match s.provider with
  | .error f => .fault f m w
  | .ok p =>
    match s.ask p (m.remoteId s.name) .delete w with
    | (.error f, w) => .fault f m w
    | (.ok _, w) => .next m w

/-- Stores the outputs of an object that is complete. -/
def storeOutputs (s : Staged W) (p : Provider W) (m : Memory) (w : W) : Outcome W :=
  match s.ask p (m.remoteId s.name) .outputs w with
  | (.error f, w) => .fault f m w
  | (.ok outputs, w) => .next { m with outputs := m.outputs.insert s.name outputs } w

/-- Waits until the object is created or updated, then stores its outputs. -/
def checkChange (s : Staged W) (c : Change) (m : Memory) (w : W) : Outcome W :=
  match s.provider with
  | .error f => .fault f m w
  | .ok p =>
    match s.ask p (m.remoteId s.name) (.complete c) w with
    | (.error f, w) => .fault f m w
    | (.ok complete, w) =>
      let complete : Bool := complete
      if complete then s.storeOutputs p m w else ⟨.ok .stay, m, w⟩

/-- The memory in which `name` is confirmed to be gone. -/
def confirmDeleted (m : Memory) (name : String) : Memory :=
  { m with deleted := m.deleted ++ [name], remoteIds := m.remoteIds.erase name,
           outputs := m.outputs.erase name }

/-- Waits until the object is gone, then forgets it. -/
def checkDelete (s : Staged W) (m : Memory) (w : W) : Outcome W :=
  match s.provider with
  | .error f => .fault f m w
  | .ok p =>
    match s.ask p (m.remoteId s.name) .deleteComplete w with
    | (.error f, w) => .fault f m w
    | (.ok complete, w) =>
      let complete : Bool := complete
      if complete then .next (confirmDeleted m s.name) w else ⟨.ok .stay, m, w⟩

/-- Asks whether the object is there; what has no identifier is taken to be there. -/
def checkExist (s : Staged W) (m : Memory) (w : W) : Outcome W :=
  if s.kind.schema.needsRemoteId then
    match s.provider with
    | .error f => .fault f m w
    | .ok p =>
      match s.ask p (m.remoteId s.name) .found w with
      | (.error f, w) => .fault f m w
      | (.ok found, w) => .next (m.setTest found) w
  else .next (m.setTest true) w

/-- Moves the identifier to the name of a put-off deletion, unless one waits there. -/
def markDeletable (s : Staged W) (m : Memory) (w : W) : Outcome W :=
  let aside := deletable s.name
  if (m.remoteId aside).isSome then .fault (.remoteIdAlreadySet aside) m w
  else
    let id := (m.remoteIds.get? s.name).getD .null
    .next { m with remoteIds := (m.remoteIds.erase s.name).insert aside id } w

/-- Reduces the staged properties to what an update may send. -/
def filter (s : Staged W) (m : Memory) (w : W) : Outcome W :=
  match (do return (← m.requireObject s.op.name "current",
      ← m.requireObject s.op.name "properties") : Except Fault (Properties × Properties)) with
  | .error f => .fault f m w
  | .ok (current, desired) =>
    .next (m.setTemp "properties" (.obj (updatable s.kind.schema current desired))) w

/-- Records the decision about the resource. -/
def rescmp (s : Staged W) (rom : Rom) (m : Memory) (w : W) : Outcome W :=
  match s.decide rom m with
  | .error f => .fault f m w
  | .ok d => .next { m with decisions := m.decisions.insert s.name d } w

/-- Carries out the operation. -/
def perform (s : Staged W) (rom : Rom) (m : Memory) (w : W) : Outcome W :=
  match s.op with
  | .create => s.create m w
  | .read => s.read m w
  | .update => s.update m w
  | .delete => s.delete m w
  | .checkCreate => s.checkChange .create m w
  | .checkUpdate => s.checkChange .update m w
  | .checkDelete => s.checkDelete m w
  | .checkExist => s.checkExist m w
  | .markDeletable => s.markDeletable m w
  | .filter => s.filter m w
  | .rescmp => s.rescmp rom m w

end Staged

/-! ### One instruction -/

/-- Carries out an instruction whose scratch values are all there. -/
def perform {W : Type} (p : Program) (types : Registry W) (i : Instruction) (m : Memory) (w : W) :
    Outcome W :=
  match i with
  | .init => .next (m.load p.tables) w
  | .halt => .next { m with ended := true } w
  | .clear => .next { m with temp := [] } w
  | .ret =>
    match m.callStack.getLast? with
    | none => .fault .stackUnderflow m w
    | some caller => ⟨.ok (.jump (caller + 1)), { m with callStack := m.callStack.dropLast }, w⟩
  | .invert =>
    match m.result i.name with
    | .error f => .fault f m w
    | .ok r => .next (m.setTest (r = 0)) w
  | .key name => .next (m.setTemp Memory.stagedKey (.str name)) w
  | .value v => bindStaged v m w
  | .valueRom address =>
    match p.tables.rom.resolve m.outputValue address with
    | .error f => .fault f m w
    | .ok v => bindStaged v m w
  | .valueUpdate name =>
    match m.decisions.get? name with
    | none => .fault (.decisionMissing name) m w
    | some d => .next { m with temp := [(Memory.resultKey, .str d.text)] } w
  | .memwrite v =>
    match m.writeStaged v with
    | .error f => .fault f m w
    | .ok m => .next m w
  | .compare expected =>
    .next (m.setTest (match m.temp.get? Memory.resultKey with
      | some v => v.same expected
      | none => false)) w
  | .assert name =>
    match m.result i.name with
    | .error f => .fault f m w
    | .ok r => if r = 1 then .next m w else .fault (.assertion name) m w
  | .gotoIf target =>
    match m.result i.name with
    | .error f => .fault f m w
    | .ok r =>
      if r = 0 then .next m w
      else
        match p.target target with
        | .error f => .fault f m w
        | .ok address => ⟨.ok (.jump address), m, w⟩
  | .call label =>
    match p.label label with
    | .error f => .fault f m w
    | .ok address =>
      ⟨.ok (.jump address), { m with callStack := m.callStack ++ [m.programCounter] }, w⟩
  | .resource op =>
    match Staged.ofMemory types op m with
    | .error f => .fault f m w
    | .ok s => s.perform p.tables.rom m w

/-- Carries out an instruction; the first scratch value that is missing is reported before
anything else happens. -/
def execute {W : Type} (p : Program) (types : Registry W) (i : Instruction) (m : Memory) (w : W) :
    Outcome W :=
  match i.requiredKeys.find? fun k => !m.temp.contains k with
  | some k => .fault (.missingParameter i.name k) m w
  | none => perform p types i m w

end Provisioning
