/-
Instructions.

A program is a list of instructions.  Some act on the resource whose name and type are
staged in scratch; the others move values and control.  An instruction is written as its
name, or as an object that binds its name to its operand.
-/
import Provisioning.Fault
import Provisioning.Json.Decode
import Provisioning.Json.Printer

namespace Provisioning

/-- What can be done with the staged resource. -/
inductive ResourceOp where
  | create
  | read
  | update
  | delete
  /-- Waits until the creation is complete. -/
  | checkCreate
  /-- Waits until the update is complete. -/
  | checkUpdate
  /-- Waits until the deletion is complete. -/
  | checkDelete
  /-- Asks whether the object is still there. -/
  | checkExist
  /-- Puts the object aside to be deleted later. -/
  | markDeletable
  /-- Reduces the staged properties to what an update may send. -/
  | filter
  /-- Compares what was read with what is wanted and records the decision. -/
  | rescmp
deriving DecidableEq, Inhabited

/-- Where a branch goes. -/
inductive Target where
  | index (i : Nat)
  | label (name : String)
deriving DecidableEq, Inhabited

/-- One instruction. -/
inductive Instruction where
  /-- Loads the initial tables. -/
  | init
  /-- Ends the program. -/
  | halt
  /-- Empties scratch. -/
  | clear
  /-- Goes on after the innermost call. -/
  | ret
  /-- Negates the result. -/
  | invert
  /-- Stages the key for the next value. -/
  | key (name : String)
  /-- Binds a literal to the staged key. -/
  | value (v : Json)
  /-- Binds the value at an address to the staged key. -/
  | valueRom (address : String)
  /-- Replaces scratch by what was decided about a resource. -/
  | valueUpdate (name : String)
  /-- Writes into one of the tables of the memory. -/
  | memwrite (v : Json)
  /-- Tests whether the result equals a value. -/
  | compare (expected : Json)
  /-- Demands that the result is 1. -/
  | assert (name : String)
  /-- Goes elsewhere if the result is not 0. -/
  | gotoIf (target : Target)
  /-- Goes to a label, to come back with the next return. -/
  | call (label : String)
  /-- Acts on the staged resource. -/
  | resource (op : ResourceOp)
deriving DecidableEq, Inhabited

/-- The name of an operation. -/
def ResourceOp.name : ResourceOp → String
  | .create => "create"
  | .read => "read"
  | .update => "update"
  | .delete => "delete"
  | .checkCreate => "check_create"
  | .checkUpdate => "check_update"
  | .checkDelete => "check_delete"
  | .checkExist => "check_exist"
  | .markDeletable => "mark_deletable"
  | .filter => "filter"
  | .rescmp => "rescmp"

/-- The branch target as it is displayed. -/
def Target.text : Target → String
  | .index i => toString i
  | .label l => l

namespace Instruction

/-- The name of an instruction. -/
def name : Instruction → String
  | .init => "init"
  | .halt => "end"
  | .clear => "clear"
  | .ret => "return"
  | .invert => "invert"
  | .key _ => "key"
  | .value _ => "value"
  | .valueRom _ => "value_rom"
  | .valueUpdate _ => "value_update"
  | .memwrite _ => "memwrite"
  | .compare _ => "compare"
  | .assert _ => "assert"
  | .gotoIf _ => "goto_if"
  | .call _ => "call"
  | .resource op => op.name

/-- Whether the instruction acts on the staged resource. -/
def isResourceOp : Instruction → Bool
  | .resource _ => true
  | _ => false

/-- The scratch values that have to be staged, in the order in which they are looked for. -/
def requiredKeys : Instruction → List String
  | .resource .create | .resource .update => ["resource_name", "resource_desc", "properties"]
  | .resource .filter => ["resource_name", "resource_desc", "properties", "current"]
  | .resource .rescmp => ["resource_name", "resource_desc", "current"]
  | .resource _ => ["resource_name", "resource_desc"]
  | .memwrite _ => ["superkey", "key"]
  | _ => []

/-- The operand, of the instructions that have one. -/
def operand? : Instruction → Option Json
  | .key s | .valueRom s | .valueUpdate s | .assert s | .call s => some (.str s)
  | .value v | .memwrite v | .compare v => some v
  | .gotoIf (.index i) => some (.nat i)
  | .gotoIf (.label l) => some (.str l)
  | _ => none

/-- The instruction as it is displayed. -/
def text (i : Instruction) : String :=
  match i with
  | .key s | .valueRom s | .valueUpdate s | .assert s | .call s => i.name ++ " " ++ s
  | .value v | .memwrite v | .compare v => i.name ++ " " ++ v.text
  | .gotoIf t => i.name ++ " " ++ t.text
  | _ => i.name

/-! ### As JSON -/

/-- The written form of an instruction. -/
def toJson (i : Instruction) : Json :=
  match i.operand? with
  | none => .str i.name
  | some v => .obj [(i.name, v)]

/-- The instruction without operand of that name. -/
def bare? (op : String) : Option Instruction :=
  match op with
  | "init" => some .init
  | "end" => some .halt
  | "clear" => some .clear
  | "return" => some .ret
  | "invert" => some .invert
  | "create" => some (.resource .create)
  | "read" => some (.resource .read)
  | "update" => some (.resource .update)
  | "delete" => some (.resource .delete)
  | "check_create" => some (.resource .checkCreate)
  | "check_update" => some (.resource .checkUpdate)
  | "check_delete" => some (.resource .checkDelete)
  | "check_exist" => some (.resource .checkExist)
  | "mark_deletable" => some (.resource .markDeletable)
  | "filter" => some (.resource .filter)
  | "rescmp" => some (.resource .rescmp)
  | _ => none

/-- An operand that has to be text. -/
def textOperand (op : String) (v : Json) : Except Fault String :=
  match v with
  | .str s => .ok s
  | _ => .error (.invalidOperand op ("expected a string, got " ++ v.text))

/-- An operand that has to be a label or a position. -/
def targetOperand (op : String) (v : Json) : Except Fault Target :=
  match v with
  | .str l => .ok (.label l)
  | .num n => match n.asIndex? with
    | some i => .ok (.index i)
    | none => .error (.invalidOperand op ("bad index " ++ n.text))
  | _ => .error (.invalidOperand op ("expected a label or index, got " ++ v.text))

/-- The instruction of that name with its operand. -/
def immediate (op : String) (v : Json) : Except Fault Instruction :=
  match op with
  | "key" => (textOperand op v).map .key
  | "value" => .ok (.value v)
  | "value_rom" => (textOperand op v).map .valueRom
  | "value_update" => (textOperand op v).map .valueUpdate
  | "memwrite" => .ok (.memwrite v)
  | "compare" => .ok (.compare v)
  | "assert" => (textOperand op v).map .assert
  | "call" => (textOperand op v).map .call
  | "goto_if" => (targetOperand op v).map .gotoIf
  | _ => .error (.unknownInstruction op)

/-- The instruction that JSON stands for. -/
def ofJson (j : Json) : Except Fault Instruction :=
  match j with
  | .str op => match bare? op with
    | some i => .ok i
    | none => .error (.unknownInstruction op)
  | .obj [(op, v)] => immediate op v
  | _ => .error (.unknownInstruction j.text)

end Instruction

end Provisioning
