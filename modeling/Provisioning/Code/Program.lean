/-
Programs.

A program is a list of instructions with the tables that its first instruction loads and
the ones it looks things up in.  Its written form, the artifact, has one field for the
tables and one for the instructions; either may be missing.
-/
import Provisioning.Code.Instruction
import Provisioning.Code.Rom

namespace Provisioning

/-- The tables a program starts with. -/
structure InitialTables where
  /-- The declared values. -/
  rom : Rom
  /-- The identifiers tracked from earlier runs. -/
  remoteIds : Table Json
  /-- Where each subroutine starts. -/
  labels : Table Nat
  outputs : Table Properties
  deleted : List String
deriving DecidableEq

/-- Tables and instructions. -/
structure Program where
  tables : InitialTables
  instructions : List Instruction
deriving DecidableEq

namespace InitialTables

/-- Empty tables. -/
def empty : InitialTables := ⟨Rom.empty, Table.empty, Table.empty, Table.empty, []⟩

instance : Inhabited InitialTables := ⟨empty⟩

/-- The tables as an object. -/
def toJson (t : InitialTables) : Json :=
  .obj [("rom", t.rom.toJson), ("remote_ids", .obj t.remoteIds.entries),
    ("labels", .obj (t.labels.entries.map fun e => (e.1, .nat e.2))),
    ("outputs", .obj (t.outputs.entries.map fun e => (e.1, .obj e.2))),
    ("deleted", .strs t.deleted)]

/-- The tables that JSON stands for; each may be left out. -/
def ofJson? (j : Json) : Option InitialTables :=
  j.decodeRecord? 5 fun r => do
    let rom ← r.optional? 0 "rom" Rom.empty Rom.ofJson?
    let remoteIds ← r.optional? 1 "remote_ids" Table.empty (Json.tableOf? some)
    let labels ← r.optional? 2 "labels" Table.empty (Json.tableOf? Json.index?)
    let outputs ← r.optional? 3 "outputs" Table.empty (Json.tableOf? Json.asObj?)
    let deleted ← r.optional? 4 "deleted" [] Json.strings?
    return { rom, remoteIds, labels, outputs, deleted }

end InitialTables

namespace Program

/-- The program without instructions. -/
def empty : Program := ⟨.empty, []⟩

instance : Inhabited Program := ⟨empty⟩

/-- How many instructions there are. -/
def size (p : Program) : Nat := p.instructions.length

/-- Where a label points. -/
def label (p : Program) (l : String) : Except Fault Nat :=
  match p.tables.labels.get? l with
  | some i => .ok i
  | none => .error (.labelNotFound l)

/-- The artifact of a program. -/
def toArtifact (p : Program) : Json :=
  .obj [("init", p.tables.toJson), ("instructions", .arr (p.instructions.map Instruction.toJson))]

/-- The program an artifact stands for. -/
def ofArtifact (artifact : Json) : Except Fault Program := do
  let tables ← match artifact.field? "init" with
    | none => pure InitialTables.empty
    | some j => match InitialTables.ofJson? j with
      | some t => pure t
      | none => throw (.invalidOperand "init" "the tables cannot be read")
  let instructions ← match artifact.field? "instructions" with
    | none => pure []
    | some (.arr items) => items.mapM Instruction.ofJson
    | some other =>
      throw (.invalidOperand "instructions" ("expected a list, got " ++ other.text))
  return ⟨tables, instructions⟩

/-- Equality of programs: tables in any order, values as values. -/
def same (p q : Program) : Bool := p.toArtifact.same q.toArtifact

end Program

end Provisioning
