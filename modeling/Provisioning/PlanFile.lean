/-
Plan files.

A plan file holds the types, the resources in order, and whether to recreate what is gone.
In the value of a field, a table with a single key may stand for a reference to a resource
that comes earlier in the file: to the whole of it, to one of its outputs, or to its
identifier.  So a plan file cannot make resources wait for each other in a circle.
-/
import Provisioning.Plan.Compile
import Provisioning.Toml.Document

namespace Provisioning

/-- A resource as a plan file lists it. -/
structure PlanEntry where
  typeId : String
  name : String
  properties : Table Json
deriving DecidableEq

/-- What a plan file says. -/
structure PlanFile where
  createMissing : Bool
  types : Catalog
  resources : List PlanEntry
deriving DecidableEq

/-- What is wrong with a reference in a value. -/
inductive ReferenceError where
  /-- No resource of that name comes earlier. -/
  | notDeclared (name : String)
  /-- An output has to be written as resource and field with a dot between them. -/
  | malformed (target : String)
  /-- The type of the resource has no such output. -/
  | refused (cause : PlanError)
deriving DecidableEq

/-- Why a plan file cannot be used. -/
inductive PlanFileError where
  /-- The text is not a plan file. -/
  | unreadable
  /-- A reference in the value of a field is wrong. -/
  | field (resource field : String) (cause : ReferenceError)
  /-- A resource cannot be declared. -/
  | resource (name : String) (cause : PlanError)
deriving DecidableEq

/-- The sentence shown for a wrong reference. -/
def ReferenceError.message : ReferenceError → String
  | .notDeclared name => "'" ++ name ++ "' is not declared before this reference"
  | .malformed target => "'" ++ target ++ "' must be written as resource.field"
  | .refused cause => cause.message

namespace PlanFileError

/-- The sentences shown for an error, from the place to the cause. -/
def chain : PlanFileError → List String
  | .unreadable => ["the text is not a plan file"]
  | .field r f cause => ["In " ++ r ++ "." ++ f, cause.message]
  | .resource n cause => ["Could not declare '" ++ n ++ "'", cause.message]

/-- The error of the plan behind it, if there is one. -/
def cause? : PlanFileError → Option PlanError
  | .field _ _ (.refused cause) | .resource _ cause => some cause
  | _ => none

end PlanFileError

/-! ### As JSON -/

namespace PlanEntry

/-- Type and name have to be there. -/
def ofJson? (j : Json) : Option PlanEntry :=
  j.decodeRecord? 3 fun r => do
    let typeId ← r.required? 0 "type" Json.asStr?
    let name ← r.required? 1 "name" Json.asStr?
    let properties ← r.optional? 2 "properties" Table.empty (Json.tableOf? some)
    return { typeId, name, properties }

/-- The record of a listed resource. -/
def toJson (e : PlanEntry) : Json :=
  .obj [("type", .str e.typeId), ("name", .str e.name), ("properties", .obj e.properties.entries)]

end PlanEntry

namespace PlanFile

/-- The settings of a plan file. -/
def settings? (j : Json) : Option Bool :=
  j.decodeRecord? 1 fun r => r.optional? 0 "create_missing" false Json.asBool?

/-- Every part of a plan file may be left out. -/
def ofJson? (j : Json) : Option PlanFile :=
  j.decodeRecord? 3 fun r => do
    let createMissing ← r.optional? 0 "engine" false settings?
    let types ← r.optional? 1 "types" Table.empty (Json.tableOf? Schema.ofJson?)
    let resources ← r.optional? 2 "resources" [] (Json.listOf? PlanEntry.ofJson?)
    return { createMissing, types, resources }

/-- The plan file as an object with all its parts. -/
def toJson (p : PlanFile) : Json :=
  .obj [("engine", .obj [("create_missing", .bool p.createMissing)]),
    ("types", .obj (p.types.entries.map fun e => (e.1, e.2.toJson))),
    ("resources", .arr (p.resources.map PlanEntry.toJson))]

/-- The plan file a TOML text spells. -/
def ofText (text : String) : Except PlanFileError PlanFile :=
  match (Toml.ofText? text).bind ofJson? with
  | some p => .ok p
  | none => .error .unreadable

/-! ### References in values -/

/-- Splits a text at its first dot. -/
def splitDot : List Char → Option (List Char × List Char)
  | [] => none
  | '.' :: rest => some ([], rest)
  | c :: rest => (splitDot rest).map fun r => (c :: r.1, r.2)

/-- The reference that a table with this single key and this text stands for; nothing if
the key does not mark a reference. -/
def reference? (declared : Table Resource) (key target : String) :
    Option (Except ReferenceError Raw) :=
  let find (name : String) : Except ReferenceError Resource :=
    match declared.get? name with
    | some r => .ok r
    | none => .error (.notDeclared name)
  match key with
  | "$ref" => some ((find target).map .resource)
  | "$remote_id" => some ((find target).map fun r => .output r.remoteId)
  | "$output" => some (match splitDot target.toList with
    | none => .error (.malformed target)
    | some (name, field) => do
      let r ← find (String.ofList name)
      match r.output (String.ofList field) with
      | .ok o => return .output o
      | .error cause => throw (.refused cause))
  | _ => none

mutual

/-- A value of a plan file, its references expanded. -/
def expand (declared : Table Resource) : Json → Except ReferenceError Raw
  | .arr items => do return .list (← expandItems declared items)
  | .obj [(key, .str target)] =>
    match reference? declared key target with
    | some r => r
    | none => .ok (.map [(key, .json (.str target))])
  | .obj fields => do return .map (← expandFields declared fields)
  | v => .ok (.json v)

/-- Items, their references expanded. -/
def expandItems (declared : Table Resource) : List Json → Except ReferenceError (List Raw)
  | [] => .ok []
  | v :: vs => do
    let raw ← expand declared v
    return raw :: (← expandItems declared vs)

/-- Fields, their references expanded. -/
def expandFields (declared : Table Resource) :
    List (String × Json) → Except ReferenceError (List (String × Raw))
  | [] => .ok []
  | (k, v) :: vs => do
    let raw ← expand declared v
    return (k, raw) :: (← expandFields declared vs)

end

/-! ### Declaring -/

/-- The bindings of a listed resource, in order. -/
def bindings (declared : Table Resource) (name : String) :
    List (String × Json) → Except PlanFileError (List (String × Raw))
  | [] => .ok []
  | (field, v) :: rest =>
    match expand declared v with
    | .error cause => .error (.field name field cause)
    | .ok raw => do return (field, raw) :: (← bindings declared name rest)

/-- Adds listed resources one after the other. -/
def declareAll : Declaration → List PlanEntry → Except PlanFileError Declaration
  | d, [] => .ok d
  | d, e :: rest => do
    let fields ← bindings d.resources e.name e.properties.entries
    match d.add e.typeId e.name fields with
    | .error cause => throw (.resource e.name cause)
    | .ok (d, _) => declareAll d rest

/-- The declaration of everything a plan file lists. -/
def declare (p : PlanFile) : Except PlanFileError Declaration :=
  declareAll (Declaration.empty p.types) p.resources

/-- The plan for a declaration of this file and a snapshot. -/
def plan (p : PlanFile) (d : Declaration) (prior : Snapshot) : Plan := ⟨d, prior, p.createMissing⟩

end PlanFile

end Provisioning
