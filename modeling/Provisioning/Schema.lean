/-
The shape of a resource type.

A schema lists the fields that can be set when an object is created: the mutable ones
may also be changed in place, a change of an immutable one needs a new object.  Outputs
are produced by the backend.  Two flags say whether the backend assigns an identifier of
its own, and whether an object that is given up has to stay until the end of the run.
-/
import Provisioning.Json.Decode

namespace Provisioning

/-- The fields of a resource type and how its objects are identified and deleted. -/
structure Schema where
  /-- Fields that can be set at creation and changed in place. -/
  mutableFields : List String
  /-- Fields that can be set at creation only. -/
  immutableFields : List String
  /-- Fields the backend produces. -/
  outputs : List String
  /-- Settable fields that a declaration may not leave out. -/
  requiredFields : List String
  /-- Whether the backend assigns an identifier. -/
  needsRemoteId : Bool
  /-- Whether deletion waits until the end of the run. -/
  deleteAtEnd : Bool
deriving DecidableEq, Inhabited

/-- Schemas by type id. -/
abbrev Catalog := Table Schema

namespace Schema

/-- Whether a declaration may bind the field. -/
def settable (s : Schema) (field : String) : Bool :=
  s.mutableFields.contains field || s.immutableFields.contains field

/-- What is read back to compare: the immutable fields, then the mutable ones. -/
def readable (s : Schema) : List String := s.immutableFields ++ s.mutableFields

/-- A put-off deletion needs an identifier to come back to. -/
def orderly (s : Schema) : Bool := !s.deleteAtEnd || s.needsRemoteId

/-- Every field of a schema may be left out. -/
def ofJson? (j : Json) : Option Schema :=
  j.decodeRecord? 6 fun r => do
    let mutableFields ← r.optional? 0 "mutable" [] Json.strings?
    let immutableFields ← r.optional? 1 "immutable" [] Json.strings?
    let outputs ← r.optional? 2 "outputs" [] Json.strings?
    let requiredFields ← r.optional? 3 "required" [] Json.strings?
    let needsRemoteId ← r.optional? 4 "needs_remote_id" false Json.asBool?
    let deleteAtEnd ← r.optional? 5 "delete_at_end" false Json.asBool?
    return { mutableFields, immutableFields, outputs, requiredFields, needsRemoteId, deleteAtEnd }

/-- The schema as an object with all its fields. -/
def toJson (s : Schema) : Json :=
  .obj [("mutable", .strs s.mutableFields), ("immutable", .strs s.immutableFields),
    ("outputs", .strs s.outputs), ("required", .strs s.requiredFields),
    ("needs_remote_id", .bool s.needsRemoteId), ("delete_at_end", .bool s.deleteAtEnd)]

end Schema

end Provisioning
