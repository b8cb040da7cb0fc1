/-
What is tracked between runs.

A snapshot maps the name of each tracked resource to the identifier the backend gave it,
its type, and the names it depended on when it was last applied.  It is what a run leaves
behind and what the next compilation starts from.
-/
import Provisioning.Json.Parser
import Provisioning.Json.Decode

namespace Provisioning

/-- One tracked object. -/
structure Tracked where
  /-- The identifier the backend gave it. -/
  remoteId : Json
  typeId : String
  dependencies : List String
deriving DecidableEq

/-- The tracked objects by name. -/
abbrev Snapshot := Table Tracked

namespace Tracked

/-- Identifier and type have to be there; without dependencies there are none. -/
def ofJson? (j : Json) : Option Tracked :=
  j.decodeRecord? 3 fun r => do
    let remoteId ← r.required? 0 "name" some
    let typeId ← r.required? 1 "desc" Json.asStr?
    let dependencies ← r.optional? 2 "dependencies" [] Json.strings?
    return { remoteId, typeId, dependencies }

/-- The record of a tracked object. -/
def toJson (t : Tracked) : Json :=
  .obj [("name", t.remoteId), ("desc", .str t.typeId), ("dependencies", .strs t.dependencies)]

end Tracked

namespace Snapshot

/-- A snapshot is an object with a record for each name. -/
def ofJson? (j : Json) : Option Snapshot := j.tableOf? Tracked.ofJson?

/-- The snapshot as an object. -/
def toJson (s : Snapshot) : Json := .obj (s.entries.map fun e => (e.1, e.2.toJson))

/-- The snapshot a text spells.  A record that writes one of its fields twice is refused. -/
def ofText? (text : String) : Option Snapshot := do
  let j ← Json.ofTextRaw? text
  let s ← ofJson? j
  return s.mapValues fun _ t => { t with remoteId := t.remoteId.merged }

end Snapshot

end Provisioning
