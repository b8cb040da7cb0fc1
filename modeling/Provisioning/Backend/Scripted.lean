/-
A backend that can be told how to answer.

Its world holds records by type and identifier, counts the creations of each type, keeps a
queue of prepared answers for each method, and writes down every call.  A call first takes
the head of its queue: a prepared failure or a prepared answer.  With an empty queue it
behaves like a plain store: a creation stores the given fields together with made-up
outputs, reading and updating need the record to be there, deleting never fails, and
everything is complete at once.
-/
import Provisioning.Backend.Basic
import Provisioning.Json.Printer
import Provisioning.Reconcile

namespace Provisioning

namespace Scripted

/-- A prepared answer. -/
inductive Reply where
  /-- Fail, for these reasons; the first is the root cause. -/
  | fail (causes : List String)
  /-- Answer with this value. -/
  | give (v : Json)
deriving DecidableEq

/-- Records, counters, prepared answers and calls. -/
structure World where
  /-- Each record under its type and identifier. -/
  objects : Table Properties
  /-- How many objects of each type were created. -/
  created : Table Nat
  /-- Prepared answers by type and method. -/
  script : Table (List Reply)
  /-- The calls since they were last taken. -/
  calls : List String
deriving DecidableEq

/-- Nothing is stored and nothing prepared. -/
def World.empty : World := ⟨Table.empty, Table.empty, Table.empty, []⟩

instance : Inhabited World := ⟨World.empty⟩

/-- How the objects of a type are identified. -/
structure Naming where
  /-- The field that serves as identifier; without it one is made up from a counter. -/
  idField : Option String
  /-- Objects have no identifier at all. -/
  noId : Bool
deriving DecidableEq, Inhabited

/-- A handle's identifier as JSON. -/
def idJson (id : Option Json) : Json := id.getD .null

/-- Where the record of an object is kept. -/
def objectKey (typeId : String) (id : Json) : String := typeId ++ "/" ++ id.text

/-- The word for a request, and what the log shows of its argument. -/
def describe : Request → String × String
  | .create ps => ("create", " " ++ (Json.obj ps).text)
  | .read fields => ("read", " " ++ (Json.strs fields).text)
  | .update ps => ("update", " " ++ (Json.obj ps).text)
  | .delete => ("delete", "")
  | .outputs => ("outputs", "")
  | .found => ("exists", "")
  | .complete .create => ("create_complete", "")
  | .complete .update => ("update_complete", "")
  | .deleteComplete => ("delete_complete", "")

namespace World

/-- Writes a call down. -/
def note (w : World) (call : String) : World := { w with calls := w.calls ++ [call] }

/-- Takes the next prepared answer for a method. -/
def pop (w : World) (method : String) : Option Reply × World :=
  match (w.script.get? method).getD [] with
  | [] => (none, w)
  | r :: rest => (some r, { w with script := w.script.insert method rest })

/-- Adds prepared answers behind those that are waiting. -/
def prepare (w : World) (more : List (String × List Reply)) : World :=
  let queue := fun (script : Table (List Reply)) (e : String × List Reply) =>
    script.insert e.1 ((script.get? e.1).getD [] ++ e.2)
  { w with script := more.foldl queue w.script }

/-- Stores records. -/
def seed (w : World) (objects : List (String × Json × Properties)) : World :=
  let store := fun (t : Table Properties) (e : String × Json × Properties) =>
    t.insert (objectKey e.1 e.2.1) e.2.2
  { w with objects := objects.foldl store w.objects }

/-- The record of an object. -/
def record? (w : World) (typeId : String) (id : Option Json) : Option Properties :=
  w.objects.get? (objectKey typeId (idJson id))

/-- Replaces the record of an object. -/
def put (w : World) (typeId : String) (id : Option Json) (record : Properties) : World :=
  { w with objects := w.objects.insert (objectKey typeId (idJson id)) record }

/-- Removes the record of an object, and says whether there was one. -/
def drop (w : World) (typeId : String) (id : Option Json) : Bool × World :=
  let key := objectKey typeId (idJson id)
  (w.objects.contains key, { w with objects := w.objects.erase key })

end World

/-- Creates an object: its identifier is the prepared one, or follows from the naming. -/
def createObject (typeId : String) (schema : Schema) (naming : Naming) (given : Option Json)
    (properties : Properties) (w : World) : Option Json × World :=
  let count := (w.created.get? typeId).getD 0 + 1
  let id : Option Json := match given with
    | some .null => none
    | some v => some v
    | none =>
      if naming.noId then none
      else match naming.idField with
        | some f => properties.get? f
        | none => some (.str (typeId ++ "-" ++ toString count))
  let record := schema.outputs.foldl
    (fun ps f => ps.set f (.str (typeId ++ "." ++ f ++ "#" ++ toString count))) properties
  let w := { w with created := w.created.insert typeId count }
  (id, w.put typeId id record)

/-- The value of a prepared answer as fields. -/
def fieldsOf (v : Json) : Properties := v.asObj?.getD []

/-- Answers a request when nothing prepared fails; `given` is the prepared value. -/
def answer (typeId : String) (schema : Schema) (naming : Naming) (id : Option Json)
    (given : Option Json) (w : World) : (r : Request) → Except String r.Answer × World
  | .create ps =>
    let (id, w) := createObject typeId schema naming given ps w
    (.ok id, w)
  | .read fields => match given, w.record? typeId id with
    | some v, _ => (.ok (fieldsOf v), w)
    | none, some record => (.ok (pick record fields []), w)
    | none, none => (.error gone, w)
  | .update ps => match given, w.record? typeId id with
    | some _, _ => (.ok (), w)
    | none, some record => (.ok (), w.put typeId id (record.overlay ps))
    | none, none => (.error gone, w)
  | .delete => match given with
    | some _ => (.ok (), w)
    | none => (.ok (), (w.drop typeId id).2)
  | .outputs => match given, w.record? typeId id with
    | some v, _ => (.ok (fieldsOf v), w)
    | none, some record => (.ok (pick record schema.outputs []), w)
    | none, none => (.error gone, w)
  | .found => match given with
    | some v => (.ok (v = .bool true : Bool), w)
    | none => (.ok (w.record? typeId id).isSome, w)
  | .complete _ => complete
  | .deleteComplete => complete
where
  /-- What is said of an object without a record. -/
  gone : String := "no such object: " ++ (idJson id).text
  /-- Completion is immediate unless prepared otherwise. -/
  complete : Except String Bool × World := match given with
    | some v => (.ok (v = .bool true : Bool), w)
    | none => (.ok true, w)

/-- The provider of a type. -/
def provider (typeId : String) (schema : Schema) (naming : Naming) : Provider World where
  ask id r w :=
    let (method, argument) := describe r
    let name := typeId ++ "." ++ method
    let w := w.note (name ++ " " ++ (idJson id).text ++ argument)
    match w.pop name with
    | (some (.fail causes), w) => (.error (": ".intercalate causes.reverse), w)
    | (some (.give v), w) => answer typeId schema naming id (some v) w r
    | (none, w) => answer typeId schema naming id none w r

end Scripted

/-- A backend whose objects are nothing but an identifier, taken from the field `name`.
Whatever is asked is granted, and nothing is ever read. -/
def nominalProvider (W : Type) : Provider W where
  ask _ r w := match r with
    | .create ps => (.ok (ps.get? "name"), w)
    | .read _ => (.ok [], w)
    | .outputs => (.ok [], w)
    | .update _ => (.ok (), w)
    | .delete => (.ok (), w)
    | .found => (.ok true, w)
    | .complete _ => (.ok true, w)
    | .deleteComplete => (.ok true, w)

end Provisioning
