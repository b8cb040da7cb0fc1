/-
A small world to try programs on.

It has four types.  Files are known by name and carry the times of their creation and last
change.  Servers are numbered, cannot be changed in place, and are deleted at the end of a
run.  Addresses point to a server.  Joined strings are known by the text they make.

The clock is set from outside, completion checks can be told to say "not yet" for a while,
and any operation of a type can be made to fail.
-/
import Provisioning.Backend.Basic
import Provisioning.Json.Printer
import Provisioning.Reconcile

namespace Provisioning

namespace Demo

/-- Everything there is. -/
structure World where
  clock : String
  files : Table Properties
  /-- Servers by number; the place of a deleted one stays empty. -/
  servers : List (Option Properties)
  addresses : Table Json
  joined : Table Json
  /-- How many completion checks will still say "not yet". -/
  pending : Nat
  /-- Operations that fail, each as type and operation. -/
  failures : List String
deriving DecidableEq

namespace World

/-- Nothing is there yet. -/
def empty : World :=
  ⟨"2000-01-01 00:00:00 UTC", Table.empty, [], Table.empty, Table.empty, 0, []⟩

instance : Inhabited World := ⟨empty⟩

/-- The record of a file that was not changed since `time`. -/
def fileRecord (name : String) (contents : Json) (time : String) : Properties :=
  [("name", .str name), ("contents", contents), ("created_at", .str time),
    ("updated_at", .str time)]

/-- Adds a file. -/
def addFile (w : World) (name contents createdAt : String) : World :=
  { w with files := w.files.insert name (fileRecord name (.str contents) createdAt) }

/-- Adds a server, and gives its identifier. -/
def addServer (w : World) (size : Json) (createdAt : String) : String × World :=
  ("server" ++ toString w.servers.length,
    { w with servers := w.servers ++ [some [("size", size), ("created_at", .str createdAt)]] })

/-- Points an address to a server. -/
def setAddress (w : World) (address : String) (serverId : Json) : World :=
  { w with addresses := w.addresses.insert address serverId }

end World

/-- An answer in a world. -/
abbrev Answered (α : Type) := Except String α × World

/-- Fails if `operation` was made to fail. -/
def guarded {α : Type} (w : World) (operation : String) (k : Answered α) : Answered α :=
  if w.failures.contains operation then (.error (operation ++ ": injected failure"), w) else k

/-- Whether an operation is complete; waiting checks are used up one by one. -/
def poll (w : World) (operation : String) : Answered Bool :=
  guarded w operation
    (if w.pending = 0 then (.ok true, w) else (.ok false, { w with pending := w.pending - 1 }))

/-- The identifier of a handle, which has to be text. -/
def withId {α : Type} (w : World) (id : Option Json) (k : String → Answered α) : Answered α :=
  match id with
  | some (.str s) => k s
  | _ => (.error "no remote id", w)

/-! ### Files -/

/-- The shape of a file. -/
def fileSchema : Schema :=
  { mutableFields := ["contents"], immutableFields := ["name"],
    outputs := ["created_at", "updated_at"], requiredFields := ["name"],
    needsRemoteId := false, deleteAtEnd := false }

/-- Reads fields of a file. -/
def readFile (w : World) (id : Option Json) (fields : List String) : Answered Properties :=
  withId w id fun name => match w.files.get? name with
    | some record => (.ok (pick record fields []), w)
    | none => (.error ("no such file: " ++ name), w)

/-- The provider of files. -/
def fileProvider : Provider World where
  ask id r w := match r with
    | .create ps => guarded w "file.create" (
      match (ps.get? "name").bind Json.asStr? with
      | none => (.error "file needs a name", w)
      | some name =>
        let record := World.fileRecord name ((ps.get? "contents").getD .null) w.clock
        (.ok (some (.str name)), { w with files := w.files.insert name record }))
    | .read fields => readFile w id fields
    | .update ps => guarded w "file.update" (withId w id fun name =>
      match w.files.get? name with
      | none => (.error ("no such file: " ++ name), w)
      | some record =>
        let record := (record.overlay ps).set "updated_at" (.str w.clock)
        (.ok (), { w with files := w.files.insert name record }))
    | .delete => withId w id fun name => (.ok (), { w with files := w.files.erase name })
    | .outputs => readFile w id ["created_at", "updated_at"]
    | .found => withId w id fun name => (.ok (w.files.contains name), w)
    | .complete .create => poll w "file.create_complete"
    | .complete .update => poll w "file.update_complete"
    | .deleteComplete => poll w "file.delete_complete"

/-! ### Servers -/

/-- The shape of a server. -/
def serverSchema : Schema :=
  { mutableFields := [], immutableFields := ["size"], outputs := ["created_at"],
    requiredFields := [], needsRemoteId := true, deleteAtEnd := true }

/-- A number below 2^64 in decimal digits, with an optional plus sign. -/
def number? (s : String) : Option Nat :=
  let text := match s.toList with
    | '+' :: rest => rest
    | cs => cs
  match Numeral.digits text with
  | ([], _) | (_, _ :: _) => none
  | (ds, []) =>
    let n := Numeral.natOf 10 ds
    if n < UInt64.size then some n else none

/-- The number of a server. -/
def withServer {α : Type} (w : World) (id : Option Json) (k : Nat → Answered α) : Answered α :=
  withId w id fun name =>
    match (name.dropPrefix? "server").bind fun rest => number? rest.toString with
    | some n => k n
    | none => (.error ("bad server id: " ++ name), w)

/-- Reads fields of a server. -/
def readServer (w : World) (id : Option Json) (fields : List String) : Answered Properties :=
  withServer w id fun n => match w.servers[n]? with
    | some (some record) => (.ok (pick record fields []), w)
    | _ => (.error ("server" ++ toString n ++ " does not exist"), w)

/-- The provider of servers. -/
def serverProvider : Provider World where
  ask id r w := match r with
    | .create ps => guarded w "server.create" (
      let (id, w) := w.addServer ((ps.get? "size").getD .null) w.clock
      (.ok (some (.str id)), w))
    | .read fields => readServer w id fields
    | .update _ => (.error "servers cannot be updated in place", w)
    | .delete => guarded w "server.delete" (withServer w id fun n =>
        (.ok (), { w with servers := w.servers.set n none }))
    | .outputs => readServer w id ["created_at"]
    | .found => withServer w id fun n => (.ok ((w.servers[n]?).join.isSome), w)
    | .complete .create => poll w "server.create_complete"
    | .complete .update => (.ok true, w)
    | .deleteComplete => poll w "server.delete_complete"

/-! ### Addresses -/

/-- The shape of an address. -/
def addressSchema : Schema :=
  { mutableFields := ["server_id"], immutableFields := [], outputs := [], requiredFields := [],
    needsRemoteId := true, deleteAtEnd := false }

/-- The provider of addresses. -/
def addressProvider : Provider World where
  ask id r w := match r with
    | .create ps =>
      let address := "10.0.0." ++ toString (w.addresses.size + 1)
      (.ok (some (.str address)), w.setAddress address ((ps.get? "server_id").getD .null))
    | .read _ => withId w id fun address => match w.addresses.get? address with
      | some serverId => (.ok [("server_id", serverId)], w)
      | none => (.error ("no such address: " ++ address), w)
    | .update ps => guarded w "ip_address.update" (withId w id fun address =>
      match ps.get? "server_id" with
      | some serverId => (.ok (), w.setAddress address serverId)
      | none => (.ok (), w))
    | .delete => withId w id fun address =>
        (.ok (), { w with addresses := w.addresses.erase address })
    | .outputs => (.ok [], w)
    | .found => withId w id fun address => (.ok (w.addresses.contains address), w)
    | .complete .create => (.ok true, w)
    | .complete .update => poll w "ip_address.update_complete"
    | .deleteComplete => (.ok true, w)

/-! ### Joined strings -/

/-- The shape of joined strings. -/
def joinerSchema : Schema :=
  { mutableFields := ["strings"], immutableFields := [], outputs := ["result"],
    requiredFields := [], needsRemoteId := true, deleteAtEnd := false }

/-- The provider of joined strings. -/
def joinerProvider : Provider World where
  ask id r w := match r with
    | .create ps =>
      let strings := (ps.get? "strings").getD (.arr [])
      match strings with
      | .arr items =>
        let text := "\n".intercalate (items.map fun v => v.asStr?.getD "")
        (.ok (some (.str text)), { w with joined := w.joined.insert text strings })
      | _ => (.error "strings must be a list", w)
    | .read _ => withId w id fun text =>
        (.ok [("strings", (w.joined.get? text).getD .null)], w)
    | .update ps => withId w id fun text => match ps.get? "strings" with
      | some strings => (.ok (), { w with joined := w.joined.insert text strings })
      | none => (.ok (), w)
    | .delete => withId w id fun text => (.ok (), { w with joined := w.joined.erase text })
    | .outputs => (.ok [("result", id.getD .null)], w)
    | .found => (.ok true, w)
    | .complete _ => (.ok true, w)
    | .deleteComplete => (.ok true, w)

/-- The four types. -/
def registry : Registry World :=
  Table.ofList
    [("file", ⟨fileSchema, some fileProvider⟩), ("server", ⟨serverSchema, some serverProvider⟩),
      ("ip_address", ⟨addressSchema, some addressProvider⟩),
      ("string_joiner", ⟨joinerSchema, some joinerProvider⟩)]

end Demo

end Provisioning
