/-
The table of declared values.

Every value of a program lives at an address of its own, and values that contain others
hold the addresses of their parts: the part `k` of the value at `a` lives at `a.k`.  So
one look-up reaches any value, however deep it was nested when it was declared.  A
resource's fields form the hash at its own name; a resource inside a value is stored as
the hash of its fields.

Reading follows addresses.  In a table of n entries a path that never comes back to an
address has at most n steps, so n + 1 steps are enough for any value, and a longer path
goes round in circles.
-/
import Provisioning.Declare.Expr
import Provisioning.Fault

namespace Provisioning

namespace Rom

/-- What is stored at an address: a literal, the addresses of parts, or a reference to an
output. -/
inductive Entry where
  | literal (value : Json)
  | array (references : List String)
  | hash (references : Table String)
  | output (ref : OutputRef)
deriving DecidableEq

end Rom

/-- Stored values by address. -/
structure Rom where
  entries : Table Rom.Entry
deriving DecidableEq

instance : Inhabited Rom := ⟨⟨Table.empty⟩⟩

namespace Rom

/-- The address of the part `key` of the value at `parent`. -/
def child (parent key : String) : String := parent ++ "." ++ key

/-! ### Flattening -/

/-- The addresses of consecutive items, counted from `i`. -/
def itemAddresses (address : String) : (i : Nat) → List Expr → List String
  | _, [] => []
  | i, _ :: rest => child address (toString i) :: itemAddresses address (i + 1) rest

/-- The names of fields with their addresses. -/
def fieldAddresses (address : String) (fields : List (String × Expr)) : Table String :=
  Table.ofList (fields.map fun e => (e.1, child address e.1))

mutual

/-- An expression as stored values, the parts before the whole. -/
def flatten (address : String) : Expr → List (String × Entry)
  | .literal v => [(address, .literal v)]
  | .array items =>
    flattenItems address 0 items ++ [(address, .array (itemAddresses address 0 items))]
  | .hash fields =>
    flattenFields address fields ++ [(address, .hash (fieldAddresses address fields))]
  | .resource _ _ _ properties =>
    flattenFields address properties ++ [(address, .hash (fieldAddresses address properties))]
  | .output o => [(address, .output o)]

/-- The stored values of consecutive items, counted from `i`. -/
def flattenItems (address : String) : (i : Nat) → List Expr → List (String × Entry)
  | _, [] => []
  | i, e :: es =>
    flatten (child address (toString i)) e ++ flattenItems address (i + 1) es

/-- The stored values of fields. -/
def flattenFields (address : String) : List (String × Expr) → List (String × Entry)
  | [] => []
  | (k, e) :: es => flatten (child address k) e ++ flattenFields address es

end

/-- An expression as a table: where two parts share an address the later one stays. -/
def flat (address : String) (e : Expr) : Entries Entry := Entries.ofList (flatten address e)

/-! ### The table -/

/-- Nothing is stored. -/
def empty : Rom := ⟨Table.empty⟩

/-- How many values are stored. -/
def size (rom : Rom) : Nat := rom.entries.size

/-- Stores values one after the other until an address is taken already; then the contested
address is given back beside what was stored so far. -/
def store (rom : Rom) : List (String × Entry) → Rom × Option String
  | [] => (rom, none)
  | (address, e) :: rest =>
    if rom.entries.contains address then (rom, some address)
    else store ⟨rom.entries.insert address e⟩ rest

/-- Stores an expression under `name`; an error names the first address that was taken. -/
def add (rom : Rom) (name : String) (e : Expr) : Rom × Except PlanError Unit :=
  match rom.store (flat name e) with
  | (rom, none) => (rom, .ok ())
  | (rom, some address) => (rom, .error (.addressCollision address))

/-- What is stored at an address. -/
def get (rom : Rom) (address : String) : Except Fault Entry :=
  match rom.entries.get? address with
  | some e => .ok e
  | none => .error (.noSuchAddress address)

/-! ### Reading values back -/

/-- The value at an address, following at most `steps` addresses in a row; `output` gives
the values of outputs. -/
def resolveWithin (rom : Rom) (output : OutputRef → Except Fault Json) :
    (steps : Nat) → (address : String) → Except Fault Json
  | 0, address => .error (.endlessAddress address)
  | steps + 1, address => do
    match ← rom.get address with
    | .literal v => return v
    | .array references => return .arr (← references.mapM (resolveWithin rom output steps))
    | .hash references =>
      return .obj (← references.entries.mapM fun e => do
        return (e.1, ← resolveWithin rom output steps e.2))
    | .output o => output o

/-- The value at an address. -/
def resolve (rom : Rom) (output : OutputRef → Except Fault Json) (address : String) :
    Except Fault Json :=
  rom.resolveWithin output (rom.size + 1) address

/-- The expression at an address, following at most `steps` addresses in a row. -/
def expressionWithin (rom : Rom) : (steps : Nat) → (address : String) → Except Fault Expr
  | 0, address => .error (.endlessAddress address)
  | steps + 1, address => do
    match ← rom.get address with
    | .literal v => return .literal v
    | .array references => return .array (← references.mapM (expressionWithin rom steps))
    | .hash references =>
      return .hash (← references.entries.mapM fun e => do
        return (e.1, ← expressionWithin rom steps e.2))
    | .output o => return .output o

/-- The expression at an address; a whole resource comes back as the hash of its fields. -/
def expression (rom : Rom) (address : String) : Except Fault Expr :=
  rom.expressionWithin (rom.size + 1) address

/-! ### As JSON -/

namespace Entry

/-- An entry as an object that says its kind first. -/
def toJson : Entry → Json
  | .literal v => .obj [("type", .str "literal"), ("value", v)]
  | .array refs => .obj [("type", .str "array"), ("references", .strs refs)]
  | .hash refs =>
    .obj [("type", .str "hash"),
      ("references", .obj (refs.entries.map fun e => (e.1, .str e.2)))]
  | .output o =>
    .obj [("type", .str "output"), ("resource", .str o.resource), ("output", .str o.field)]

/-- The fields that an entry of a kind has. -/
def ofRecord? (kind : String) (r : Record) : Option Entry :=
  match kind with
  | "literal" => if r.fits 1 then (r.required? 0 "value" some).map .literal else none
  | "array" => if r.fits 1 then (r.required? 0 "references" Json.strings?).map .array else none
  | "hash" =>
    if r.fits 1 then (r.required? 0 "references" (Json.tableOf? Json.asStr?)).map .hash else none
  | "output" =>
    if r.fits 2 then do
      let resource ← r.required? 0 "resource" Json.asStr?
      let field ← r.required? 1 "output" Json.asStr?
      return .output ⟨resource, field⟩
    else none
  | _ => none

/-- An entry is an object with its kind under `type`, or a list that starts with the kind. -/
def ofJson? : Json → Option Entry
  | .obj fields => do
    let kind ← (Record.named fields).required? 0 "type" Json.asStr?
    ofRecord? kind (.named fields)
  | .arr (.str kind :: items) => ofRecord? kind (.listed items)
  | _ => none

end Entry

/-- The table as an object. -/
def toJson (rom : Rom) : Json := .obj (rom.entries.entries.map fun e => (e.1, e.2.toJson))

/-- A table is an object with an entry for each address. -/
def ofJson? (j : Json) : Option Rom := (j.tableOf? Entry.ofJson?).map Rom.mk

end Rom

end Provisioning
