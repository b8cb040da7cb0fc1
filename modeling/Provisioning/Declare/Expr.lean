/-
Declared values.

An author binds a field to a raw value: JSON, or lists and maps that hold references to
other resources.  Resolving it gives an expression, in which only text and numbers are
literal: truth values and `null` are refused wherever they stand.

A reference names either a whole resource or one of its output fields.  The names an
expression mentions are what its resource has to wait for.
-/
import Provisioning.Json.Printer
import Provisioning.Names
import Provisioning.PlanError
import Provisioning.Schema

namespace Provisioning

/-- One output field of a resource. -/
structure OutputRef where
  resource : String
  field : String
deriving DecidableEq, Inhabited

/-- The reference as it is written. -/
def OutputRef.text (o : OutputRef) : String := o.resource ++ "." ++ o.field

/-- A resolved value; a whole resource carries its name, type and bound fields. -/
inductive Expr where
  | literal (value : Json)
  | array (items : List Expr)
  | hash (fields : List (String × Expr))
  | resource (name typeId : String) (schema : Schema) (properties : List (String × Expr))
  | output (ref : OutputRef)

instance : Inhabited Expr := ⟨.array []⟩

/-- A resource with its bound fields. -/
structure Resource where
  name : String
  typeId : String
  schema : Schema
  properties : Entries Expr
deriving Inhabited

/-- A value as its author hands it over. -/
inductive Raw where
  | json (value : Json)
  | list (items : List Raw)
  | map (fields : List (String × Raw))
  | resource (r : Resource)
  | output (ref : OutputRef)

instance : Inhabited Raw := ⟨.json .null⟩

/-- A whole resource as a value. -/
def Resource.toExpr (r : Resource) : Expr := .resource r.name r.typeId r.schema r.properties

/-! ### Resolving -/

mutual

/-- JSON as an expression. -/
def Json.resolve : Json → Except PlanError Expr
  | .str s => .ok (.literal (.str s))
  | .num n => .ok (.literal (.num n))
  | .arr items => do return .array (← resolveItems items)
  | .obj fields => do return .hash (← resolveFields fields)
  | .null => .error (.invalidValue "null")
  | .bool b => .error (.invalidValue (Json.bool b).text)

/-- JSON items as expressions. -/
def Json.resolveItems : List Json → Except PlanError (List Expr)
  | [] => .ok []
  | x :: xs => do
    let e ← x.resolve
    return e :: (← Json.resolveItems xs)

/-- JSON fields as expressions. -/
def Json.resolveFields : List (String × Json) → Except PlanError (List (String × Expr))
  | [] => .ok []
  | (k, x) :: xs => do
    let e ← x.resolve
    return (k, e) :: (← Json.resolveFields xs)

end

mutual

/-- A raw value as an expression; references stay what they are. -/
def Raw.resolve : Raw → Except PlanError Expr
  | .json v => v.resolve
  | .list items => do return .array (← resolveItems items)
  | .map fields => do return .hash (← resolveFields fields)
  | .resource r => .ok r.toExpr
  | .output o => .ok (.output o)

/-- Raw items as expressions. -/
def Raw.resolveItems : List Raw → Except PlanError (List Expr)
  | [] => .ok []
  | x :: xs => do
    let e ← x.resolve
    return e :: (← Raw.resolveItems xs)

/-- Raw fields as expressions. -/
def Raw.resolveFields : List (String × Raw) → Except PlanError (List (String × Expr))
  | [] => .ok []
  | (k, x) :: xs => do
    let e ← x.resolve
    return (k, e) :: (← Raw.resolveFields xs)

end

/-! ### Dependencies -/

namespace Expr

mutual

/-- The resources an expression mentions, in the order of its text. -/
def mentions : Expr → List String
  | .literal _ => []
  | .array items => mentionsItems items
  | .hash fields => mentionsFields fields
  | .resource name _ _ properties => name :: mentionsFields properties
  | .output o => [o.resource]

/-- The resources that items mention. -/
def mentionsItems : List Expr → List String
  | [] => []
  | e :: es => mentions e ++ mentionsItems es

/-- The resources that fields mention. -/
def mentionsFields : List (String × Expr) → List String
  | [] => []
  | (_, e) :: es => mentions e ++ mentionsFields es

end

/-- The resources an expression depends on. -/
def dependencies (e : Expr) : List String := distinct e.mentions

mutual

/-- Equality of expressions: literals as values, fields in any order. -/
def same : Expr → Expr → Bool
  | .literal a, .literal b => a.same b
  | .array xs, .array ys => sameItems xs ys
  | .hash xs, .hash ys => xs.length = ys.length && sameFields xs ys
  | .resource n t _ xs, .resource m u _ ys =>
    n = m && t = u && xs.length = ys.length && sameFields xs ys
  | .output a, .output b => a = b
  | _, _ => false

/-- Item by item equality. -/
def sameItems : List Expr → List Expr → Bool
  | [], [] => true
  | x :: xs, y :: ys => same x y && sameItems xs ys
  | _, _ => false

/-- Whether every field on the left has an equal field on the right. -/
def sameFields : List (String × Expr) → List (String × Expr) → Bool
  | [], _ => true
  | (k, x) :: xs, ys =>
    (match Entries.get? ys k with
      | some y => same x y
      | none => false) && sameFields xs ys

end

end Expr

/-! ### Resources -/

namespace Resource

/-- A resource, provided its deletion can be carried out: what is deleted at the end needs
an identifier. -/
def make (name typeId : String) (schema : Schema) (properties : Entries Expr) :
    Except PlanError Resource :=
  if schema.orderly then .ok ⟨name, typeId, schema, properties⟩
  else .error (.deleteOrdering name)

/-- A reference to an output field of the type. -/
def output (r : Resource) (field : String) : Except PlanError OutputRef :=
  if r.schema.outputs.contains field then .ok ⟨r.name, field⟩
  else .error (.unknownOutput r.name field)

/-- A reference to the identifier the backend assigns. -/
def remoteId (r : Resource) : OutputRef := ⟨r.name, remoteIdField⟩

/-- Fails for the first required field that is not bound. -/
def checkRequired (r : Resource) : Except PlanError Unit :=
  match r.schema.requiredFields.find? fun f => !r.properties.contains f with
  | some f => .error (.missingRequiredField r.name f)
  | none => .ok ()

/-- The resource itself and everything its fields depend on. -/
def dependencies (r : Resource) : List String := r.toExpr.dependencies

/-- What has to be there before this resource: everything its fields mention, except the
resource itself. -/
def waits (r : Resource) : List String :=
  distinct ((Expr.mentionsFields r.properties).filter (· ≠ r.name))

end Resource

end Provisioning
