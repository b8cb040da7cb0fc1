/-
What has to happen to a resource that exists already.

The fields that were read back are compared with those that are wanted.  Only bound
fields count, and a field that was not read counts as `null`.  One changed immutable field
calls for a new object; otherwise a changed mutable field is changed in place.
-/
import Provisioning.Schema

namespace Provisioning

/-- What is planned for a resource before the run. -/
inductive Action where
  /-- Wanted and not tracked. -/
  | create
  /-- Wanted and tracked. -/
  | update
  /-- Tracked and no longer wanted. -/
  | delete
deriving DecidableEq, Inhabited

/-- The word for an action. -/
def Action.text : Action → String
  | .create => "create"
  | .update => "update"
  | .delete => "delete"

/-- What the run decides about a tracked resource. -/
inductive Decision where
  /-- Nothing differs. -/
  | noChange
  /-- Only mutable fields differ. -/
  | modify
  /-- An immutable field differs. -/
  | recreate
  /-- The object is gone. -/
  | missing
deriving DecidableEq, Inhabited

namespace Decision

/-- The word for a decision. -/
def text : Decision → String
  | .noChange => "no_change"
  | .modify => "modify"
  | .recreate => "recreate"
  | .missing => "missing"

/-- The decision a word stands for. -/
def ofText? (s : String) : Option Decision :=
  match s with
  | "no_change" => some .noChange
  | "modify" => some .modify
  | "recreate" => some .recreate
  | "missing" => some .missing
  | _ => none

/-- A decision is written as its word; the word as the only name of an object with the
value `null` means the same. -/
def ofJson? : Json → Option Decision
  | .str s => ofText? s
  | .obj [(s, .null)] => ofText? s
  | _ => none

end Decision

/-! ### Comparing -/

/-- Whether a bound field has to change. -/
def differs (current desired : Properties) (field : String) : Bool :=
  match desired.get? field with
  | some want => !((current.get? field).getD .null).same want
  | none => false

/-- The decision for fields as they are and as they are wanted. -/
def compare (s : Schema) (current desired : Properties) : Decision :=
  if s.immutableFields.any (differs current desired) then .recreate
  else if s.mutableFields.any (differs current desired) then .modify
  else .noChange

/-- The immutable fields that would have to change. -/
def changedImmutable (s : Schema) (current desired : Properties) : List String :=
  s.immutableFields.filter (differs current desired)

/-- Writes the wanted values of `fields` that are bound into `result`. -/
def pick (desired : Properties) (fields : List String) (result : Properties) : Properties :=
  fields.foldl (fun ps f => match desired.get? f with
    | some v => ps.set f v
    | none => ps) result

/-- What may be sent with an update: the bound mutable fields, and those immutable ones
that changed. -/
def updatable (s : Schema) (current desired : Properties) : Properties :=
  pick desired (changedImmutable s current desired) (pick desired s.mutableFields [])

end Provisioning
