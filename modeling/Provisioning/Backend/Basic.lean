/-
What a backend is asked, and what it may answer.

A handle stands for one remote object, known by its identifier or not yet known at all.
Everything the machine wants of an object is one of these requests; each has its own type
of answer, and each may be refused with a reason.  The outside world is a value that every
request may change, also one that is refused.

Nothing else is assumed: a provider is any function of handle, request and world, so what
holds for every provider holds for every backend.
-/
import Provisioning.Fault
import Provisioning.PlanError
import Provisioning.Schema

namespace Provisioning

/-- What an object may take a while for, with outputs to be read afterwards. -/
inductive Change where
  /-- It is created. -/
  | create
  /-- It is changed in place. -/
  | update
deriving DecidableEq

/-- What can be asked of a remote object. -/
inductive Request where
  /-- Start to create it with these fields. -/
  | create (properties : Properties)
  /-- Read the fields of these names. -/
  | read (fields : List String)
  /-- Start to change these fields. -/
  | update (properties : Properties)
  /-- Start to delete it. -/
  | delete
  /-- Give the fields the backend produces. -/
  | outputs
  /-- Is it there? -/
  | found
  /-- Is its creation complete, or its update? -/
  | complete (c : Change)
  /-- Is its deletion complete? -/
  | deleteComplete
deriving DecidableEq

/-- The type of the answer to a request; a creation is answered by the new identifier, if
there is one. -/
def Request.Answer : Request → Type
  | .create _ => Option Json
  | .read _ | .outputs => Properties
  | .update _ | .delete => Unit
  | .found | .complete _ | .deleteComplete => Bool

/-- Answers requests about the object of an identifier, in a world. -/
structure Provider (W : Type) where
  ask : Option Json → (r : Request) → W → Except String r.Answer × W

/-- A registered type: its shape, and who provides its objects if they can be run. -/
structure Kind (W : Type) where
  schema : Schema
  provider : Option (Provider W)

/-- Registered types by id. -/
abbrev Registry (W : Type) := Table (Kind W)

namespace Registry

variable {W : Type}

/-- The shapes of the registered types. -/
def catalog (types : Registry W) : Catalog := types.mapValues fun _ k => k.schema

/-- The type of that id, for a declaration. -/
def lookup (types : Registry W) (typeId : String) : Except PlanError (Kind W) :=
  match types.get? typeId with
  | some k => .ok k
  | none => .error (.unknownType typeId)

/-- The type of that id, for a running program. -/
def resolve (types : Registry W) (typeId : String) : Except Fault (Kind W) :=
  match types.get? typeId with
  | some k => .ok k
  | none => .error (.unknownType typeId)

end Registry

/-- Who provides the objects of the type registered as `typeId`. -/
def Kind.provides {W : Type} (k : Kind W) (typeId : String) : Except Fault (Provider W) :=
  match k.provider with
  | some p => .ok p
  | none => .error (.noBackend typeId)

end Provisioning
