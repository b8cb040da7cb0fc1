/-
What can be wrong with a plan.

Every constructor is a reason to refuse a declaration or a compilation; nothing of it
can arise once a program runs.
-/
namespace Provisioning

/-- Why a declaration is refused or cannot be compiled. -/
inductive PlanError where
  /-- A value is neither text nor number nor made of such. -/
  | invalidValue (text : String)
  /-- An output was asked for that the type does not produce. -/
  | unknownOutput (resource field : String)
  /-- A field was bound that cannot be set. -/
  | unknownField (resource field : String)
  /-- A required field is not bound. -/
  | missingRequiredField (resource field : String)
  /-- Deletion is put off for objects that have no identifier to come back to. -/
  | deleteOrdering (resource : String)
  /-- The name is taken. -/
  | duplicateName (name : String)
  /-- The type is not registered. -/
  | unknownType (typeId : String)
  /-- The members wait for each other, or for others that do. -/
  | cyclicDependency (members : List String)
  /-- A dependency is neither declared nor tracked. -/
  | unknownDependency (resource dependency : String)
  /-- Two flattened values have the same address. -/
  | addressCollision (address : String)
deriving DecidableEq

/-- The sentence shown for an error. -/
def PlanError.message : PlanError → String
  | .invalidValue text => "invalid value: " ++ text
  | .unknownOutput r f => "resource '" ++ r ++ "' has no output field '" ++ f ++ "'"
  | .unknownField r f => "resource '" ++ r ++ "' has no settable field '" ++ f ++ "'"
  | .missingRequiredField r f => "required field '" ++ f ++ "' not provided in '" ++ r ++ "'"
  | .deleteOrdering r => "resource '" ++ r ++ "' deletes at end but does not need a remote id"
  | .duplicateName n => "already defined: " ++ n
  | .unknownType t => "no such resource type: " ++ t
  | .cyclicDependency ms => "cyclic dependency between: " ++ ", ".intercalate ms
  | .unknownDependency r d => "'" ++ r ++ "' depends on unknown resource '" ++ d ++ "'"
  | .addressCollision a => "ROM address collision at '" ++ a ++ "'"

end Provisioning
