/-
What can go wrong while a program runs.

A fault stops the run and is kept with its memory; nothing is undone.
-/
namespace Provisioning

/-- Why a run stopped. -/
inductive Fault where
  /-- The instruction needs a scratch value that was not staged. -/
  | missingParameter (instruction key : String)
  /-- The text is no instruction. -/
  | unknownInstruction (text : String)
  /-- No subroutine has the label. -/
  | labelNotFound (label : String)
  /-- A value was written while no key was staged. -/
  | noKeySet
  /-- Nothing is stored at the address. -/
  | noSuchAddress (address : String)
  /-- The values stored at the address refer to themselves. -/
  | endlessAddress (address : String)
  /-- A return without a call. -/
  | stackUnderflow
  /-- An operand has the wrong shape. -/
  | invalidOperand (instruction reason : String)
  /-- The staged type is not registered. -/
  | unknownType (typeId : String)
  /-- The staged type can be compiled for but not run. -/
  | noBackend (typeId : String)
  /-- Nothing was decided yet about how to update the resource. -/
  | decisionMissing (name : String)
  /-- An output was used before its producer stored any. -/
  | outputUnavailable (resource field : String)
  /-- The backend gave no identifier though the type needs one. -/
  | missingRemoteId (name : String)
  /-- An identifier would be overwritten by another. -/
  | remoteIdAlreadySet (name : String)
  /-- An update in place would change immutable fields. -/
  | immutableFieldChanged (resource : String) (fields : List String)
  /-- A tested result is not 1. -/
  | assertion (name : String)
  /-- The backend refused. -/
  | backend (operation resource reason : String)
deriving DecidableEq

/-- The sentence shown for a fault. -/
def Fault.message : Fault → String
  | .missingParameter i k => i ++ " requires '" ++ k ++ "' to be set"
  | .unknownInstruction t => "unknown instruction '" ++ t ++ "'"
  | .labelNotFound l => "label '" ++ l ++ "' not found"
  | .noKeySet => "no key set"
  | .noSuchAddress a => "no such ROM address '" ++ a ++ "'"
  | .endlessAddress a => "endless references from ROM address '" ++ a ++ "'"
  | .stackUnderflow => "at bottom of stack"
  | .invalidOperand i r => i ++ ": invalid operand: " ++ r
  | .unknownType t => "no such resource type: " ++ t
  | .noBackend t => "resource type '" ++ t ++ "' has no backend factory"
  | .decisionMissing n => "no update decision recorded for '" ++ n ++ "'"
  | .outputUnavailable r f =>
    "outputs of '" ++ r ++ "' are not available (wanted '" ++ f ++ "')"
  | .missingRemoteId n => "resource '" ++ n ++ "' expects a remote id but the backend gave none"
  | .remoteIdAlreadySet n => "remote id already set for '" ++ n ++ "'"
  | .immutableFieldChanged r fs =>
    "immutable fields changed on '" ++ r ++ "': " ++ ", ".intercalate fs
  | .assertion n => "assertion failed: " ++ n
  | .backend o r m => o ++ " failed for '" ++ r ++ "': " ++ m

end Provisioning
