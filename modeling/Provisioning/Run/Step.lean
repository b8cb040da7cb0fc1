/-
Runs.

A run is a memory in a world, with the log of what was done to resources.  One step
carries out the instruction at the program counter and moves the counter; a fault is put
into the memory and stops the run.  What an instruction does to a resource is logged
before it is carried out, so the log also names the operation that failed.

Nothing but the memory decides how a run goes on: the log and the mark that the last
step is waiting are only there to be looked at.
-/
import Provisioning.Run.Machine

namespace Provisioning

/-- An entry of the log: what was done, in capitals, and to which resource. -/
structure Operation where
  name : String
  resource : String
deriving DecidableEq, Inhabited

/-- The operation as it is displayed. -/
def Operation.text (o : Operation) : String := o.name ++ " " ++ o.resource

/-- The operation as an object. -/
def Operation.toJson (o : Operation) : Json :=
  .obj [("operation", .str o.name), ("resource", .str o.resource)]

/-- A run in progress. -/
structure Run (W : Type) where
  memory : Memory
  log : List Operation
  /-- Whether the last step left a check waiting. -/
  waiting : Bool
  world : W

namespace Run

variable {W : Type}

/-- A run that has not begun. -/
def fresh (w : W) : Run W := ⟨Memory.fresh, [], false, w⟩

/-- Goes on from another memory; the log stays. -/
def restore (r : Run W) (m : Memory) : Run W := { r with memory := m, waiting := false }

/-- Whether no further step is possible. -/
def ended (p : Program) (r : Run W) : Bool := r.memory.halted p.size

/-- The name of the staged resource, empty when there is none. -/
def stagedName (m : Memory) : String :=
  ((m.temp.get? "resource_name").bind Json.asStr?).getD ""

/-- What the log gains when an instruction is carried out. -/
def logged (i : Instruction) (m : Memory) : List Operation :=
  match i with
  | .resource op => [⟨op.name.toUpper, stagedName m⟩]
  | _ => []

/-- Moves control as the instruction at `pc` says. -/
def settle (log : List Operation) (o : Outcome W) (pc : Nat) : Run W :=
  match o.flow with
  | .ok .next => ⟨{ o.memory with programCounter := pc + 1 }, log, false, o.world⟩
  | .ok (.jump i) => ⟨{ o.memory with programCounter := i }, log, false, o.world⟩
  | .ok .stay => ⟨o.memory, log, true, o.world⟩
  | .error f => ⟨{ o.memory with error := some f }, log, false, o.world⟩

/-- Carries out one instruction, unless the run has ended. -/
def step (p : Program) (types : Registry W) (r : Run W) : Run W :=
  if r.ended p then r
  else
    let pc := r.memory.programCounter
    match p.instructions[pc]? with
    | none => r
    | some i => settle (r.log ++ logged i r.memory) (execute p types i r.memory r.world) pc

/-- Carries out up to `n` instructions. -/
def steps (p : Program) (types : Registry W) : (n : Nat) → Run W → Run W
  | 0, r => r
  | n + 1, r => if r.ended p then r else steps p types n (step p types r)

end Run

/-- The run of an artifact; one that cannot be read gives a run of the empty program that
has stopped with the fault. -/
def Run.ofArtifact {W : Type} (artifact : Json) (w : W) : Program × Run W :=
  match Program.ofArtifact artifact with
  | .ok p => (p, Run.fresh w)
  | .error f => (Program.empty, (Run.fresh w).restore { Memory.fresh with error := some f })

end Provisioning
