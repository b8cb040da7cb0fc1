/-
What the command line does.

A command reads a plan file and maybe a snapshot, and shows the levels, the planned
actions, or the program, which may also go into a file.  Files are given by a function, so
that what a command does is a value: its exit code, its output, the file it writes, and its
error as sentences from the outermost to the cause.
-/
import Provisioning.CommandLine.Arguments
import Provisioning.CommandLine.Report
import Provisioning.PlanFile

namespace Provisioning

namespace CommandLine

/-- The files a command sees. -/
structure Files where
  /-- The text of a file that can be read. -/
  read : String → Option String
  /-- Whether a file can be written. -/
  writable : String → Bool

/-- What a command does. -/
structure Outcome where
  code : Nat
  stdout : String
  /-- The sentences of the error, the outermost first. -/
  error : List String
  /-- The file that is written, with its text. -/
  written : Option (String × String)
deriving DecidableEq

namespace Outcome

/-- Shows lines. -/
def shows (ls : List String) : Outcome := ⟨0, unlines ls, [], none⟩

/-- Fails with sentences. -/
def fails (error : List String) : Outcome := ⟨1, "", error, none⟩

end Outcome

/-- The plan file and the snapshot of a command. -/
structure Loaded where
  file : PlanFile
  prior : Snapshot

/-- Reads what a command is about. -/
def load (files : Files) (i : Invocation) : Except (List String) Loaded := do
  let text ← match files.read i.plan with
    | some text => pure text
    | none => throw ["Could not read " ++ i.plan]
  let file ← match PlanFile.ofText text with
    | .ok p => pure p
    | .error e => throw (("Invalid plan file " ++ i.plan) :: e.chain)
  let prior ← match i.state with
    | none => pure Table.empty
    | some path => match files.read path with
      | none => throw ["Could not read " ++ path]
      | some text => match Snapshot.ofText? text with
        | some s => pure s
        | none => throw ["Invalid state snapshot format"]
  return ⟨file, prior⟩

/-- Declares what the plan file lists. -/
def Loaded.plan (l : Loaded) : Except (List String) Plan :=
  match l.file.declare with
  | .ok d => .ok (l.file.plan d l.prior)
  | .error e => .error e.chain

/-- The error of a plan as a list of one sentence. -/
def sentence {α : Type} (r : Except PlanError α) : Except (List String) α :=
  r.mapError fun e => [e.message]

/-- Shows the program, or writes it to a file. -/
def deliver (files : Files) (i : Invocation) (p : Program) : Outcome :=
  let text := p.toArtifact.pretty
  match i.output with
  | none => .shows [text]
  | some path =>
    if files.writable path then
      let done := "✓ Wrote " ++ toString p.size ++ " instructions to " ++ path
      { Outcome.shows (if i.quiet then [] else [done]) with written := some (path, text) }
    else .fails ["Could not write " ++ path]

/-- Carries out a command. -/
def perform (files : Files) (i : Invocation) : Except (List String) Outcome := do
  let plan ← (← load files i).plan
  match i.verb with
  | .compile =>
    match { plan with createMissing := plan.createMissing || i.createMissing }.compile with
    | .ok p => return deliver files i p
    | .error e => throw ["Compilation failed", e.message]
  | .levels =>
    let levels ← sentence plan.levels
    return .shows (levelsReport i.verbose i.quiet levels plan.dependencies)
  | .plan =>
    let actions ← sentence plan.actions
    return .shows (actionsReport i.verbose i.quiet actions)

/-- How the program is used. -/
def usage : List String :=
  ["Usage: provisio [-v] [-q] COMMAND PLAN [-s STATE]", "", "Commands:",
    "  compile  write the program of a plan (-o FILE, --create-missing)",
    "  levels   show the levels of a plan",
    "  plan     show what would be done to each resource"]

/-- What a list of arguments leads to. -/
def run (files : Files) (args : List String) : Outcome :=
  match Request.ofArgs args with
  | .version program => .shows [program ++ " 0.1.0"]
  | .help => .shows usage
  | .misuse => ⟨2, "", [], none⟩
  | .run i => match perform files i with
    | .ok o => o
    | .error e => .fails e

/-! ### Files of one directory -/

/-- The file of a directory that a path names, if it names one: a single name, behind as
many steps to the directory itself as there may be. -/
def plainName? (path : String) : Option String :=
  let steps := match path.splitOn "/" with
    | "." :: rest => rest.dropWhile fun step => step = "." || step = ""
    | steps => steps
  match steps with
  | [name] => if name = "" ∨ name = "." ∨ name = ".." then none else some name
  | _ => none

/-- A directory without further directories in it. -/
def Files.ofTable (t : Table String) : Files where
  read path := (plainName? path).bind t.get?
  writable path := (plainName? path).isSome

/-- The directory after a command. -/
def Outcome.apply (o : Outcome) (t : Table String) : Table String :=
  match o.written with
  | none => t
  | some (path, text) => match plainName? path with
    | some name => t.insert name text
    | none => t

end CommandLine

end Provisioning
