/-
The arguments of the command line.

Two flags may stand before the command or behind it; the command's own options and its one
plan file follow it in any order.  The value of an option is the next argument, or stands
in the same one, with or without an equals sign.  Arguments are read from left to right and
the first thing that is wrong decides; asking for the version or for help answers at once.
-/
namespace Provisioning

namespace CommandLine

/-- What is to be done with a plan. -/
inductive Verb where
  | compile
  | levels
  | plan
deriving DecidableEq, Inhabited

/-- The word for a command. -/
def Verb.text : Verb → String
  | .compile => "compile"
  | .levels => "levels"
  | .plan => "plan"

/-- The command a word stands for. -/
def Verb.ofText? (s : String) : Option Verb :=
  match s with
  | "compile" => some .compile
  | "levels" => some .levels
  | "plan" => some .plan
  | _ => none

/-- What was asked for. -/
structure Invocation where
  verb : Verb
  /-- The plan file. -/
  plan : String
  /-- The file with the snapshot of earlier runs. -/
  state : Option String
  /-- The file the program is written to. -/
  output : Option String
  createMissing : Bool
  verbose : Bool
  quiet : Bool
deriving DecidableEq

/-- How an argument list is understood. -/
inductive Request where
  | run (i : Invocation)
  | version (program : String)
  | help
  | misuse
deriving DecidableEq

/-- An option of a command, its short and its long name aside. -/
inductive Key where
  | verbose
  | quiet
  | version
  | help
  | state
  | output
  | createMissing
deriving DecidableEq

/-- Whether an option comes with a value. -/
def Key.hasValue : Key → Bool
  | .state | .output => true
  | _ => false

/-- Whether an option is known before any command, or to a command. -/
def Key.knownTo : Key → Option Verb → Bool
  | .verbose, _ | .quiet, _ | .version, _ | .help, _ => true
  | .state, v => v.isSome
  | .output, v | .createMissing, v => v = some .compile

/-- The option of a long name. -/
def Key.ofLong? (s : String) : Option Key :=
  match s with
  | "verbose" => some .verbose
  | "quiet" => some .quiet
  | "version" => some .version
  | "help" => some .help
  | "state" => some .state
  | "output" => some .output
  | "create-missing" => some .createMissing
  | _ => none

/-- The option of a letter. -/
def Key.ofShort? (c : Char) : Option Key :=
  if c = 'v' then some .verbose
  else if c = 'q' then some .quiet
  else if c = 'V' then some .version
  else if c = 'h' then some .help
  else if c = 's' then some .state
  else if c = 'o' then some .output
  else none

/-- What was read so far. -/
structure Progress where
  verb : Option Verb
  plan : Option String
  state : Option String
  output : Option String
  createMissing : Bool
  verbose : Bool
  /-- Whether output was reduced before the command. -/
  quietBefore : Bool
  /-- Whether output was reduced at the present level. -/
  quiet : Bool
deriving DecidableEq

/-- Nothing was read. -/
def Progress.start : Progress := ⟨none, none, none, none, false, false, false, false⟩

/-- The name of the program at the present level. -/
def Progress.program (p : Progress) : String :=
  match p.verb with
  | none => "provisio"
  | some v => "provisio-" ++ v.text

/-- Takes an option without value.  All but the verbose flag may be given once. -/
def Progress.set (p : Progress) (k : Key) : Except Request Progress :=
  match k with
  | .verbose => .ok { p with verbose := true }
  | .quiet => if p.quiet then .error .misuse else .ok { p with quiet := true }
  | .createMissing =>
    if p.createMissing then .error .misuse else .ok { p with createMissing := true }
  | .version => .error (.version p.program)
  | .help => .error .help
  | .state | .output => .error .misuse

/-- Takes an option with its value.  It may be given once, and not be empty. -/
def Progress.give (p : Progress) (k : Key) (value : String) : Except Request Progress :=
  if value.isEmpty then .error .misuse
  else
    match k with
    | .state => if p.state.isSome then .error .misuse else .ok { p with state := some value }
    | .output => if p.output.isSome then .error .misuse else .ok { p with output := some value }
    | _ => .error .misuse

/-- Takes an argument that is no option: the command, or its plan file. -/
def Progress.positional (p : Progress) (value : String) (literal : Bool) :
    Except Request Progress :=
  match p.verb with
  | none =>
    match Verb.ofText? value with
    | some v =>
      if literal then .error .misuse
      else .ok { p with verb := some v, quietBefore := p.quiet, quiet := false }
    | none => .error (if value = "help" && !literal then .help else .misuse)
  | some _ =>
    if p.plan.isSome || value.isEmpty then .error .misuse else .ok { p with plan := some value }

/-- What a short or long option still needs: nothing, or a value from the next argument. -/
abbrev Pending := Option Key

/-- Takes the letters behind a single dash. -/
def Progress.letters (p : Progress) : List Char → Except Request (Progress × Pending)
  | [] => .ok (p, none)
  | c :: rest =>
    match Key.ofShort? c with
    | none => .error .misuse
    | some k =>
      if !k.knownTo p.verb then .error .misuse
      else if k.hasValue then
        match rest with
        | [] => .ok (p, some k)
        | '=' :: value => (p.give k (String.ofList value)).map (·, none)
        | value => (p.give k (String.ofList value)).map (·, none)
      else
        match p.set k with
        | .error r => .error r
        | .ok p => Progress.letters p rest

/-- The name and the value of a long option. -/
def splitValue : List Char → List Char × Option (List Char)
  | [] => ([], none)
  | '=' :: rest => ([], some rest)
  | c :: rest => let (name, value) := splitValue rest; (c :: name, value)

/-- Takes what stands behind two dashes. -/
def Progress.long (p : Progress) (text : List Char) : Except Request (Progress × Pending) :=
  let (name, value) := splitValue text
  match Key.ofLong? (String.ofList name) with
  | none => .error .misuse
  | some k =>
    if !k.knownTo p.verb then .error .misuse
    else
      match k.hasValue, value with
      | true, some v => (p.give k (String.ofList v)).map (·, none)
      | true, none => .ok (p, some k)
      | false, none => (p.set k).map (·, none)
      | false, some _ => .error .misuse

/-- Takes the arguments behind a double dash, none of which is an option. -/
def Progress.rest (p : Progress) : List String → Except Request Progress
  | [] => .ok p
  | a :: more =>
    match p.positional a true with
    | .error r => .error r
    | .ok p => Progress.rest p more

/-- Takes the arguments from left to right; `pending` is the option that waits for its
value. -/
def Progress.all (p : Progress) : Pending → List String → Except Request Progress
  | none, [] => .ok p
  | some _, [] => .error .misuse
  | pending, a :: more =>
    match pending, a.toList with
    | some _, '-' :: _ :: _ => .error .misuse
    | some k, _ =>
      match p.give k a with
      | .error r => .error r
      | .ok p => Progress.all p none more
    | none, ['-', '-'] => p.rest more
    | none, '-' :: '-' :: name =>
      match p.long name with
      | .error r => .error r
      | .ok (p, pending) => Progress.all p pending more
    | none, '-' :: c :: cs =>
      match p.letters (c :: cs) with
      | .error r => .error r
      | .ok (p, pending) => Progress.all p pending more
    | none, _ =>
      match p.positional a false with
      | .error r => .error r
      | .ok p => Progress.all p none more

/-- What a list of arguments asks for. -/
def Request.ofArgs (args : List String) : Request :=
  match Progress.start.all none args with
  | .error r => r
  | .ok p =>
    match p.verb, p.plan with
    | some verb, some plan =>
      .run ⟨verb, plan, p.state, p.output, p.createMissing, p.verbose, p.quietBefore || p.quiet⟩
    | _, _ => .misuse

end CommandLine

end Provisioning
