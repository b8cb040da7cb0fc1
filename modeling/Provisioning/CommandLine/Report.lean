/-
What the command line shows.

Every report is plain text, line by line.  Titles are underlined in their own length, and
items are set in by two blanks.
-/
import Provisioning.Plan.Compile

namespace Provisioning

namespace CommandLine

/-- Lines as text. -/
def unlines (ls : List String) : String := String.join (ls.map (· ++ "\n"))

/-- A title, set off by an empty line and underlined. -/
def title (text : String) : List String :=
  ["", text, String.ofList (List.replicate text.length '─')]

/-- A count with its noun. -/
def counted (n : Nat) (noun : String) : String :=
  toString n ++ " " ++ (if n = 1 then noun else noun ++ "s")

/-! ### Levels -/

/-- One line a level, counted from `i`. -/
def levelLines : (i : Nat) → List (List String) → List String
  | _, [] => []
  | i, level :: rest =>
    ("  " ++ toString i ++ ": " ++ ", ".intercalate level) :: levelLines (i + 1) rest

/-- One line for each name with what it depends on. -/
def edgeLines (g : Dependencies) : List String :=
  g.edges.entries.map fun e =>
    let deps := ", ".intercalate e.2
    "  " ++ e.1 ++ ": " ++ (if deps.isEmpty then "-" else deps)

/-- The levels of a plan, and what they follow from. -/
def levelsReport (verbose quiet : Bool) (levels : List (List String)) (g : Dependencies) :
    List String :=
  (if quiet then [] else title ("Dependency levels (" ++ counted levels.length "level" ++ ")")) ++
    levelLines 0 levels ++ (if verbose then ["", "Edges"] ++ edgeLines g else [])

/-! ### Actions -/

/-- The mark of an action. -/
def marker : Action → String
  | .create => "+"
  | .update => "~"
  | .delete => "-"

/-- What there is to say about an action on an object, depending on whether its deletion
is put off. -/
def note? : Action → (deferred : Bool) → Option String
  | .delete, true => some "deleted after dependents finish"
  | .update, true => some "a replacement keeps the old one until the end"
  | .update, false => some "modified in place or recreated, decided at run time"
  | _, _ => none

/-- The lines for one resource. -/
def actionLines (verbose : Bool) (r : Resource) (a : Action) : List String :=
  ("  " ++ marker a ++ " " ++ r.name ++ " (" ++ r.typeId ++ ", " ++ a.text ++ ")") ::
    match verbose, note? a r.schema.deleteAtEnd with
    | true, some note => ["  " ++ note]
    | _, _ => []

/-- How often an action is planned. -/
def countOf (a : Action) (actions : List (Resource × Action)) : String :=
  toString (actions.filter fun e => e.2 = a).length

/-- The actions of a plan. -/
def actionsReport (verbose quiet : Bool) (actions : List (Resource × Action)) : List String :=
  (if quiet then [] else title "Plan") ++
    actions.flatMap (fun e => actionLines verbose e.1 e.2) ++
    (if quiet then []
      else ["", "ℹ " ++ countOf .create actions ++ " to create, " ++ countOf .update actions ++
        " to update, " ++ countOf .delete actions ++ " to delete"])

end CommandLine

end Provisioning
