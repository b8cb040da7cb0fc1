/-
Who has to wait for whom, and the order that follows.

`Dependencies` maps each name to the names it depends on.  `levels` sorts the names into
layers: a name goes into the first layer in which everything it depends on, itself
apart, lies in earlier layers.  Inside a layer the names keep the order of the table.

The layers are peeled off one by one.  A name is ready when none of the names still
waiting, other than itself, is among its dependencies.  If names are waiting and none is
ready, each of them waits for another one that waits, so there is a cycle through at
least two of them; they are reported in order.  Every round removes a name, so there are
at most as many rounds as names.
-/
import Provisioning.Names
import Provisioning.PlanError
import Provisioning.Table

namespace Provisioning

/-- Each name with the names it depends on, in order and without repetition. -/
structure Dependencies where
  edges : Table (List String)
deriving DecidableEq, Inhabited

/-- A name with its dependencies. -/
abbrev Edge := String × List String

/-- Whether none of the dependencies, the name itself apart, is still waiting. -/
def Edge.ready (waiting : List Edge) (e : Edge) : Bool :=
  e.2.all fun d => d = e.1 || !(waiting.map Prod.fst).contains d

/-- Peels off layer by layer, for at most `rounds` rounds; the error holds the names that
are left when none of them is ready. -/
def peel : (rounds : Nat) → List Edge → Except (List String) (List (List String))
  | _, [] => .ok []
  | 0, waiting => .error (waiting.map Prod.fst)
  | rounds + 1, waiting =>
    match waiting.filter (Edge.ready waiting) with
    | [] => .error (waiting.map Prod.fst)
    | layer => do
      let later ← peel rounds (waiting.filter fun e => !Edge.ready waiting e)
      return layer.map Prod.fst :: later

namespace Dependencies

/-- No names. -/
def empty : Dependencies := ⟨Table.empty⟩

/-- Adds a name, or replaces what it depends on. -/
def insert (g : Dependencies) (name : String) (dependencies : List String) : Dependencies :=
  ⟨g.edges.insert name (distinct dependencies)⟩

/-- Lays `top` over `g`: what it says about a name replaces what was known. -/
def merge (g top : Dependencies) : Dependencies := ⟨g.edges.overlay top.edges.entries⟩

/-- The names in order. -/
def nodes (g : Dependencies) : List String := g.edges.keys

/-- What `name` depends on. -/
def of? (g : Dependencies) (name : String) : Option (List String) := g.edges.get? name

/-- The first dependency, in order of the table, that is no name of the table. -/
def firstUnknown (g : Dependencies) : Option (String × String) :=
  g.edges.entries.findSome? fun e => (e.2.find? fun d => !g.edges.contains d).map (e.1, ·)

/-- The layers in order. -/
def levels (g : Dependencies) : Except PlanError (List (List String)) :=
  match g.firstUnknown with
  | some (name, d) => .error (.unknownDependency name d)
  | none =>
    match peel g.edges.size g.edges.entries with
    | .error members => .error (.cyclicDependency members)
    | .ok layers => .ok layers

/-- Whether two graphs say the same about the same names, in whatever order. -/
def same (g h : Dependencies) : Bool :=
  g.edges.size = h.edges.size && g.edges.entries.all fun e =>
    match h.of? e.1 with
    | some deps => e.2.length = deps.length && e.2.all deps.contains
    | none => false

end Dependencies

end Provisioning
