/-
TOML documents.

A document binds keys to values, in sections.  A section opens a table, or adds one to an
array of tables; what stands before the first section belongs to the document itself.
A key with dots opens tables on its way.

No table may be written twice.  So each table remembers how it came about: in passing, on
the way to a section below it, which may still be opened itself; by a key with dots, which
other such keys may extend but no section may open; by a section of its own; or as a value
between braces, which is closed.

Read as JSON, the keys of each table are in the order of their characters.
-/
import Provisioning.Toml.Scalar
import Provisioning.Toml.Text

namespace Provisioning

namespace Toml

/-- How a table came about. -/
inductive Origin where
  /-- In passing, on the way to a section below it. -/
  | passed
  /-- By a key with dots. -/
  | dotted
  /-- By a section. -/
  | opened
deriving DecidableEq

/-- A part of a document: a value, a table that may still grow, or an array of such. -/
inductive Node where
  | value (v : Json)
  | table (origin : Origin) (entries : List (String × Node))
  | tables (front : List (List (String × Node))) (last : List (String × Node))

instance : Inhabited Node := ⟨.value .null⟩

/-- A line of a document that says something. -/
inductive Statement where
  | bind (key : List String) (v : Json)
  | table (key : List String)
  | tables (key : List String)

/-! ### Tables -/

/-- Goes down a path and changes the table it ends at; tables that are missing are opened
on the way.  The change is told how the table came about.  A key with dots may not enter
what a section opened; values cannot be entered at all. -/
def descend (dotted : Bool) (change : Origin → Entries Node → Option (Entries Node)) :
    List String → Origin → Entries Node → Option (Entries Node)
  | [], origin, t => change origin t
  | k :: rest, _, t =>
    match t.get? k with
    | none => do
      let origin := if dotted then .dotted else .passed
      return t.set k (.table origin (← descend dotted change rest origin []))
    | some (.table origin sub) =>
      if dotted ∧ origin = .opened then none
      else do return t.set k (.table origin (← descend dotted change rest origin sub))
    | some (.tables front last) => do
      return t.set k (.tables front (← descend dotted change rest .opened last))
    | some (.value _) => none

/-- Binds the last part of a key in the table that the other parts lead to, which has to be
one that such a key opened. -/
def bind (key : List String) (v : Json) (t : Entries Node) : Option (Entries Node) :=
  let path := key.dropLast
  let change (origin : Origin) (t : Entries Node) : Option (Entries Node) := do
    let k ← key.getLast?
    if decide (origin = .dotted) = path.isEmpty || t.contains k then none
    else some (t.set k (.value v))
  descend true change path .opened t

/-- Binds keys one after the other. -/
def bindAll : List (List String × Json) → Entries Node → Option (Entries Node)
  | [], t => some t
  | (key, v) :: rest, t => (bind key v t).bind (bindAll rest)

/-- Opens the table of a section and binds the keys of the section in it. -/
def openTable (key : List String) (binds : List (List String × Json)) (t : Entries Node) :
    Option (Entries Node) :=
  let change (_ : Origin) (t : Entries Node) : Option (Entries Node) := do
    let k ← key.getLast?
    let start ← match t.get? k with
      | none => some []
      | some (.table .passed sub) => some sub
      | some _ => none
    return t.set k (.table .opened (← bindAll binds start))
  descend false change key.dropLast .opened t

/-- Adds a table to an array of tables and binds the keys of the section in it. -/
def addTable (key : List String) (binds : List (List String × Json)) (t : Entries Node) :
    Option (Entries Node) :=
  let change (_ : Origin) (t : Entries Node) : Option (Entries Node) := do
    let k ← key.getLast?
    let body ← bindAll binds []
    match t.get? k with
    | none => some (t.set k (.tables [] body))
    | some (.tables front last) => some (t.set k (.tables (front ++ [last]) body))
    | some _ => none
  descend false change key.dropLast .opened t

/-- The keys bound before the next section, and the statements from there on. -/
def leadingBinds : List Statement → List (List String × Json) × List Statement
  | .bind key v :: rest =>
    let (binds, rest) := leadingBinds rest
    ((key, v) :: binds, rest)
  | rest => ([], rest)

/-- Carries out the sections of a document. -/
def sections : (bound : Nat) → List Statement → Entries Node → Option (Entries Node)
  | 0, _, _ => none
  | _, [], t => some t
  | bound + 1, s :: rest, t =>
    let (binds, later) := leadingBinds rest
    match s with
    | .bind key v => (bind key v t).bind (sections bound rest)
    | .table key => (openTable key binds t).bind (sections bound later)
    | .tables key => (addTable key binds t).bind (sections bound later)

/-! ### As JSON -/

/-- Puts an entry in front of the first greater name. -/
def place (e : String × Json) : Properties → Properties
  | [] => [e]
  | e' :: rest => if e.1 < e'.1 then e :: e' :: rest else e' :: place e rest

/-- Entries in the order of their names. -/
def sorted (es : Properties) : Properties := es.foldl (fun done e => place e done) []

mutual

/-- A part of a document as JSON. -/
def Node.toJson : Node → Json
  | .value v => v
  | .table _ entries => .obj (sorted (entriesToJson entries))
  | .tables front last => .arr (tablesToJson front ++ [.obj (sorted (entriesToJson last))])

/-- The values of entries as JSON. -/
def entriesToJson : List (String × Node) → Properties
  | [] => []
  | (k, n) :: rest => (k, n.toJson) :: entriesToJson rest

/-- Tables as JSON. -/
def tablesToJson : List (List (String × Node)) → List Json
  | [] => []
  | t :: rest => .obj (sorted (entriesToJson t)) :: tablesToJson rest

end

/-! ### Values -/

mutual

/-- A value at the front of the text; `room` more arrays and tables may be entered. -/
def value? : (bound room : Nat) → List Char → Option (Json × List Char)
  | 0, _, _ => none
  | bound + 1, room, text =>
    match text with
    | '[' :: rest => match room with
      | 0 => none
      | room + 1 => do
        let (vs, rest) ← items? bound room rest
        return (.arr vs, rest)
    | '\x7b' :: rest => match room with
      | 0 => none
      | room + 1 => do
        let (binds, rest) ← binds? bound room rest
        let t ← bindAll binds []
        return (.obj (sorted (entriesToJson t)), rest)
    | c :: _ =>
      if c = '"' ∨ c = '\'' then (string? text).map fun r => (.str r.1, r.2)
      else do
        let (word, rest) ← word? text
        return (← scalar? word, rest)
    | [] => none

/-- The items of an array up to its closing bracket. -/
def items? : (bound room : Nat) → List Char → Option (List Json × List Char)
  | 0, _, _ => none
  | bound + 1, room, text => do
    match ← skipLines (text.length + 1) text with
    | ']' :: rest => some ([], rest)
    | text => do
      let (v, rest) ← value? bound room text
      match ← skipLines (rest.length + 1) rest with
      | ',' :: rest => do
        let (vs, rest) ← items? bound room rest
        return (v :: vs, rest)
      | ']' :: rest => some ([v], rest)
      | _ => none

/-- The bindings of a table between braces. -/
def binds? : (bound room : Nat) → List Char → Option (List (List String × Json) × List Char)
  | 0, _, _ => none
  | bound + 1, room, text => do
    match ← skipLines (text.length + 1) text with
    | '\x7d' :: rest => some ([], rest)
    | text => do
      let (key, rest) ← key? (text.length + 1) text
      let rest ← Json.drop? ['='] rest
      let (v, rest) ← value? bound room (skipBlank rest)
      match ← skipLines (rest.length + 1) rest with
      | ',' :: rest => do
        let (binds, rest) ← binds? bound room rest
        return ((key, v) :: binds, rest)
      | '\x7d' :: rest => some ([(key, v)], rest)
      | _ => none

end

/-! ### Lines -/

/-- How deep arrays and tables may nest within a value. -/
def nestingLimit : Nat := 80

/-- A statement at the front of a line. -/
def statement? (text : List Char) : Option (Statement × List Char) := do
  let bound := text.length + 1
  match text with
  | '[' :: '[' :: rest => do
    let (key, rest) ← key? bound rest
    let rest ← Json.drop? [']', ']'] rest
    return (.tables key, rest)
  | '[' :: rest => do
    let (key, rest) ← key? bound rest
    let rest ← Json.drop? [']'] rest
    return (.table key, rest)
  | _ => do
    let (key, rest) ← key? bound text
    let rest ← Json.drop? ['='] rest
    let (v, rest) ← value? (2 * bound) nestingLimit (skipBlank rest)
    return (.bind key v, rest)

/-- The statements of a text, one a line. -/
def statements? : (bound : Nat) → List Char → Option (List Statement)
  | 0, _ => none
  | bound + 1, text => do
    match ← skipLines (text.length + 1) text with
    | [] => some []
    | text => do
      let (s, rest) ← statement? text
      let rest ← skipTrailing rest
      match rest, lineEnd? rest with
      | [], _ => some [s]
      | _, some rest => return s :: (← statements? bound rest)
      | _, none => none

/-- The document a text spells, as JSON. -/
def ofText? (s : String) : Option Json := do
  let text := match s.toList with
    | c :: rest => if c.toNat = 0xFEFF then rest else c :: rest
    | [] => []
  let lines ← statements? (text.length + 1) text
  let t ← sections (lines.length + 1) lines []
  return .obj (sorted (entriesToJson t))

end Toml

end Provisioning
