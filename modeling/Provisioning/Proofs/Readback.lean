/-
What is stored can be read back as the tree that it was.

Flattening takes a tree apart: each value gets an entry of its own, and instead of the values
it contains an entry has their addresses.  Reading goes the other way and follows the addresses.
Both recursions over the table come to what a recursion over the tree would have given: the
expression is the tree again, where only a whole resource has turned into the hash of its
fields, and the value is that of the tree.

There are two halves.  The value at an address is the value of the expression at that address,
in any table and with any number of steps, so it is enough to know the expression.  And the
expression is the tree as long as each part of the tree is stored at its own address, which is
what adding promises for trees whose keys have no dots.

Reading cannot go wrong by itself.  A reference leads to an address that is stored and longer,
so no path through the table goes on for ever.  Adding changes nothing of this for what was
stored before, because it only appends.
-/
import Provisioning.Proofs.Addresses
import Provisioning.Proofs.Declare.References
import Provisioning.Run.Memory

namespace Provisioning

/-! ### Plain trees -/

namespace Expr

/-- The first step of a path leads to a part from which the rest goes on. -/
theorem Part.head {e part : Expr} {k : String} {path : List String}
    (h : e.Part (k :: path) part) : ∃ next, e.Part [k] next ∧ next.Part path part := by
  cases h with
  | item hitem hrest => exact ⟨_, .item hitem (.whole _), hrest⟩
  | field hfield hrest => exact ⟨_, .field hfield (.whole _), hrest⟩
  | property hfield hrest => exact ⟨_, .property hfield (.whole _), hrest⟩

/-- An expression is plain if its own fields are and each part directly in it is. -/
theorem plain_of_parts {e : Expr} (hnames : e.fieldNames.Nodup)
    (hdots : ∀ k ∈ e.fieldNames, '.' ∉ k.toList)
    (hparts : ∀ k part, e.Part [k] part → part.Plain) : e.Plain := by
  intro path part hpart
  cases path with
  | nil =>
    cases hpart
    exact ⟨hnames, hdots⟩
  | cons k path =>
    obtain ⟨next, hnext, hrest⟩ := hpart.head
    exact hparts k next hnext path part hrest

theorem plain_literal (v : Json) : (literal v).Plain :=
  plain_of_parts .nil nofun nofun

theorem plain_output (o : OutputRef) : (output o).Plain :=
  plain_of_parts .nil nofun nofun

theorem plain_array {items : List Expr} (h : ∀ e ∈ items, e.Plain) : (array items).Plain :=
  plain_of_parts .nil nofun <| by
    intro k part hpart
    cases hpart with
    | item hitem hrest =>
      cases hrest
      exact h _ (List.mem_of_getElem? hitem)

theorem plain_hash {fields : List (String × Expr)} (hnames : (fields.map Prod.fst).Nodup)
    (h : ∀ x ∈ fields, '.' ∉ x.1.toList ∧ x.2.Plain) : (hash fields).Plain :=
  plain_of_parts hnames (by simpa [fieldNames] using fun k e he => (h (k, e) he).1) <| by
    intro k part hpart
    cases hpart with
    | field hfield hrest =>
      cases hrest
      exact (h _ hfield).2

theorem plain_resource {name typeId : String} {schema : Schema}
    {properties : List (String × Expr)} (hnames : (properties.map Prod.fst).Nodup)
    (h : ∀ x ∈ properties, '.' ∉ x.1.toList ∧ x.2.Plain) :
    (resource name typeId schema properties).Plain :=
  plain_of_parts hnames (by simpa [fieldNames] using fun k e he => (h (k, e) he).1) <| by
    intro k part hpart
    cases hpart with
    | property hfield hrest =>
      cases hrest
      exact (h _ hfield).2

end Expr

/-! ### The value of a tree -/

namespace Expr

mutual

/-- The expression in which each whole resource has become the hash of its fields. -/
def opened : Expr → Expr
  | .literal v => .literal v
  | .array items => .array (openedItems items)
  | .hash fields => .hash (openedFields fields)
  | .resource _ _ _ properties => .hash (openedFields properties)
  | .output o => .output o

/-- Items with their whole resources opened. -/
def openedItems : List Expr → List Expr
  | [] => []
  | e :: es => opened e :: openedItems es

/-- Fields with their whole resources opened. -/
def openedFields : List (String × Expr) → List (String × Expr)
  | [] => []
  | (k, e) :: es => (k, opened e) :: openedFields es

end

mutual

/-- The value of an expression, where `output` gives the values of outputs; a whole resource
has the value of its fields. -/
def evaluate (output : OutputRef → Except Fault Json) : Expr → Except Fault Json
  | .literal v => .ok v
  | .array items => do return .arr (← evaluateItems output items)
  | .hash fields => do return .obj (← evaluateFields output fields)
  | .resource _ _ _ properties => do return .obj (← evaluateFields output properties)
  | .output o => output o

/-- The values of items, one after the other. -/
def evaluateItems (output : OutputRef → Except Fault Json) : List Expr → Except Fault (List Json)
  | [] => .ok []
  | e :: es => do
    let v ← evaluate output e
    return v :: (← evaluateItems output es)

/-- The values of fields, one after the other. -/
def evaluateFields (output : OutputRef → Except Fault Json) :
    List (String × Expr) → Except Fault Properties
  | [] => .ok []
  | (k, e) :: es => do
    let v ← evaluate output e
    return (k, v) :: (← evaluateFields output es)

end

variable {output : OutputRef → Except Fault Json}

mutual

/-- An opened expression has the same value. -/
theorem evaluate_opened : (e : Expr) → e.opened.evaluate output = e.evaluate output
  | .literal _ => rfl
  | .array items => by rw [opened, evaluate, evaluate, evaluateItems_opened items]
  | .hash fields => by rw [opened, evaluate, evaluate, evaluateFields_opened fields]
  | .resource _ _ _ properties => by
    rw [opened, evaluate, evaluate, evaluateFields_opened properties]
  | .output _ => rfl

theorem evaluateItems_opened : (items : List Expr) →
    evaluateItems output (openedItems items) = evaluateItems output items
  | [] => rfl
  | e :: rest => by
    rw [openedItems, evaluateItems, evaluateItems, evaluate_opened e, evaluateItems_opened rest]

theorem evaluateFields_opened : (fields : List (String × Expr)) →
    evaluateFields output (openedFields fields) = evaluateFields output fields
  | [] => rfl
  | (k, e) :: rest => by
    rw [openedFields, evaluateFields, evaluateFields, evaluate_opened e,
      evaluateFields_opened rest]

end

theorem evaluateItems_eq_mapM (items : List Expr) :
    evaluateItems output items = items.mapM (evaluate output) :=
  eq_mapM (evaluate output) (evaluateItems output) rfl (fun _ _ => rfl) items

theorem evaluateFields_eq_mapM (fields : List (String × Expr)) :
    evaluateFields output fields =
      fields.mapM fun e => do return (e.1, ← evaluate output e.2) :=
  eq_mapM_fields (evaluate output) (evaluateFields output) rfl (fun _ _ _ => rfl) fields

mutual

/-- **An expression fails to have a value just as the list of its outputs does,** so with the
first of them that has none. -/
theorem evaluate_failAlike :
    (e : Expr) → FailAlike (e.evaluate output) (e.outputs.mapM output)
  | .literal _ => fun _ => ⟨nofun, nofun⟩
  | .array items => (evaluateItems_failAlike items).map_right _
  | .hash fields => (evaluateFields_failAlike fields).map_right _
  | .resource _ _ _ properties => (evaluateFields_failAlike properties).map_right _
  | .output o => by
    intro f
    rw [evaluate, outputs, List.mapM_cons, List.mapM_nil]
    exact (((FailAlike.refl _).map_right _) f).symm

theorem evaluateItems_failAlike : (items : List Expr) →
    FailAlike (evaluateItems output items) ((outputsItems items).mapM output)
  | [] => fun _ => ⟨nofun, nofun⟩
  | e :: rest => by
    rw [outputsItems, List.mapM_append]
    exact (evaluate_failAlike e).bind fun _ _ => (evaluateItems_failAlike rest).map _ _

theorem evaluateFields_failAlike : (fields : List (String × Expr)) →
    FailAlike (evaluateFields output fields) ((outputsFields fields).mapM output)
  | [] => fun _ => ⟨nofun, nofun⟩
  | (_, e) :: rest => by
    rw [outputsFields, List.mapM_append]
    exact (evaluate_failAlike e).bind fun _ _ => (evaluateFields_failAlike rest).map _ _

end

end Expr

namespace Rom

/-! ### Reading with any number of steps -/

variable {rom rom' : Rom} {a : String} {e : Expr} {steps : Nat}

theorem expressionWithin_of_get {x : Entry} :
    rom.get a = .ok x → rom.expressionWithin (steps + 1) a =
      match x with
      | .literal v => .ok (.literal v)
      | .array references => do
        return .array (← references.mapM (rom.expressionWithin steps))
      | .hash references => do
        return .hash (← references.entries.mapM fun e => do
          return (e.1, ← rom.expressionWithin steps e.2))
      | .output o => .ok (.output o) := by
  intro h
  rw [expressionWithin, h]
  cases x <;> rfl

theorem get_of_expressionWithin (h : rom.expressionWithin (steps + 1) a = .ok e) :
    ∃ x, rom.get a = .ok x := by
  rw [expressionWithin] at h
  obtain ⟨x, hx, -⟩ := bind_eq_ok.1 h
  exact ⟨x, hx⟩

theorem expressionWithin_of_field {k : String} {y : String × Expr}
    (h : (do return (k, ← rom.expressionWithin steps a) : Except Fault _) = .ok y) :
    ∃ e, rom.expressionWithin steps a = .ok e ∧ y = (k, e) := by
  obtain ⟨e, he, h⟩ := bind_eq_ok.1 h
  cases h
  exact ⟨e, he, rfl⟩

/-- **The value at an address is the value of the expression there,** in any table. -/
theorem resolveWithin_of_expressionWithin {output : OutputRef → Except Fault Json}
    (h : rom.expressionWithin steps a = .ok e) :
    rom.resolveWithin output steps a = e.evaluate output := by
  induction steps generalizing a e with
  | zero => cases h
  | succ steps ih =>
    obtain ⟨x, hget⟩ := get_of_expressionWithin h
    rw [expressionWithin_of_get hget] at h
    rw [resolveWithin_of_get hget]
    cases x with
    | literal v =>
      cases h
      rfl
    | array references =>
      obtain ⟨items, hitems, h⟩ := bind_eq_ok.1 h
      cases h
      have hvalues : references.mapM (rom.resolveWithin output steps) =
          Expr.evaluateItems output items := by
        rw [Expr.evaluateItems_eq_mapM]
        exact mapM_of_forall₂ (mapM_eq_ok.1 hitems) fun _ _ he => ih he
      simp only [hvalues]
      rfl
    | hash references =>
      obtain ⟨fields, hfields, h⟩ := bind_eq_ok.1 h
      cases h
      have hvalues : (references.entries.mapM fun e => do
          return (e.1, ← rom.resolveWithin output steps e.2) : Except Fault _) =
            Expr.evaluateFields output fields := by
        rw [Expr.evaluateFields_eq_mapM]
        refine mapM_of_forall₂ (mapM_eq_ok.1 hfields) fun reference field h => ?_
        obtain ⟨e, he, rfl⟩ := expressionWithin_of_field h
        rw [ih he]
      simp only [hvalues]
      rfl
    | output o =>
      cases h
      rfl

/-- More steps and more entries change nothing about an expression that was read. -/
theorem expressionWithin_mono (hkeeps : ∀ a x, rom.get a = .ok x → rom'.get a = .ok x)
    {steps' : Nat} (hsteps : steps ≤ steps') (h : rom.expressionWithin steps a = .ok e) :
    rom'.expressionWithin steps' a = .ok e := by
  induction steps generalizing a e steps' with
  | zero => cases h
  | succ steps ih =>
    obtain ⟨steps', rfl⟩ : ∃ n, steps' = n + 1 := ⟨steps' - 1, by omega⟩
    have hle : steps ≤ steps' := by omega
    obtain ⟨x, hget⟩ := get_of_expressionWithin h
    rw [expressionWithin_of_get hget] at h
    rw [expressionWithin_of_get (hkeeps a x hget)]
    cases x with
    | literal v => exact h
    | array references =>
      obtain ⟨items, hitems, h⟩ := bind_eq_ok.1 h
      have hitems' : references.mapM (rom'.expressionWithin steps') = .ok items :=
        mapM_eq_ok.2 ((mapM_eq_ok.1 hitems).imp fun _ _ he => ih hle he)
      exact bind_eq_ok.2 ⟨items, hitems', h⟩
    | hash references =>
      obtain ⟨fields, hfields, h⟩ := bind_eq_ok.1 h
      refine bind_eq_ok.2 ⟨fields, mapM_eq_ok.2 ((mapM_eq_ok.1 hfields).imp ?_), h⟩
      intro reference field h
      obtain ⟨e, he, rfl⟩ := expressionWithin_of_field h
      exact bind_eq_ok.2 ⟨e, ih hle he, rfl⟩
    | output o => exact h

/-! ### Tables that were built by adding -/

/-- The table came about by adding expressions, each of them with success. -/
inductive Built : Rom → Prop
  | empty : Built Rom.empty
  | add {rom rom' : Rom} {name : String} {e : Expr} (h : Built rom)
    (hadd : rom.add name e = (rom', .ok ())) : Built rom'

theorem Built.closed (h : Built rom) : Closed rom.entries.entries := by
  induction h with
  | empty => exact closed_nil
  | add h hadd ih =>
    rw [add_eq_ok hadd]
    exact closed_append ih (closed_flat _ _)

/-- Following addresses comes to an end, and everything on the way is stored. -/
structure Grounded (rom : Rom) : Prop where
  /-- No path of references goes on for ever. -/
  ends : WellFounded fun b a => rom.Refers a b
  /-- What is referred to is stored. -/
  stored : ∀ a b, rom.Refers a b → ∃ x, rom.get b = .ok x

theorem Closed.grounded (h : Closed rom.entries.entries) : rom.Grounded where
  ends := by
    refine Subrelation.wf (r := (measure rom.room).rel) ?_ (measure rom.room).wf
    intro b a hrefers
    obtain ⟨x, hx, hb⟩ := hrefers
    obtain ⟨-, hlt⟩ := h _ (Table.get?_eq_some_iff.1 hx) b hb
    exact room_lt (Table.mem_keys_of_get? hx) hlt
  stored := by
    rintro a b ⟨x, hx, hb⟩
    obtain ⟨hmem, -⟩ := h _ (Table.get?_eq_some_iff.1 hx) b hb
    obtain ⟨y, hy, -⟩ := get_of_mem hmem
    exact ⟨y, hy⟩

theorem room_pos {x : Entry} (h : rom.get a = .ok x) : 0 < rom.room a :=
  List.countP_pos_iff.2 ⟨(a, x), get_eq_ok_iff.1 h, by simp⟩

theorem mem_keys_of_get {x : Entry} (h : rom.get a = .ok x) : a ∈ rom.entries.keys :=
  List.mem_map.2 ⟨(a, x), get_eq_ok_iff.1 h, rfl⟩

/-- In a closed table there is an expression at each stored address. -/
theorem exists_expressionWithin (hclosed : Closed rom.entries.entries) {x : Entry}
    (h : rom.get a = .ok x) (hsteps : rom.room a ≤ steps) :
    ∃ e, rom.expressionWithin steps a = .ok e := by
  induction steps generalizing a x with
  | zero => exact absurd (room_pos h) (by omega)
  | succ steps ih =>
    have hpart : ∀ b ∈ x.references, ∃ e, rom.expressionWithin steps b = .ok e := by
      intro b hb
      obtain ⟨hmem, hlt⟩ := hclosed _ (get_eq_ok_iff.1 h) b hb
      have hroom := room_lt (mem_keys_of_get h) hlt
      obtain ⟨y, hy, -⟩ := get_of_mem hmem
      exact ih hy (by omega)
    rw [expressionWithin_of_get h]
    cases x with
    | literal v => exact ⟨_, rfl⟩
    | array references =>
      obtain ⟨items, hitems⟩ := exists_mapM hpart
      exact ⟨_, bind_eq_ok.2 ⟨items, hitems, rfl⟩⟩
    | hash references =>
      have hfield : ∀ r ∈ references.entries, ∃ y,
          (do return (r.1, ← rom.expressionWithin steps r.2) : Except Fault _) = .ok y := by
        intro r hr
        obtain ⟨e, he⟩ := hpart r.2 (List.mem_map.2 ⟨r, hr, rfl⟩)
        exact ⟨_, bind_eq_ok.2 ⟨e, he, rfl⟩⟩
      obtain ⟨fields, hfields⟩ := exists_mapM hfield
      exact ⟨_, bind_eq_ok.2 ⟨fields, hfields, rfl⟩⟩
    | output o => exact ⟨_, rfl⟩

/-! ### Trees that are stored part by part -/

/-- Each part of the expression is stored at its own address. -/
def Stores (rom : Rom) (address : String) (e : Expr) : Prop :=
  ∀ path part, e.Part path part →
    rom.get (locate address path) = .ok (whole (locate address path) part)

/-- Everything is there to read an expression in some number of steps. -/
structure Readable (rom : Rom) (steps : Nat) (address : String) (e : Expr) : Prop where
  stores : rom.Stores address e
  plain : e.Plain
  /-- No path from the address is longer. -/
  room : rom.room address ≤ steps

theorem Stores.get {address : String} (h : rom.Stores address e) :
    rom.get address = .ok (whole address e) :=
  h [] e (.whole e)

/-- A part that lies directly in an expression takes one step less. -/
theorem Readable.part {k : String} {part : Expr} (h : rom.Readable (steps + 1) a e)
    (hpart : e.Part [k] part) : rom.Readable steps (child a k) part where
  stores := fun path deeper hdeeper => h.stores (k :: path) deeper (hpart.trans hdeeper)
  plain := h.plain.part hpart
  room := by
    have hlt := room_lt (mem_keys_of_get h.stores.get) (length_child a k)
    have hroom := h.room
    omega

theorem mapM_itemAddresses {f : String → Except Fault Expr} {items : List Expr} {i : Nat}
    (h : ∀ n e, items[n]? = some e → f (child a (toString (i + n))) = .ok e.opened) :
    (itemAddresses a i items).mapM f = .ok (Expr.openedItems items) := by
  induction items generalizing i with
  | nil => rfl
  | cons e rest ih =>
    have hrest := ih (i := i + 1) fun n e he => by
      rw [show i + 1 + n = i + (n + 1) by omega]
      exact h (n + 1) e he
    have hfirst : f (child a (toString i)) = .ok e.opened := h 0 e rfl
    rw [itemAddresses, List.mapM_cons, hfirst, hrest]
    rfl

theorem mapM_fieldAddresses {f : String → Except Fault Expr} {fields : List (String × Expr)}
    (h : ∀ k e, (k, e) ∈ fields → f (child a k) = .ok e.opened) :
    ((fields.map fun e => (e.1, child a e.1)).mapM fun e => do return (e.1, ← f e.2)) =
      .ok (Expr.openedFields fields) := by
  induction fields with
  | nil => rfl
  | cons field rest ih =>
    obtain ⟨k, e⟩ := field
    have hrest := ih fun k e he => h k e (List.mem_cons_of_mem _ he)
    rw [List.map_cons, List.mapM_cons, hrest, h k e List.mem_cons_self]
    rfl

theorem entries_fieldAddresses {fields : List (String × Expr)}
    (h : (fields.map Prod.fst).Nodup) (address : String) :
    (fieldAddresses address fields).entries =
      fields.map fun e => (e.1, child address e.1) := by
  refine Entries.ofList_of_nodup ?_
  rw [List.map_map]
  exact h

/-- **A plain tree that is stored part by part is read back with its resources opened.** -/
theorem expressionWithin_of_readable (h : rom.Readable steps a e) :
    rom.expressionWithin steps a = .ok e.opened := by
  induction steps generalizing a e with
  | zero =>
    have hpos := room_pos h.stores.get
    have hroom := h.room
    omega
  | succ steps ih =>
    have hnames := (h.plain [] e (.whole e)).1
    rw [expressionWithin_of_get h.stores.get]
    cases e with
    | literal v => rfl
    | output o => rfl
    | array items =>
      have hitems := mapM_itemAddresses (i := 0) fun n e he => ih <| by
        rw [Nat.zero_add]
        exact h.part (.item he (.whole e))
      simp only [whole, hitems]
      rfl
    | hash fields =>
      have hfields := mapM_fieldAddresses fun k e he => ih (h.part (.field he (.whole e)))
      simp only [whole, entries_fieldAddresses hnames, hfields]
      rfl
    | resource name typeId schema properties =>
      have hfields := mapM_fieldAddresses fun k e he => ih (h.part (.property he (.whole e)))
      simp only [whole, entries_fieldAddresses hnames, hfields]
      rfl

end Rom

/-! ### Adding a tree -/

/-- The run has nothing to give for the output: it is no identifier, and no outputs of its
resource are stored. -/
def Memory.Lacks (m : Memory) (o : OutputRef) : Prop :=
  o.field ≠ remoteIdField ∧ m.outputs.get? o.resource = none

theorem Memory.outputValue_eq_error_iff {m : Memory} {o : OutputRef} {f : Fault} :
    m.outputValue o = .error f ↔ m.Lacks o ∧ f = .outputUnavailable o.resource o.field := by
  unfold outputValue Lacks
  by_cases hfield : o.field = remoteIdField
  · simp [hfield]
  · cases m.outputs.get? o.resource with
    | none => simp [hfield, eq_comm]
    | some fields => simp [hfield]

theorem Memory.outputValue_ok_iff {m : Memory} {o : OutputRef} :
    (∃ v, m.outputValue o = .ok v) ↔ ¬ m.Lacks o := by
  cases h : m.outputValue o with
  | ok v =>
    refine ⟨fun _ hlacks => ?_, fun _ => ⟨v, rfl⟩⟩
    rw [outputValue_eq_error_iff.2 ⟨hlacks, rfl⟩] at h
    cases h
  | error f => exact ⟨nofun, fun hhas => absurd (outputValue_eq_error_iff.1 h).1 hhas⟩

/-- An expression has no value exactly if the run lacks one of its outputs; the fault is that of
the first one. -/
theorem Expr.evaluate_eq_error_iff {m : Memory} {e : Expr} {f : Fault} :
    e.evaluate m.outputValue = .error f ↔ ∃ before o after, e.outputs = before ++ o :: after ∧
      (∀ p ∈ before, ¬ m.Lacks p) ∧ m.Lacks o ∧ f = .outputUnavailable o.resource o.field := by
  rw [evaluate_failAlike e f, mapM_eq_error_iff]
  simp only [Memory.outputValue_ok_iff, Memory.outputValue_eq_error_iff]

namespace Rom

/-- What reading gives after a tree was added to a table. -/
structure ReadsBack (rom rom' : Rom) (name : String) (e : Expr) : Prop where
  /-- The expression is the tree with its resources opened. -/
  expression : rom'.expression name = .ok e.opened
  /-- The value is that of the tree. -/
  value : ∀ m : Memory, rom'.resolve m.outputValue name = e.evaluate m.outputValue
  /-- There is none exactly if the run lacks an output, and the fault is that of the first one. -/
  fault : ∀ (m : Memory) (f : Fault), rom'.resolve m.outputValue name = .error f ↔
    ∃ before o after, e.outputs = before ++ o :: after ∧
      (∀ p ∈ before, ¬ m.Lacks p) ∧ m.Lacks o ∧ f = .outputUnavailable o.resource o.field
  /-- Following addresses comes to an end and never leads to an address that is not stored. -/
  grounded : rom'.Grounded
  /-- So no bound on the steps is ever felt, wherever reading starts. -/
  unbounded : ∀ a x, rom'.get a = .ok x → ∃ e, ∀ steps, rom'.size < steps →
    rom'.expressionWithin steps a = .ok e ∧
      ∀ m : Memory, rom'.resolveWithin m.outputValue steps a = e.evaluate m.outputValue
  /-- What was stored before reads as before. -/
  keeps : ∀ a x, rom.get a = .ok x → ∃ e, rom.expression a = .ok e ∧ rom'.expression a = .ok e ∧
    ∀ m : Memory, rom'.resolve m.outputValue a = rom.resolve m.outputValue a

/-- **A plain tree that was added is read back as it was,** and reading cannot fail by itself,
neither there nor anywhere else in the table. -/
theorem readsBack_of_add {rom rom' : Rom} (hbuilt : rom.Built) {name : String} {e : Expr}
    (hplain : e.Plain) (hadd : rom.add name e = (rom', .ok ())) : rom.ReadsBack rom' name e := by
  have hclosed := hbuilt.closed
  have hclosed' := (hbuilt.add hadd).closed
  have hkeeps : ∀ a x, rom.get a = .ok x → rom'.get a = .ok x := by
    intro a x hx
    have hkept := get_add hx name e
    rwa [hadd] at hkept
  have hstores : rom'.Stores name e :=
    ((keepsApart_iff rom name e).2 (.inr (ownAddresses_of_plain hplain name))).stores rom' hadd
  have hroom : ∀ (r : Rom) a, r.room a ≤ r.size + 1 := fun r a =>
    Nat.le_succ_of_le (r.room_le_size a)
  have hexpression : rom'.expression name = .ok e.opened :=
    expressionWithin_of_readable ⟨hstores, hplain, hroom rom' name⟩
  have hvalue : ∀ m : Memory, rom'.resolve m.outputValue name = e.evaluate m.outputValue := by
    intro m
    rw [← e.evaluate_opened]
    exact resolveWithin_of_expressionWithin hexpression
  exact {
    expression := hexpression
    value := hvalue
    fault := by
      intro m f
      rw [hvalue m]
      exact Expr.evaluate_eq_error_iff
    grounded := hclosed'.grounded
    unbounded := by
      intro a x hx
      obtain ⟨e, he⟩ := exists_expressionWithin hclosed' hx (rom'.room_le_size a)
      refine ⟨e, fun steps hsteps => ?_⟩
      have hmore := expressionWithin_mono (fun _ _ h => h) (Nat.le_of_lt hsteps) he
      exact ⟨hmore, fun m => resolveWithin_of_expressionWithin hmore⟩
    keeps := by
      intro a x hx
      obtain ⟨e, he⟩ := exists_expressionWithin hclosed hx (hroom rom a)
      have hsize : rom.size ≤ rom'.size := by
        show rom.entries.entries.length ≤ rom'.entries.entries.length
        rw [add_eq_ok hadd, List.length_append]
        exact Nat.le_add_right _ _
      have he' := expressionWithin_mono hkeeps (Nat.succ_le_succ hsize) he
      refine ⟨e, he, he', fun m => ?_⟩
      exact (resolveWithin_of_expressionWithin he').trans
        (resolveWithin_of_expressionWithin he).symm }

/-- A table with one tree in it takes a second one, with an array, a hash, an output and a whole
resource in it. -/
theorem readsBack_of_add_nested :
    let owner := Expr.resource "user" "user" default [("id", .output ⟨"user", remoteIdField⟩)]
    let tree := Expr.hash [("tags", .array [.literal (.str "two"), .output ⟨"host", "ip"⟩]),
      ("owner", owner)]
    let rom := (Rom.empty.add "user" owner).1
    let rom' := (rom.add "file" tree).1
    rom.Built ∧ tree.Plain ∧ rom.add "file" tree = (rom', .ok ()) ∧
      rom.ReadsBack rom' "file" tree := by
  intro owner tree rom rom'
  have hfirst : Rom.empty.add "user" owner = (rom, .ok ()) := by decide
  have hbuilt : rom.Built := .add .empty hfirst
  have howner : owner.Plain :=
    Expr.plain_resource (by decide) (List.forall_mem_singleton.2 ⟨by decide, Expr.plain_output _⟩)
  have htags : (Expr.array [.literal (.str "two"), .output ⟨"host", "ip"⟩]).Plain :=
    Expr.plain_array (by simp [Expr.plain_literal, Expr.plain_output])
  have hplain : tree.Plain :=
    Expr.plain_hash (by decide) (by simp [htags, howner])
  have hadd : rom.add "file" tree = (rom', .ok ()) := by decide
  exact ⟨hbuilt, hplain, hadd, readsBack_of_add hbuilt hplain hadd⟩

end Rom

end Provisioning
