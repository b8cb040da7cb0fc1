/-
Artifacts lose nothing.

A program is written as JSON and read back.  The writer goes through the tables and the
instructions one by one, and so does the reader, so the law of the whole is put together
from laws of the parts: a list is read back exactly if each of its items is, and a table
exactly if each of its values is, since no name of a table stands twice in what is written.

Two kinds of numbers occur, where labels point and where branches go.  A position in an
artifact is a word of 64 bits; that is the only thing a reader demands of a program, and
with it every program is read back as it was.

For instructions the reader accepts nothing but what the writer gives, so each instruction
has one written form: its name if it has no operand, and otherwise an object that binds its
name alone to its operand.
-/
import Provisioning.Code.Program
import Provisioning.Proofs.Fallible
import Provisioning.Proofs.Table

namespace Provisioning

/-- A number is a position if it is whole and a word. -/
theorem Number.asIndex?_eq_some {n : Number} {i : Nat} :
    n.asIndex? = some i ↔ n = .int i ∧ i < UInt64.size := by
  cases n with
  | float word => simp [asIndex?]
  | int z =>
    simp only [asIndex?, Option.ite_none_right_eq_some, Option.some.injEq, Number.int.injEq]
    omega

/-! ### Lists and tables -/

namespace Json

variable {α : Type} {decode : Json → Option α} {write : α → Json}

theorem mapM_written_iff {β : Type} {f : β → Option α} {g : α → β} {l : List α} :
    (l.map g).mapM f = some l ↔ ∀ a ∈ l, f (g a) = some a := by
  induction l with
  | nil => simp
  | cons a rest ih =>
    rw [List.map_cons, List.mapM_cons]
    constructor
    · intro h
      obtain ⟨b, hb, h⟩ := Option.bind_eq_some_iff.1 h
      obtain ⟨bs, hbs, h⟩ := Option.bind_eq_some_iff.1 h
      obtain ⟨rfl, rfl⟩ := List.cons.inj (Option.some.inj h)
      intro a ha
      rcases List.mem_cons.1 ha with rfl | ha
      · exact hb
      · exact ih.1 hbs a ha
    · intro h
      have hhead := h a List.mem_cons_self
      have htail := ih.2 fun b hb => h b (List.mem_cons_of_mem a hb)
      simp [hhead, htail]

theorem listOf?_written_iff {l : List α} :
    listOf? decode (.arr (l.map write)) = some l ↔ ∀ a ∈ l, decode (write a) = some a :=
  mapM_written_iff

theorem strings?_strs (ss : List String) : strings? (strs ss) = some ss := by
  refine listOf?_written_iff.2 ?_
  intro s _
  rfl

theorem keys_of_mapM {fields : List (String × Json)} {es : List (String × α)}
    (h : (fields.mapM fun e => (decode e.2).map (e.1, ·)) = some es) :
    es.map Prod.fst = fields.map Prod.fst := by
  induction fields generalizing es with
  | nil =>
    simp at h
    simp [h]
  | cons e rest ih =>
    rw [List.mapM_cons] at h
    obtain ⟨b, hb, h⟩ := Option.bind_eq_some_iff.1 h
    obtain ⟨bs, hbs, h⟩ := Option.bind_eq_some_iff.1 h
    obtain ⟨v, -, rfl⟩ := Option.map_eq_some_iff.1 hb
    obtain rfl := Option.some.inj h
    simp [ih hbs]

theorem tableOf?_written_iff {t : Table α} :
    tableOf? decode (.obj (t.entries.map fun e => (e.1, write e.2))) = some t ↔
      ∀ e ∈ t.entries, decode (write e.2) = some e.2 := by
  have hitem : ∀ e : String × α, (decode (write e.2)).map (e.1, ·) = some e ↔
      decode (write e.2) = some e.2 := by
    intro e
    cases hd : decode (write e.2) with
    | none => simp
    | some a => simp [Prod.ext_iff]
  have hitems : ((t.entries.map fun e => (e.1, write e.2)).mapM fun e =>
      (decode e.2).map (e.1, ·)) = some t.entries ↔
      ∀ e ∈ t.entries, decode (write e.2) = some e.2 := by
    rw [mapM_written_iff]
    exact forall_congr' fun e => imp_congr_right fun _ => hitem e
  rw [← hitems]
  constructor
  · intro h
    obtain ⟨es, hes, ht⟩ := Option.map_eq_some_iff.1 h
    -- The names that are read are the names of `t`, so none of them stands twice.
    have hkeys : es.map Prod.fst = t.entries.keys := by
      rw [keys_of_mapM hes, List.map_map]
      rfl
    have hentries : es = t.entries := by
      rw [← ht]
      exact (Entries.ofList_of_nodup (hkeys ▸ t.nodup)).symm
    rw [hentries] at hes
    exact hes
  · intro h
    refine Option.map_eq_some_iff.2 ⟨t.entries, h, ?_⟩
    exact Table.eq_of_entries (Entries.ofList_of_nodup t.nodup)

/-- A table of values is what it is written as. -/
theorem tableOf?_some (t : Table Json) : tableOf? some (.obj t.entries) = some t := by
  have hread : tableOf? some (.obj (t.entries.map fun e => (e.1, id e.2))) = some t :=
    tableOf?_written_iff.2 fun _ _ => rfl
  simpa using hread

theorem tableOf?_objects (t : Table Properties) :
    tableOf? asObj? (.obj (t.entries.map fun e => (e.1, .obj e.2))) = some t :=
  tableOf?_written_iff.2 fun _ _ => rfl

theorem index?_nat_iff {i : Nat} : index? (.nat i) = some i ↔ i < UInt64.size := by
  simp [index?, nat, Number.asIndex?_eq_some]

end Json

/-! ### Instructions -/

/-- The position a branch goes to is a word. -/
def Instruction.WordSized : Instruction → Prop
  | .gotoIf (.index i) => i < UInt64.size
  | _ => True

instance : (i : Instruction) → Decidable i.WordSized
  | .gotoIf (.index i) => inferInstanceAs (Decidable (i < UInt64.size))
  | .gotoIf (.label _) | .init | .halt | .clear | .ret | .invert | .key _ | .value _
  | .valueRom _ | .valueUpdate _ | .memwrite _ | .compare _ | .assert _ | .call _ | .resource _ =>
    isTrue trivial

namespace Instruction

theorem wordSized_of_operand?_eq_none {i : Instruction} (h : i.operand? = none) :
    i.WordSized := by
  cases i with
  | gotoIf t => cases t <;> cases h
  | _ => trivial

/-- A name alone stands for the instruction of that name that has no operand. -/
theorem bare?_eq_some {op : String} {i : Instruction} :
    bare? op = some i ↔ i.operand? = none ∧ op = i.name := by
  constructor
  · intro h
    unfold bare? at h
    split at h
    case h_17 => cases h
    all_goals
      obtain rfl := Option.some.inj h
      exact ⟨rfl, rfl⟩
  · rintro ⟨hop, rfl⟩
    cases i with
    | gotoIf t => cases t <;> cases hop
    | resource op => cases op <;> rfl
    | init | halt | clear | ret | invert => rfl
    | key | value | valueRom | valueUpdate | memwrite | compare | assert | call => cases hop

theorem textOperand_eq_ok {op s : String} {v : Json} :
    textOperand op v = .ok s ↔ v = .str s := by
  cases v <;> simp [textOperand]

theorem targetOperand_eq_ok {op : String} {v : Json} {t : Target} :
    targetOperand op v = .ok t ↔ (gotoIf t).WordSized ∧ (gotoIf t).operand? = some v := by
  cases v with
  | str l => cases t <;> simp [targetOperand, operand?, WordSized, Json.nat, eq_comm]
  | null | bool | arr | obj => cases t <;> simp [targetOperand, operand?, Json.nat]
  | num n =>
    have hread : targetOperand op (.num n) = .ok t ↔ ∃ i, n.asIndex? = some i ∧ .index i = t := by
      cases hn : n.asIndex? with
      | none => simp [targetOperand, hn]
      | some i => simp [targetOperand, hn]
    rw [hread]
    cases t with
    | label l => simp [operand?]
    | index i =>
      simp [Number.asIndex?_eq_some, operand?, WordSized, Json.nat, and_comm,
        eq_comm (a := Number.int i)]

/-- A name with an operand stands for the instruction of that name with that operand. -/
theorem immediate_eq_ok {op : String} {v : Json} {i : Instruction} :
    immediate op v = .ok i ↔ i.WordSized ∧ i.operand? = some v ∧ op = i.name := by
  constructor
  · intro h
    unfold immediate at h
    split at h
    case h_10 => cases h
    -- Any literal is an operand of these.
    case h_2 | h_5 | h_6 =>
      cases h
      exact ⟨trivial, rfl, rfl⟩
    case h_9 =>
      obtain ⟨t, ht, rfl⟩ := map_eq_ok.1 h
      obtain ⟨hw, hv⟩ := targetOperand_eq_ok.1 ht
      exact ⟨hw, hv, rfl⟩
    all_goals
      obtain ⟨s, hs, rfl⟩ := map_eq_ok.1 h
      obtain rfl := textOperand_eq_ok.1 hs
      exact ⟨trivial, rfl, rfl⟩
  · rintro ⟨hw, hv, rfl⟩
    cases i with
    | gotoIf t =>
      have ht : targetOperand "goto_if" v = .ok t := targetOperand_eq_ok.2 ⟨hw, hv⟩
      exact map_eq_ok.2 ⟨t, ht, rfl⟩
    | value | memwrite | compare | key | valueRom | valueUpdate | assert | call =>
      obtain rfl := Option.some.inj hv
      rfl
    | init | halt | clear | ret | invert | resource => cases hv

/-- Exactly the written form of an instruction stands for it. -/
theorem ofJson_eq_ok {v : Json} {i : Instruction} :
    ofJson v = .ok i ↔ i.WordSized ∧ v = i.toJson := by
  constructor
  · intro h
    unfold ofJson at h
    split at h
    case h_1 op =>
      -- A name alone.
      split at h
      case h_2 => cases h
      case h_1 j hj =>
        cases h
        obtain ⟨hop, rfl⟩ := bare?_eq_some.1 hj
        exact ⟨wordSized_of_operand?_eq_none hop, by simp [toJson, hop]⟩
    case h_2 op w =>
      -- A name with an operand.
      obtain ⟨hw, hv, rfl⟩ := immediate_eq_ok.1 h
      exact ⟨hw, by simp [toJson, hv]⟩
    case h_3 => cases h
  · rintro ⟨hw, rfl⟩
    cases hop : i.operand? with
    | none =>
      have hbare : bare? i.name = some i := bare?_eq_some.2 ⟨hop, rfl⟩
      simp [toJson, hop, ofJson, hbare]
    | some v =>
      have himm : immediate i.name v = .ok i := immediate_eq_ok.2 ⟨hw, hop, rfl⟩
      simp [toJson, hop, ofJson, himm]

end Instruction

/-! ### The table of values -/

namespace Rom

/-- Every stored value is read back, whatever literal it holds. -/
theorem Entry.ofJson?_toJson (e : Entry) : Entry.ofJson? e.toJson = some e := by
  cases e with
  | literal v => rfl
  | array references =>
    have hread : Json.strings? (.strs references) = some references :=
      Json.strings?_strs references
    simp [toJson, ofJson?, ofRecord?, Record.required?, Record.read?, Record.fits, Json.asStr?,
      hread]
  | hash references =>
    have hread : Json.tableOf? Json.asStr?
        (.obj (references.entries.map fun e => (e.1, .str e.2))) = some references :=
      Json.tableOf?_written_iff.2 fun _ _ => rfl
    simp [toJson, ofJson?, ofRecord?, Record.required?, Record.read?, Record.fits, Json.asStr?,
      hread]
  | output o => rfl

theorem ofJson?_toJson (rom : Rom) : Rom.ofJson? rom.toJson = some rom := by
  have hread : Json.tableOf? Entry.ofJson? rom.toJson = some rom.entries :=
    Json.tableOf?_written_iff.2 fun e _ => Entry.ofJson?_toJson e.2
  rw [ofJson?, hread]
  rfl

end Rom

/-! ### Programs -/

/-- Every label points at a position that is a word. -/
def InitialTables.WordSized (t : InitialTables) : Prop :=
  ∀ e ∈ t.labels.entries, e.2 < UInt64.size

instance (t : InitialTables) : Decidable t.WordSized :=
  inferInstanceAs (Decidable (∀ e ∈ t.labels.entries, e.2 < UInt64.size))

/-- The positions a program names, as labels and as branch targets, are words. -/
structure Program.WordSized (p : Program) : Prop where
  tables : p.tables.WordSized
  instructions : ∀ i ∈ p.instructions, i.WordSized

instance (p : Program) : Decidable p.WordSized :=
  decidable_of_iff (p.tables.WordSized ∧ ∀ i ∈ p.instructions, i.WordSized)
    ⟨fun h => ⟨h.1, h.2⟩, fun h => ⟨h.tables, h.instructions⟩⟩

theorem InitialTables.ofJson?_toJson_iff {t : InitialTables} :
    InitialTables.ofJson? t.toJson = some t ↔ t.WordSized := by
  have hlabels : Json.tableOf? Json.index?
      (.obj (t.labels.entries.map fun e => (e.1, .nat e.2))) = some t.labels ↔ t.WordSized := by
    rw [Json.tableOf?_written_iff]
    exact forall_congr' fun e => imp_congr_right fun _ => Json.index?_nat_iff
  rw [← hlabels]
  -- All fields are there, and all but the labels are read back in any case.
  have hread : InitialTables.ofJson? t.toJson = (Json.tableOf? Json.index?
      (.obj (t.labels.entries.map fun e => (e.1, .nat e.2)))).bind fun labels =>
        some { t with labels } := by
    simp [ofJson?, toJson, Json.decodeRecord?, Json.record?, Record.optional?, Record.read?,
      Record.fits, Rom.ofJson?_toJson, Json.strings?_strs, Json.tableOf?_some,
      Json.tableOf?_objects]
  rw [hread, Option.bind_eq_some_iff]
  constructor
  · rintro ⟨labels, hlabels, ht⟩
    rwa [← Option.some.inj ht] at hlabels ⊢
  · intro h
    exact ⟨t.labels, h, rfl⟩

namespace Program

/-- A program is read back from its artifact exactly if the positions it names are words. -/
theorem ofArtifact_toArtifact_iff {p : Program} :
    ofArtifact p.toArtifact = .ok p ↔ p.WordSized := by
  have hinit : p.toArtifact.field? "init" = some p.tables.toJson := rfl
  have hlist : p.toArtifact.field? "instructions" =
      some (.arr (p.instructions.map Instruction.toJson)) := rfl
  have hinstructions : (p.instructions.map Instruction.toJson).mapM Instruction.ofJson =
      .ok p.instructions ↔ ∀ i ∈ p.instructions, i.WordSized := by
    rw [mapM_eq_ok, List.forall₂_map_left_iff, List.forall₂_same]
    exact forall_congr' fun i => imp_congr_right fun _ => by simp [Instruction.ofJson_eq_ok]
  constructor
  · intro h
    cases ht : InitialTables.ofJson? p.tables.toJson with
    | none =>
      simp only [ofArtifact, hinit, ht] at h
      cases h
    | some t =>
      simp only [ofArtifact, hinit, hlist, ht] at h
      obtain ⟨t', ht', h⟩ := bind_eq_ok.1 h
      cases ht'
      obtain ⟨is, his, h⟩ := bind_eq_ok.1 h
      obtain rfl : ⟨t, is⟩ = p := Except.ok.inj h
      exact ⟨InitialTables.ofJson?_toJson_iff.1 ht, hinstructions.1 his⟩
  · intro h
    have ht := InitialTables.ofJson?_toJson_iff.2 h.tables
    simp only [ofArtifact, hinit, hlist, ht, hinstructions.2 h.instructions]
    rfl

/-- Artifacts lose nothing: a program whose positions are words is what its artifact stands
for, whatever its tables hold.  And the instructions of an artifact have one written form
each, which nothing else shares. -/
theorem artifact_faithful :
    (∀ p : Program, ofArtifact p.toArtifact = .ok p ↔ p.WordSized) ∧
    ∀ (v : Json) (i : Instruction), Instruction.ofJson v = .ok i ↔ i.WordSized ∧ v = i.toJson := by
  constructor
  · intro p
    exact ofArtifact_toArtifact_iff
  · intro v i
    exact Instruction.ofJson_eq_ok

end Program

end Provisioning
