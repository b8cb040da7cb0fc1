/-
What compilation stores can be read back.

An entry refers to the parts of a value by their addresses, and the address of a part is the
address of the whole with something behind it.  So references only lead to longer addresses,
and flattening stores whatever it refers to: the entries are `Closed`.  Storing never
replaces an entry, so a table built by storing one closed list after the other is closed.

In a closed table reading cannot fail by itself.  Every address that is reached is stored,
and with each step there are fewer stored addresses that are at least as long, so the steps
suffice.  What is left to go wrong is an output that is not there.
-/
import Mathlib.Data.List.Count
import Mathlib.Logic.Relation
import Provisioning.Plan.Compile
import Provisioning.Proofs.Fallible
import Provisioning.Proofs.Table

namespace Provisioning

namespace Rom

/-- The addresses an entry refers to. -/
def Entry.references : Entry → List String
  | .literal _ | .output _ => []
  | .array references => references
  | .hash references => references.values

/-- References lead to stored addresses that are longer. -/
def Closed (es : Entries Entry) : Prop :=
  ∀ e ∈ es, ∀ a ∈ e.2.references, a ∈ es.keys ∧ e.1.length < a.length

theorem closed_nil : Closed [] := nofun

theorem closed_append {es fs : Entries Entry} (hes : Closed es) (hfs : Closed fs) :
    Closed (es ++ fs) := by
  intro e he a ha
  unfold Entries.keys
  rw [List.map_append, List.mem_append]
  rcases List.mem_append.1 he with he | he
  · obtain ⟨hmem, hlt⟩ := hes e he a ha
    exact ⟨.inl hmem, hlt⟩
  · obtain ⟨hmem, hlt⟩ := hfs e he a ha
    exact ⟨.inr hmem, hlt⟩

/-! ### Flattening -/

theorem length_child (parent key : String) : parent.length < (child parent key).length := by
  unfold child
  rw [String.length_append, String.length_append]
  have hdot : ".".length = 1 := rfl
  omega

/-- The whole is stored after its parts, at its own address. -/
theorem exists_flatten (address : String) (e : Expr) :
    ∃ parts entry, flatten address e = parts ++ [(address, entry)] := by
  cases e with
  | literal v => exact ⟨[], _, rfl⟩
  | array items => exact ⟨_, _, rfl⟩
  | hash fields => exact ⟨_, _, rfl⟩
  | resource name typeId schema properties => exact ⟨_, _, rfl⟩
  | output o => exact ⟨[], _, rfl⟩

theorem mem_keys_flatten (address : String) (e : Expr) :
    address ∈ Entries.keys (flatten address e) := by
  obtain ⟨parts, entry, heq⟩ := exists_flatten address e
  rw [heq]
  simp [Entries.keys]

theorem mem_itemAddresses {address a : String} {i : Nat} {items : List Expr}
    (h : a ∈ itemAddresses address i items) :
    a ∈ Entries.keys (flattenItems address i items) ∧ address.length < a.length := by
  induction items generalizing i with
  | nil => cases h
  | cons e rest ih =>
    rw [flattenItems]
    unfold Entries.keys
    rw [List.map_append, List.mem_append]
    rcases List.mem_cons.1 h with rfl | h
    · exact ⟨.inl (mem_keys_flatten _ e), length_child _ _⟩
    · obtain ⟨hmem, hlt⟩ := ih h
      exact ⟨.inr hmem, hlt⟩

theorem mem_keys_flattenFields {address k : String} {e : Expr} {fields : List (String × Expr)}
    (h : (k, e) ∈ fields) : child address k ∈ Entries.keys (flattenFields address fields) := by
  induction fields with
  | nil => cases h
  | cons f rest ih =>
    rw [flattenFields]
    unfold Entries.keys
    rw [List.map_append, List.mem_append]
    rcases List.mem_cons.1 h with rfl | h
    · exact .inl (mem_keys_flatten _ e)
    · exact .inr (ih h)

theorem mem_fieldAddresses {address a : String} {fields : List (String × Expr)}
    (h : a ∈ (fieldAddresses address fields).values) :
    a ∈ Entries.keys (flattenFields address fields) ∧ address.length < a.length := by
  obtain ⟨⟨k, a⟩, he, rfl⟩ := List.mem_map.1 h
  obtain ⟨⟨k, e⟩, hmem, heq⟩ := List.mem_map.1 (Entries.mem_of_mem_ofList he)
  cases heq
  exact ⟨mem_keys_flattenFields hmem, length_child _ _⟩

/-- A whole that refers to parts just stored keeps them closed. -/
theorem closed_whole {parts : Entries Entry} (h : Closed parts) {address : String}
    {entry : Entry}
    (href : ∀ a ∈ entry.references, a ∈ parts.keys ∧ address.length < a.length) :
    Closed (parts ++ [(address, entry)]) := by
  intro e he a ha
  unfold Entries.keys
  rw [List.map_append, List.mem_append]
  rcases List.mem_append.1 he with he | he
  · obtain ⟨hmem, hlt⟩ := h e he a ha
    exact ⟨.inl hmem, hlt⟩
  · obtain rfl := List.mem_singleton.1 he
    obtain ⟨hmem, hlt⟩ := href a ha
    exact ⟨.inl hmem, hlt⟩

mutual

theorem closed_flatten (address : String) : (e : Expr) → Closed (flatten address e)
  | .literal _ => closed_whole closed_nil nofun
  | .array items =>
    closed_whole (closed_flattenItems address 0 items) fun _ ha => mem_itemAddresses ha
  | .hash fields =>
    closed_whole (closed_flattenFields address fields) fun _ ha => mem_fieldAddresses ha
  | .resource _ _ _ properties =>
    closed_whole (closed_flattenFields address properties) fun _ ha => mem_fieldAddresses ha
  | .output _ => closed_whole closed_nil nofun

theorem closed_flattenItems (address : String) :
    (i : Nat) → (items : List Expr) → Closed (flattenItems address i items)
  | _, [] => closed_nil
  | i, e :: rest =>
    closed_append (closed_flatten _ e) (closed_flattenItems address (i + 1) rest)

theorem closed_flattenFields (address : String) :
    (fields : List (String × Expr)) → Closed (flattenFields address fields)
  | [] => closed_nil
  | (_, e) :: rest => closed_append (closed_flatten _ e) (closed_flattenFields address rest)

end

theorem closed_flat (address : String) (e : Expr) : Closed (flat address e) := by
  intro x hx a ha
  obtain ⟨hmem, hlt⟩ := closed_flatten address e x (Entries.mem_of_mem_ofList hx) a ha
  exact ⟨Entries.mem_keys_ofList.2 hmem, hlt⟩

/-- Even if a part has the address of the whole, it is the whole that stays. -/
theorem get?_flat_resource (address : String) (r : Resource) :
    (flat address r.toExpr).get? address =
      some (.hash (fieldAddresses address r.properties)) := by
  show (Entries.ofList (_ ++ [_])).get? address = _
  unfold Entries.ofList
  rw [List.foldl_append, List.foldl_cons, List.foldl_nil, Entries.get?_set, if_pos rfl]

/-! ### Storing -/

/-- Storing succeeds only without touching what is stored. -/
theorem store_eq {rom rom' : Rom} {l : List (String × Entry)} (h : rom.store l = (rom', none)) :
    rom'.entries.entries = rom.entries.entries ++ l := by
  induction l generalizing rom with
  | nil =>
    cases h
    exact (List.append_nil _).symm
  | cons e rest ih =>
    obtain ⟨address, entry⟩ := e
    rw [store] at h
    split at h
    · cases h
    · next hfree =>
      have hkeys : address ∉ rom.entries.entries.keys := fun hmem =>
        hfree (Table.contains_iff.2 hmem)
      rw [ih h]
      show rom.entries.entries.set address entry ++ rest = _
      rw [Entries.set_of_notMem hkeys, List.append_assoc]
      rfl

theorem add_eq_ok {rom rom' : Rom} {name : String} {e : Expr}
    (h : rom.add name e = (rom', .ok ())) :
    rom'.entries.entries = rom.entries.entries ++ flat name e := by
  unfold add at h
  split at h
  · next hstore =>
    cases h
    exact store_eq hstore
  · cases h

end Rom

theorem Plan.storeAll_eq {rom rom' : Rom} {rs : List (String × Resource)}
    (h : storeAll rom rs = .ok rom') :
    rom'.entries.entries =
      rom.entries.entries ++ rs.flatMap fun e => Rom.flat e.1 e.2.toExpr := by
  induction rs generalizing rom with
  | nil =>
    cases h
    exact (List.append_nil _).symm
  | cons e rest ih =>
    obtain ⟨name, r⟩ := e
    rw [storeAll] at h
    split at h
    · next hadd =>
      rw [ih h, Rom.add_eq_ok hadd, List.flatMap_cons, List.append_assoc]
    · cases h

/-- **The table of a plan holds the flattened resources one after the other.** -/
theorem Plan.rom_eq {plan : Plan} {rom : Rom} (h : plan.rom = .ok rom) :
    rom.entries.entries =
      plan.declaration.resources.entries.flatMap fun e => Rom.flat e.1 e.2.toExpr :=
  storeAll_eq h

theorem Plan.closed_rom {plan : Plan} {rom : Rom} (h : plan.rom = .ok rom) :
    Rom.Closed rom.entries.entries := by
  rw [rom_eq h]
  induction plan.declaration.resources.entries with
  | nil => exact Rom.closed_nil
  | cons e rest ih => exact Rom.closed_append (Rom.closed_flat _ _) ih

/-- Every declared resource is stored under its name, as the hash of its fields. -/
theorem Plan.get?_rom {plan : Plan} {rom : Rom} (h : plan.rom = .ok rom) {r : Resource}
    (hr : plan.declaration.resources.get? r.name = some r) :
    rom.entries.get? r.name = some (.hash (Rom.fieldAddresses r.name r.properties)) := by
  rw [Table.get?_eq_some_iff, rom_eq h]
  exact List.mem_flatMap.2 ⟨_, Table.get?_eq_some_iff.1 hr,
    Entries.mem_of_get? (Rom.get?_flat_resource r.name r)⟩

/-! ### Reading -/

namespace Rom

/-- How many stored addresses are at least as long. -/
def room (rom : Rom) (address : String) : Nat :=
  rom.entries.entries.countP fun e => address.length ≤ e.1.length

theorem room_le_size (rom : Rom) (address : String) : rom.room address ≤ rom.size :=
  List.countP_le_length

/-- A step to a longer address leaves less room. -/
theorem room_lt {rom : Rom} {a b : String} (ha : a ∈ rom.entries.keys)
    (h : a.length < b.length) : rom.room b < rom.room a := by
  obtain ⟨e, he, rfl⟩ := List.mem_map.1 ha
  have hb : rom.room b =
      (rom.entries.entries.filter fun x => decide (e.1.length ≤ x.1.length)).countP
        fun x => b.length ≤ x.1.length := by
    rw [List.countP_filter]
    refine List.countP_congr ?_
    intro x _
    simp only [decide_eq_true_eq, Bool.and_eq_true]
    omega
  rw [hb, room, List.countP_eq_length_filter (l := rom.entries.entries)]
  exact List.countP_lt_length_iff.2 ⟨e, List.mem_filter.2 ⟨he, by simp⟩, by simpa using h⟩

theorem get_of_mem {rom : Rom} {a : String} (h : a ∈ rom.entries.keys) :
    ∃ e, rom.get a = .ok e ∧ (a, e) ∈ rom.entries.entries := by
  obtain ⟨⟨a, e⟩, he, rfl⟩ := List.mem_map.1 h
  refine ⟨e, ?_, he⟩
  unfold get
  rw [Table.get?_eq_some_iff.2 he]

theorem get_eq_ok_iff {rom : Rom} {a : String} {x : Entry} :
    rom.get a = .ok x ↔ (a, x) ∈ rom.entries.entries := by
  rw [← Table.get?_eq_some_iff]
  unfold get
  cases rom.entries.get? a <;> simp

variable {output : OutputRef → Except Fault Json}

theorem resolveWithin_of_get {rom : Rom} {a : String} {e : Entry} {steps : Nat} :
    rom.get a = .ok e → rom.resolveWithin output (steps + 1) a =
      match e with
      | .literal v => .ok v
      | .array references => do
        return .arr (← references.mapM (rom.resolveWithin output steps))
      | .hash references => do
        return .obj (← references.entries.mapM fun e => do
          return (e.1, ← rom.resolveWithin output steps e.2))
      | .output o => output o := by
  intro h
  rw [resolveWithin, h]
  cases e <;> rfl

/-- What is stored at `a` refers to `b`. -/
def Refers (rom : Rom) (a b : String) : Prop :=
  ∃ e, rom.entries.get? a = some e ∧ b ∈ e.references

/-- Reading from `a` comes to the output `o`. -/
def Holds (rom : Rom) (a : String) (o : OutputRef) : Prop :=
  ∃ b, Relation.ReflTransGen rom.Refers a b ∧ rom.entries.get? b = some (.output o)

theorem Holds.head {rom : Rom} {a b : String} {o : OutputRef} (hrefers : rom.Refers a b)
    (h : rom.Holds b o) : rom.Holds a o := by
  obtain ⟨d, hreach, hget⟩ := h
  exact ⟨d, .head hrefers hreach, hget⟩

/-- **Reading a stored address of a closed table fails only with an output it comes to.** -/
theorem output_of_resolveWithin {rom : Rom} (hclosed : Closed rom.entries.entries)
    {steps : Nat} {a : String} (ha : a ∈ rom.entries.keys) (hsteps : rom.room a ≤ steps)
    {f : Fault} (h : rom.resolveWithin output steps a = .error f) :
    ∃ o, rom.Holds a o ∧ output o = .error f := by
  induction steps generalizing a f with
  | zero =>
    have hlt : 0 < rom.room a := by
      obtain ⟨e, he, rfl⟩ := List.mem_map.1 ha
      exact List.countP_pos_iff.2 ⟨e, he, by simp⟩
    omega
  | succ steps ih =>
    obtain ⟨e, hget, he⟩ := get_of_mem ha
    have hstored : rom.entries.get? a = some e := Table.get?_eq_some_iff.2 he
    have hpart : ∀ b ∈ e.references, ∀ g, rom.resolveWithin output steps b = .error g →
        ∃ o, rom.Holds a o ∧ output o = .error g := by
      intro b hb g hg
      obtain ⟨hmem, hlt⟩ := hclosed _ he b hb
      have hroom := room_lt ha hlt
      obtain ⟨o, hholds, ho⟩ := ih hmem (by omega) hg
      exact ⟨o, hholds.head ⟨e, hstored, hb⟩, ho⟩
    rw [resolveWithin_of_get hget] at h
    cases e with
    | literal v => cases h
    | array references =>
      rcases bind_eq_error.1 h with h | ⟨_, -, h⟩
      · obtain ⟨b, hb, hg⟩ := error_of_mapM h
        exact hpart b hb f hg
      · cases h
    | hash references =>
      rcases bind_eq_error.1 h with h | ⟨_, -, h⟩
      · obtain ⟨x, hx, hg⟩ := error_of_mapM h
        rcases bind_eq_error.1 hg with hg | ⟨_, -, hg⟩
        · exact hpart x.2 (List.mem_map.2 ⟨x, hx, rfl⟩) f hg
        · cases hg
      · cases h
    | output o => exact ⟨o, ⟨a, .refl, hstored⟩, h⟩

/-- What is read depends on no outputs but those it comes to. -/
theorem resolveWithin_congr {rom : Rom} {output' : OutputRef → Except Fault Json} {steps : Nat}
    {a : String} (h : ∀ o, rom.Holds a o → output o = output' o) :
    rom.resolveWithin output steps a = rom.resolveWithin output' steps a := by
  induction steps generalizing a with
  | zero => rfl
  | succ steps ih =>
    cases hget : rom.get a with
    | error f =>
      rw [resolveWithin, resolveWithin, hget]
      simp only [bind, Except.bind]
    | ok e =>
      have hstored : rom.entries.get? a = some e := by
        unfold get at hget
        split at hget
        · next hsome => rw [hsome, Except.ok.inj hget]
        · cases hget
      have hpart : ∀ b ∈ e.references,
          rom.resolveWithin output steps b = rom.resolveWithin output' steps b := by
        intro b hb
        exact ih fun o hholds => h o (hholds.head ⟨e, hstored, hb⟩)
      rw [resolveWithin_of_get hget, resolveWithin_of_get hget]
      cases e with
      | literal v => rfl
      | array references =>
        have hitems : references.mapM (rom.resolveWithin output steps) =
            references.mapM (rom.resolveWithin output' steps) := mapM_congr hpart
        simp only [hitems]
      | hash references =>
        have hfield : ∀ x ∈ references.entries,
            (do return (x.1, ← rom.resolveWithin output steps x.2) : Except Fault _) =
              (do return (x.1, ← rom.resolveWithin output' steps x.2)) := by
          intro x hx
          rw [hpart x.2 (List.mem_map.2 ⟨x, hx, rfl⟩)]
        have hfields := mapM_congr hfield
        simp only [hfields]
      | output o => exact h o ⟨a, .refl, hstored⟩

theorem resolve_congr {rom : Rom} {output' : OutputRef → Except Fault Json} {a : String}
    (h : ∀ o, rom.Holds a o → output o = output' o) :
    rom.resolve output a = rom.resolve output' a :=
  resolveWithin_congr h

/-- What is stored as a hash is read as an object. -/
theorem obj_of_resolve {rom : Rom} {a : String} {references : Table String}
    (ha : rom.entries.get? a = some (.hash references)) {v : Json}
    (h : rom.resolve output a = .ok v) : ∃ fields, v = .obj fields := by
  have hget : rom.get a = .ok (.hash references) := by
    unfold get
    rw [ha]
  unfold resolve at h
  rw [resolveWithin_of_get hget] at h
  obtain ⟨fields, -, h⟩ := bind_eq_ok.1 h
  cases h
  exact ⟨fields, rfl⟩

end Rom

/-- **A declared resource is read back as an object, unless an output is missing.** -/
theorem Plan.resolve_declared {plan : Plan} {rom : Rom} (h : plan.rom = .ok rom) {r : Resource}
    (hr : plan.declaration.resources.get? r.name = some r)
    (output : OutputRef → Except Fault Json) :
    (∃ fields, rom.resolve output r.name = .ok (.obj fields)) ∨
      ∃ o f, rom.Holds r.name o ∧ output o = .error f ∧
        rom.resolve output r.name = .error f := by
  have hget := get?_rom h hr
  cases hv : rom.resolve output r.name with
  | ok v =>
    obtain ⟨fields, rfl⟩ := Rom.obj_of_resolve hget hv
    exact .inl ⟨fields, rfl⟩
  | error f =>
    have hroom := rom.room_le_size r.name
    obtain ⟨o, hholds, ho⟩ := Rom.output_of_resolveWithin (closed_rom h)
      (Table.mem_keys_of_get? hget) (by omega) hv
    exact .inr ⟨o, f, hholds, ho, rfl⟩

end Provisioning
