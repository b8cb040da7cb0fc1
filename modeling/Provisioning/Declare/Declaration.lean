/-
Declarations.

A declaration is the ordered list of the resources that are wanted.  It is built one
resource at a time: the type has to be known, the name free, every bound field settable
and its value resolvable, and the type's deletion possible.  These facts stay with the
declaration, so whoever takes one may rely on them.
-/
import Provisioning.Declare.Expr
import Provisioning.Dependencies

namespace Provisioning

/-- What holds of a declared resource. -/
structure Resource.Declared (catalog : Catalog) (name : String) (r : Resource) : Prop where
  /-- It goes by its own name. -/
  name_eq : r.name = name
  /-- Its shape is that of its type. -/
  typed : catalog.get? r.typeId = some r.schema
  /-- Its deletion can be carried out. -/
  orderly : r.schema.orderly = true
  /-- Only settable fields are bound. -/
  settable : ∀ f ∈ r.properties.keys, r.schema.settable f = true

/-- The resources that are wanted, in order. -/
structure Declaration where
  /-- The types that may be used. -/
  catalog : Catalog
  /-- The resources by name. -/
  resources : Table Resource
  /-- Each was declared properly. -/
  declared : ∀ e ∈ resources.entries, e.2.Declared catalog e.1

/-- Binds fields one after the other; a field bound again takes the new value. -/
def bindFields (name : String) (schema : Schema) :
    Entries Expr → List (String × Raw) → Except PlanError (Entries Expr)
  | bound, [] => .ok bound
  | bound, (field, raw) :: rest =>
    if schema.settable field then
      match raw.resolve with
      | .ok e => bindFields name schema (bound.set field e) rest
      | .error err => .error err
    else .error (.unknownField name field)

theorem settable_bindFields {name : String} {schema : Schema} {fields : List (String × Raw)}
    {bound result : Entries Expr} (h : bindFields name schema bound fields = .ok result)
    (hb : ∀ f ∈ bound.keys, schema.settable f = true) :
    ∀ f ∈ result.keys, schema.settable f = true := by
  induction fields generalizing bound with
  | nil =>
    obtain rfl : bound = result := by simpa [bindFields] using h
    exact hb
  | cons e rest ih =>
    obtain ⟨field, raw⟩ := e
    rw [bindFields] at h
    split at h
    · next hs =>
      split at h
      · refine ih h fun f hf => ?_
        rw [Entries.keys_set] at hf
        split at hf
        · exact hb f hf
        · rcases List.mem_append.1 hf with hf | hf
          · exact hb f hf
          · obtain rfl : f = field := by simpa using hf
            exact hs
      · cases h
    · cases h

namespace Declaration

/-- Nothing is wanted yet. -/
def empty (catalog : Catalog) : Declaration := ⟨catalog, Table.empty, by simp [Table.empty]⟩

/-- The resource of that name. -/
def get? (d : Declaration) (name : String) : Option Resource := d.resources.get? name

/-- The resource that a new declaration would add. -/
def build (d : Declaration) (typeId name : String) (fields : List (String × Raw)) :
    Except PlanError Resource :=
  match d.catalog.get? typeId with
  | none => .error (.unknownType typeId)
  | some schema =>
    if d.resources.contains name then .error (.duplicateName name)
    else
      match bindFields name schema [] fields with
      | .error err => .error err
      | .ok properties => Resource.make name typeId schema properties

theorem declared_of_build {d : Declaration} {typeId name : String} {fields : List (String × Raw)}
    {r : Resource} (h : d.build typeId name fields = .ok r) : r.Declared d.catalog name := by
  unfold build at h
  split at h
  · cases h
  · next schema hs =>
    split at h
    · cases h
    · split at h
      · cases h
      · next properties hp =>
        unfold Resource.make at h
        split at h
        · next ho =>
          cases h
          exact ⟨rfl, hs, ho, settable_bindFields hp (by simp [Entries.keys])⟩
        · cases h

/-- Adds a resource of a type, with fields bound in order. -/
def add (d : Declaration) (typeId name : String) (fields : List (String × Raw)) :
    Except PlanError (Declaration × Resource) :=
  match h : d.build typeId name fields with
  | .error err => .error err
  | .ok r =>
    .ok (⟨d.catalog, d.resources.insert name r, fun _ he => by
      rcases Entries.mem_set he with he | rfl
      · exact d.declared _ he
      · exact declared_of_build h⟩, r)

/-- Who waits for whom among the declared resources. -/
def dependencies (d : Declaration) : Dependencies :=
  ⟨d.resources.mapValues fun _ r => r.waits⟩

end Declaration

end Provisioning
