/-
What becomes of an identifier.

Identifiers move between the names they are tracked under.  `Turns` lists all that a step can
do to what is tracked under a name: it is forgotten because the object is missing, replaced by
that of a new object, dropped because the deletion of its object is confirmed, put aside, or
received from a name that puts it aside.  Everything else leaves it as it was.

Only the routines of a resource turn what is tracked under its name or the name where it puts
things aside, and what they may do when is fixed by the word that they go on with.
-/
import Provisioning.Proofs.Run.Course

namespace Provisioning

theorem Memory.remoteId_eq_some_iff {m : Memory} {name : String} {id : Json} :
    m.remoteId name = some id ↔ m.remoteIds.get? name = some id ∧ id ≠ .null := by
  have hnull : (!id.isNull) = true ↔ id ≠ .null := by cases id <;> simp [Json.isNull]
  rw [← hnull]
  exact Option.filter_eq_some_iff

theorem Memory.remoteId_of_get? {m : Memory} {name : String} {id : Json} (hid : id ≠ .null)
    (h : m.remoteIds.get? name = some id) : m.remoteId name = some id :=
  remoteId_eq_some_iff.2 ⟨h, hid⟩

theorem Memory.get?_of_remoteId {m : Memory} {name : String} {id : Json}
    (h : m.remoteId name = some id) : m.remoteIds.get? name = some id ∧ id ≠ .null :=
  remoteId_eq_some_iff.1 h

namespace Compilation

variable {plan : Plan} {W : Type}

/-- What a step from a place does to the identifier that is tracked under a name. -/
inductive Turns (c : Compilation plan) (types : Registry W) (r r' : Run W) (name : String)
    (place : Place) : Prop
  | kept : r'.memory.remoteIds.get? name = r.memory.remoteIds.get? name →
    Turns c types r r' name place
  | forgotten {k : Nat} {ra : Resource × Action} {before rest : List Instruction} {K : Known} :
    place = .routine k ra .missingCreate before (.memwrite .null :: rest) K →
    c.InRoutine k ra .missingCreate before (.memwrite .null :: rest) K r.memory →
    K.records = ra.1.preceding plan.createMissing .missingCreate → ra.1.name = name →
    r'.memory.remoteIds.get? name = none → Turns c types r r' name place
  | created {k : Nat} {ra : Resource × Action} {routine : Routine}
    {before rest : List Instruction} {K : Known} {s : Staged W} {properties : Properties}
    {id : Option Json} :
    place = .routine k ra routine before (.resource s.op :: rest) K →
    c.Faces types k ra routine before rest K s r.memory → s.op = .create → s.name = name →
    (s.kind.schema.needsRemoteId = true → r.memory.remoteId name = none ∧ id ≠ none) →
    Run.exchanges c.program types r = [⟨s.typeId, none, .create properties, .ok id⟩] →
    r'.memory.remoteIds.get? name = some (id.getD .null) → Turns c types r r' name place
  | deleted {k : Nat} {ra : Resource × Action} {routine : Routine}
    {before rest : List Instruction} {K : Known} {s : Staged W} :
    place = .routine k ra routine before (.resource s.op :: rest) K →
    c.Faces types k ra routine before rest K s r.memory → s.op = .checkDelete → s.name = name →
    Run.exchanges c.program types r =
      [⟨s.typeId, r.memory.remoteId name, .deleteComplete, .ok true⟩] →
    r'.memory.remoteIds.get? name = none → Turns c types r r' name place
  | putAside {k : Nat} {ra : Resource × Action} {routine : Routine}
    {before rest : List Instruction} {K : Known} {s : Staged W} :
    place = .routine k ra routine before (.resource s.op :: rest) K →
    c.Faces types k ra routine before rest K s r.memory → s.op = .markDeletable →
    s.name = name → r.memory.remoteId (deletable name) = none →
    r'.memory.remoteIds.get? name = none →
    r'.memory.remoteIds.get? (deletable name) =
      some ((r.memory.remoteIds.get? name).getD .null) → Turns c types r r' name place
  | received {k : Nat} {ra : Resource × Action} {routine : Routine}
    {before rest : List Instruction} {K : Known} {s : Staged W} :
    place = .routine k ra routine before (.resource s.op :: rest) K →
    c.Faces types k ra routine before rest K s r.memory → s.op = .markDeletable →
    deletable s.name = name → r.memory.remoteId name = none →
    r'.memory.remoteIds.get? name = some ((r.memory.remoteIds.get? s.name).getD .null) →
    Turns c types r r' name place

variable {c : Compilation plan} {types : Registry W} {r r' : Run W} {place place' : Place}

/-- What an operation does to an identifier. -/
theorem turns_of_performed {k : Nat} {ra : Resource × Action} {routine : Routine}
    {before rest : List Instruction} {K : Known} {s : Staged W} {m : Memory} (name : String)
    (hfaces : c.Faces types k ra routine before rest K s r.memory)
    (h : s.Performed c.program.tables.rom r.memory r.world m r'.world
      (Run.exchanges c.program types r))
    (hmemory : r'.memory = { m with programCounter := r.memory.programCounter + 1 }) :
    c.Turns types r r' name (.routine k ra routine before (.resource s.op :: rest) K) := by
  have htable : r'.memory.remoteIds = m.remoteIds := by rw [hmemory]
  have hkept : m.remoteIds = r.memory.remoteIds →
      c.Turns types r r' name (.routine k ra routine before (.resource s.op :: rest) K) := by
    intro hids
    exact .kept (by rw [htable, hids])
  generalize hexchanges : Run.exchanges c.program types r = es at h
  generalize r'.world = w' at h
  cases h with
  | create hop hproperties hfree hprovider hask =>
    by_cases hname : s.name = name
    · subst hname
      exact .created rfl hfaces hop rfl hfree hexchanges
        (by rw [htable, Table.get?_insert, if_pos rfl])
    · exact .kept (by rw [htable, Table.get?_insert, if_neg hname])
  | checkDelete hop hprovider hask =>
    by_cases hname : s.name = name
    · subst hname
      exact .deleted rfl hfaces hop rfl hexchanges
        (by rw [htable]; exact (Table.get?_erase _ _ _).trans (if_pos rfl))
    · exact .kept (by rw [htable]; exact (Table.get?_erase _ _ _).trans (if_neg hname))
  | @markDeletable id hop hfree hid =>
    have hget : ∀ name, r'.memory.remoteIds.get? name = if deletable s.name = name then some id
        else if s.name = name then none else r.memory.remoteIds.get? name := by
      intro name
      rw [htable]
      show ((r.memory.remoteIds.erase s.name).insert (deletable s.name) _).get? name = _
      rw [Table.get?_insert, Table.get?_erase]
    by_cases haside : deletable s.name = name
    · subst haside
      exact .received rfl hfaces hop rfl hfree (by rw [hget, if_pos rfl, hid])
    · by_cases hname : s.name = name
      · subst hname
        exact .putAside rfl hfaces hop rfl hfree (by rw [hget, if_neg haside, if_pos rfl])
          (by rw [hget, if_pos rfl, hid])
      · exact .kept (by rw [hget, if_neg haside, if_neg hname])
  | read | readOutputs | update | updateRead | delete | checkChange | checkExist | presume | filter
  | rescmp =>
    exact hkept rfl

/-- **What a step does to the identifier that is tracked under a name.** -/
theorem Advances.turns (h : c.Advances types r r' place place') (hplace : place ≠ .start)
    (name : String) : c.Turns types r r' name place := by
  cases h.effect with
  | init => exact absurd rfl hplace
  | quiet _ _ htables => exact .kept (by rw [htables.remoteIds])
  | @forget k ra routine before rest K hroutine hmissing hpreceding _ hids =>
    subst hmissing
    by_cases hname : ra.1.name = name
    · exact .forgotten rfl hroutine hpreceding hname
        (by rw [hids, Table.get?_erase, if_pos hname])
    · exact .kept (by rw [hids, Table.get?_erase, if_neg hname])
  | settle _ _ hids => exact .kept (by rw [hids])
  | did hfaces _ hperformed _ hmemory => exact turns_of_performed name hfaces hperformed hmemory
  | wait _ _ hmemory => exact .kept (by rw [hmemory])

end Compilation

end Provisioning
