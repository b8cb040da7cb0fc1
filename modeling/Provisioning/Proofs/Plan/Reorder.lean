/-
The order in which resources are listed.

Two plans that list the same resources and the same tracked names in different orders have
different levels, drivers and addresses.  What does not depend on the order is what is planned
for each resource, and what is stored at each address of the tables: the table of declared
values of the one is a permutation of that of the other, so all fields are read the same.
-/
import Provisioning.Proofs.Plan.Compilation
import Provisioning.Proofs.Rom

namespace Provisioning

/-- The plans are the same up to the order in which things are listed. -/
structure Plan.Reorders (plan plan' : Plan) : Prop where
  catalog : ∀ t, plan'.declaration.catalog.get? t = plan.declaration.catalog.get? t
  createMissing : plan'.createMissing = plan.createMissing
  resources : plan.declaration.resources.entries.Perm plan'.declaration.resources.entries
  prior : plan.prior.entries.Perm plan'.prior.entries

/-- No name is one under which things are put aside. -/
structure Plan.Unmarked (plan : Plan) : Prop where
  prior : ∀ name, deletable name ∉ plan.prior.keys
  resources : ∀ name, deletable name ∉ plan.declaration.resources.keys

/-- A name without the mark is the name itself. -/
theorem undeletable_eq_self {name : String} (h : ∀ rest, name ≠ deletable rest) :
    undeletable name = name := by
  unfold undeletable
  split
  · next rest hrest =>
    exact absurd (String.eq_append_of_dropPrefix?_string_eq_some hrest) (h rest.toString)
  · rfl

/-- Reading goes by addresses, so the order of the table does not matter. -/
theorem Rom.resolveWithin_perm {rom rom' : Rom}
    (h : rom.entries.entries.Perm rom'.entries.entries) (output : OutputRef → Except Fault Json)
    (steps : Nat) : rom'.resolveWithin output steps = rom.resolveWithin output steps := by
  have hget : ∀ a, rom'.get a = rom.get a := by
    intro a
    have hsame : rom'.entries.get? a = rom.entries.get? a :=
      (Entries.get?_perm rom.entries.nodup h a).symm
    rw [get, get, hsame]
  induction steps with
  | zero => rfl
  | succ steps ih =>
    funext a
    rw [resolveWithin, resolveWithin, hget, ih]

theorem Rom.resolve_perm {rom rom' : Rom} (h : rom.entries.entries.Perm rom'.entries.entries)
    (output : OutputRef → Except Fault Json) (a : String) :
    rom'.resolve output a = rom.resolve output a := by
  have hsize : rom'.size = rom.size := h.length_eq.symm
  rw [resolve, resolve, hsize, resolveWithin_perm h]

namespace Plan.Reorders

variable {plan plan' : Plan}

theorem symm (h : plan.Reorders plan') : plan'.Reorders plan :=
  ⟨fun t => (h.catalog t).symm, h.createMissing.symm, h.resources.symm, h.prior.symm⟩

theorem get?_resources (h : plan.Reorders plan') (name : String) :
    plan'.declaration.resources.get? name = plan.declaration.resources.get? name :=
  (Entries.get?_perm plan.declaration.resources.nodup h.resources name).symm

theorem get?_prior (h : plan.Reorders plan') (name : String) :
    plan'.prior.get? name = plan.prior.get? name :=
  (Entries.get?_perm plan.prior.nodup h.prior name).symm

theorem mem_catalog (h : plan.Reorders plan') {t : String}
    (ht : t ∈ plan'.declaration.catalog.keys) : t ∈ plan.declaration.catalog.keys := by
  have hcontains : plan.declaration.catalog.contains t = plan'.declaration.catalog.contains t :=
    congrArg Option.isSome (h.catalog t).symm
  exact Table.contains_iff.1 (hcontains.trans (Table.contains_iff.2 ht))

theorem unmarked (h : plan.Reorders plan') (hunmarked : plan.Unmarked) : plan'.Unmarked where
  prior name hname := hunmarked.prior name ((h.prior.map Prod.fst).mem_iff.2 hname)
  resources name hname := hunmarked.resources name ((h.resources.map Prod.fst).mem_iff.2 hname)

/-- **The same is planned for each resource.** -/
theorem mem_actions (h : plan.Reorders plan') (c : Compilation plan) (c' : Compilation plan')
    {ra : Resource × Action} (hra : ra ∈ c.actions) : ra ∈ c'.actions := by
  have hdeclared : ∀ name, plan'.declaration.resources.contains name =
      plan.declaration.resources.contains name := fun name =>
    congrArg Option.isSome (h.get?_resources name)
  have htracked : ∀ name, plan'.prior.contains name = plan.prior.contains name := fun name =>
    congrArg Option.isSome (h.get?_prior name)
  rw [Compilation.eq_append_of_actions c.actions_eq] at hra
  rw [Compilation.eq_append_of_actions c'.actions_eq]
  rcases List.mem_append.1 hra with hra | hra
  · obtain ⟨e, he, rfl⟩ := List.mem_map.1 hra
    obtain ⟨hmem, hgone⟩ := List.mem_filter.1 he
    refine List.mem_append_left _
      (List.mem_map.2 ⟨e, List.mem_filter.2 ⟨h.prior.subset hmem, ?_⟩, ?_⟩)
    · rw [hdeclared]
      exact hgone
    · rw [Compilation.goneResource, Compilation.goneResource, h.catalog]
  · obtain ⟨e, he, rfl⟩ := List.mem_map.1 hra
    refine List.mem_append_right _ (List.mem_map.2 ⟨e, h.resources.subset he, ?_⟩)
    rw [Plan.declaredAction, Plan.declaredAction, htracked]

theorem mem_names (h : plan.Reorders plan') (c : Compilation plan) (c' : Compilation plan')
    {name : String} (hname : name ∈ c.names) : name ∈ c'.names := by
  obtain ⟨ra, hra, rfl⟩ := List.mem_map.1 hname
  exact Compilation.mem_names_of_mem (h.mem_actions c c' hra)

/-- **Fields are read the same.** -/
theorem resolve_eq (h : plan.Reorders plan') (c : Compilation plan) (c' : Compilation plan')
    (output : OutputRef → Except Fault Json) (a : String) :
    c'.program.tables.rom.resolve output a = c.program.tables.rom.resolve output a := by
  refine Rom.resolve_perm ?_ output a
  show c.rom.entries.entries.Perm c'.rom.entries.entries
  rw [rom_eq c.rom_eq, rom_eq c'.rom_eq]
  exact h.resources.flatMap_right _

/-- The same is tracked in the beginning. -/
theorem get?_remoteIds (h : plan.Reorders plan') (c : Compilation plan) (c' : Compilation plan')
    (name : String) :
    c'.program.tables.remoteIds.get? name = c.program.tables.remoteIds.get? name := by
  show (plan'.prior.mapValues fun _ t => t.remoteId).get? name =
    (plan.prior.mapValues fun _ t => t.remoteId).get? name
  rw [Table.get?_mapValues, Table.get?_mapValues, h.get?_prior]

end Plan.Reorders

namespace Compilation

variable {plan : Plan} {c : Compilation plan}

/-- What is planned is no name under which things are put aside. -/
theorem undeletable_of_planned (h : plan.Unmarked) {ra : Resource × Action} (hra : ra ∈ c.actions) :
    undeletable ra.1.name = ra.1.name := by
  refine undeletable_eq_self fun rest hrest => ?_
  rcases c.mem_names.1 (mem_names_of_mem hra) with hmem | hmem <;> rw [hrest] at hmem
  · exact h.prior rest hmem
  · exact h.resources rest hmem

end Compilation

end Provisioning
