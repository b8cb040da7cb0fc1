/-
The parts of a compilation.

Compiling a plan computes the levels, the actions, the table of subroutines and the table of
declared values, and fails if any of them fails.  A `Compilation` holds the four results of
one that succeeded, and everything proved about a compiled program is proved about them.

Which subroutines are made follows from the actions alone: `pieces` lists them, each under
its key, in the order in which they are written into the table.  Only this list can tell
whether something was overwritten.  `Distinct` says that nothing was: no two pieces have one
key, and no two have one label.
-/
import Provisioning.Plan.Compile
import Provisioning.Proofs.Levels

namespace Provisioning

namespace Resource

/-- The subroutine of a routine. -/
def piece (r : Resource) (createMissing : Bool) (routine : Routine) : Subroutine :=
  ⟨r.name, routine, r.script createMissing routine⟩

variable {r : Resource} {createMissing : Bool}

theorem eq_script_of_code {routine : Routine} {inner : List Instruction}
    (h : r.code createMissing routine = .ok inner) : inner = r.script createMissing routine := by
  unfold code at h
  split at h
  · obtain ⟨_, -, h⟩ := bind_eq_ok.1 h
    exact (Except.ok.inj h).symm
  · exact (Except.ok.inj h).symm

theorem subroutine_eq_ok {routine : Routine} {s : Subroutine}
    (h : r.subroutine createMissing routine = .ok s) : s = r.piece createMissing routine := by
  obtain ⟨inner, hinner, rfl⟩ := map_eq_ok.1 h
  rw [eq_script_of_code hinner]
  rfl

/-- The keyed subroutines of a resource for its action. -/
def pieces (r : Resource) (action : Action) (createMissing : Bool) :
    List (String × Subroutine) :=
  (routines action createMissing).map fun e =>
    (subroutineKey r.name e.1, r.piece createMissing e.2)

theorem subroutines_eq_ok {action : Action} {l : List (String × Subroutine)}
    (h : r.subroutines action createMissing = .ok l) : l = r.pieces action createMissing := by
  refine eq_map_of_mapM h ?_
  rintro ⟨step, routine⟩ - b hb
  obtain ⟨s, hs, rfl⟩ := map_eq_ok.1 hb
  rw [subroutine_eq_ok hs]

end Resource

/-- The graph has exactly the tracked and the declared names. -/
theorem Plan.mem_nodes_dependencies (plan : Plan) {n : String} :
    n ∈ plan.dependencies.nodes ↔ n ∈ plan.prior.keys ∨ n ∈ plan.declaration.resources.keys := by
  have hnodes : n ∈ plan.dependencies.nodes ↔
      n ∈ plan.trackedDependencies.nodes ∨ n ∈ plan.declaration.dependencies.nodes :=
    Dependencies.mem_nodes_merge
  refine hnodes.trans (or_congr ?_ ?_)
  · exact iff_of_eq (congrArg (n ∈ ·) (Table.keys_mapValues _ _))
  · exact iff_of_eq (congrArg (n ∈ ·) (Table.keys_mapValues _ _))

/-- What the steps of a compilation gave, when all of them succeeded. -/
structure Compilation (plan : Plan) where
  levels : List (List String)
  actions : List (Resource × Action)
  table : Table Subroutine
  rom : Rom
  levels_eq : plan.levels = .ok levels
  actions_eq : plan.actions = .ok actions
  table_eq : Plan.subroutines plan.createMissing actions = .ok table
  rom_eq : plan.rom = .ok rom

namespace Compilation

variable {plan : Plan}

/-- The driver and the subroutines. -/
def layout (c : Compilation plan) : Layout := ⟨Plan.driver c.levels c.table, c.table⟩

/-- The program. -/
def program (c : Compilation plan) : Program where
  tables := { rom := c.rom, remoteIds := plan.prior.mapValues fun _ t => t.remoteId,
              labels := c.layout.labels, outputs := Table.empty, deleted := [] }
  instructions := c.layout.instructions

theorem layout_eq (c : Compilation plan) : plan.layout = .ok c.layout := by
  unfold Plan.layout
  rw [c.levels_eq, c.actions_eq]
  simp only [bind, Except.bind, c.table_eq]
  rfl

/-- **A plan compiles to a program exactly if the program is put together from the parts of
a compilation.** -/
theorem compile_eq_ok {p : Program} :
    plan.compile = .ok p ↔ ∃ c : Compilation plan, c.program = p := by
  constructor
  · intro h
    obtain ⟨l, hl, h⟩ := bind_eq_ok.1 h
    obtain ⟨rom, hrom, h⟩ := bind_eq_ok.1 h
    obtain ⟨levels, hlevels, hl⟩ := bind_eq_ok.1 hl
    obtain ⟨actions, hactions, hl⟩ := bind_eq_ok.1 hl
    obtain ⟨table, htable, hl⟩ := bind_eq_ok.1 hl
    cases hl
    cases h
    exact ⟨⟨levels, actions, table, rom, hlevels, hactions, htable, hrom⟩, rfl⟩
  · rintro ⟨c, rfl⟩
    unfold Plan.compile
    rw [c.layout_eq, c.rom_eq]
    rfl

/-! ### The subroutines -/

/-- All subroutines under their keys, in the order in which they are written. -/
def pieces (c : Compilation plan) : List (String × Subroutine) :=
  c.actions.flatMap fun e => e.1.pieces e.2 plan.createMissing

theorem pieces_eq {c : Compilation plan} {actions : List (Resource × Action)}
    (h : plan.actions = .ok actions) :
    c.pieces = actions.flatMap fun e => e.1.pieces e.2 plan.createMissing := by
  rw [pieces, Except.ok.inj (c.actions_eq.symm.trans h)]

theorem table_eq_ofList (c : Compilation plan) : c.table = Table.ofList c.pieces := by
  obtain ⟨lists, hlists, h⟩ := bind_eq_ok.1 c.table_eq
  obtain htable : Table.ofList lists.flatten = c.table := Except.ok.inj h
  have hl : lists = c.actions.map fun e => e.1.pieces e.2 plan.createMissing :=
    eq_map_of_mapM hlists fun e _ l hl => Resource.subroutines_eq_ok hl
  rw [← htable, pieces, List.flatMap_def, hl]

theorem mem_pieces {c : Compilation plan} {e : String × Subroutine} :
    e ∈ c.pieces ↔ ∃ ra ∈ c.actions, ∃ er ∈ Resource.routines ra.2 plan.createMissing,
      e = (subroutineKey ra.1.name er.1, ra.1.piece plan.createMissing er.2) := by
  simp [pieces, Resource.pieces, eq_comm]

/-- No two subroutines have one key, and no two have one label. -/
structure Distinct (c : Compilation plan) : Prop where
  keys : (c.pieces.map Prod.fst).Nodup
  labels : (c.pieces.map fun e => e.2.label).Nodup

theorem distinct_of_actions {c : Compilation plan} {actions : List (Resource × Action)}
    (h : plan.actions = .ok actions)
    (hkeys : ((actions.flatMap fun e => e.1.pieces e.2 plan.createMissing).map Prod.fst).Nodup)
    (hlabels :
      ((actions.flatMap fun e => e.1.pieces e.2 plan.createMissing).map fun e => e.2.label).Nodup) :
    c.Distinct := by
  rw [← pieces_eq h] at hkeys hlabels
  exact ⟨hkeys, hlabels⟩

theorem entries_of_nodup {c : Compilation plan} (h : (c.pieces.map Prod.fst).Nodup) :
    c.table.entries = c.pieces := by
  rw [table_eq_ofList]
  exact Entries.ofList_of_nodup h

theorem values_of_nodup {c : Compilation plan} (h : (c.pieces.map Prod.fst).Nodup) :
    c.table.values = c.pieces.map Prod.snd := by
  unfold Table.values
  rw [entries_of_nodup h]

theorem mem_pieces_of_mem_values {c : Compilation plan} {s : Subroutine}
    (h : s ∈ c.table.values) : ∃ key, (key, s) ∈ c.pieces := by
  obtain ⟨⟨key, s⟩, he, rfl⟩ := List.mem_map.1 h
  rw [table_eq_ofList] at he
  exact ⟨key, Entries.mem_of_mem_ofList he⟩

/-! ### The actions -/

/-- The resource as which a tracked object that is no longer declared is deleted. -/
def goneResource (plan : Plan) (e : String × Tracked) : Resource :=
  ⟨e.1, e.2.typeId, (plan.declaration.catalog.get? e.2.typeId).getD default, []⟩

theorem eq_goneResource {e : String × Tracked} {r : Resource}
    (h : (match plan.declaration.catalog.get? e.2.typeId with
      | none => .error (.unknownType e.2.typeId)
      | some schema => Resource.make e.1 e.2.typeId schema [] :
        Except PlanError Resource) = .ok r) :
    r = goneResource plan e ∧
      plan.declaration.catalog.get? r.typeId = some r.schema := by
  split at h
  · cases h
  · next schema hschema =>
    unfold Resource.make at h
    split at h
    · cases h
      exact ⟨by rw [goneResource, hschema]; rfl, hschema⟩
    · cases h

theorem eq_append_of_actions {actions : List (Resource × Action)}
    (hactions : plan.actions = .ok actions) :
    actions =
      (plan.prior.entries.filter fun e => !plan.declaration.resources.contains e.1).map
          (fun e => (goneResource plan e, Action.delete)) ++
        plan.declaration.resources.entries.map fun e => (e.2, plan.declaredAction e.1) := by
  obtain ⟨gone, hgone, h⟩ := bind_eq_ok.1 hactions
  rw [← Except.ok.inj h, eq_map_of_mapM hgone fun e _ r hr => (eq_goneResource hr).1,
    List.map_map]
  rfl

/-- What is planned for a resource: a tracked one that is no longer declared is deleted, and
a declared one is created or updated. -/
structure Planned (plan : Plan) (r : Resource) (action : Action) : Prop where
  /-- Its shape is that of its type. -/
  typed : plan.declaration.catalog.get? r.typeId = some r.schema
  /-- What is not deleted is declared. -/
  declared : action ≠ .delete → plan.declaration.resources.get? r.name = some r
  /-- What is deleted is not declared. -/
  undeclared : action = .delete → plan.declaration.resources.get? r.name = none
  /-- Only what is created is not tracked. -/
  tracked : plan.prior.contains r.name = true ↔ action ≠ .create

theorem planned_of_actions {actions : List (Resource × Action)}
    (hactions : plan.actions = .ok actions) {ra : Resource × Action} (h : ra ∈ actions) :
    Planned plan ra.1 ra.2 := by
  rw [eq_append_of_actions hactions, List.mem_append] at h
  rcases h with h | h
  · obtain ⟨e, he, rfl⟩ := List.mem_map.1 h
    obtain ⟨hmem, hfree⟩ := List.mem_filter.1 he
    obtain ⟨gone, hgone, -⟩ := bind_eq_ok.1 hactions
    obtain ⟨r, -, hr⟩ := ok_of_mapM hgone he
    obtain ⟨rfl, htyped⟩ := eq_goneResource hr
    refine ⟨htyped, fun hne => absurd rfl hne, fun _ => ?_, ?_⟩
    · rw [Bool.not_eq_true', ← Bool.not_eq_true, Table.contains_iff] at hfree
      exact Entries.get?_eq_none_iff.2 hfree
    · exact ⟨nofun, fun _ => Table.contains_iff.2 (List.mem_map.2 ⟨e, hmem, rfl⟩)⟩
  · obtain ⟨e, he, rfl⟩ := List.mem_map.1 h
    have hd := plan.declaration.declared e he
    have hget : plan.declaration.resources.get? e.2.name = some e.2 := by
      rw [hd.name_eq]
      exact Table.get?_eq_some_iff.2 he
    have haction : plan.declaredAction e.1 ≠ .delete := by
      unfold Plan.declaredAction
      split <;> nofun
    refine ⟨hd.typed, fun _ => hget, fun hdel => absurd hdel haction, ?_⟩
    rw [hd.name_eq]
    unfold Plan.declaredAction
    by_cases hp : plan.prior.contains e.1 = true <;> simp [hp]

theorem planned (c : Compilation plan) {ra : Resource × Action} (h : ra ∈ c.actions) :
    Planned plan ra.1 ra.2 :=
  planned_of_actions c.actions_eq h

/-- The names that something is planned for. -/
def names (c : Compilation plan) : List String := c.actions.map fun ra => ra.1.name

theorem names_eq_append (c : Compilation plan) :
    c.names = (plan.prior.keys.filter fun n => !plan.declaration.resources.contains n) ++
      plan.declaration.resources.keys := by
  unfold names Table.keys Entries.keys
  rw [eq_append_of_actions c.actions_eq, List.map_append, List.map_map, List.map_map, List.filter_map]
  congr 1
  refine List.map_congr_left ?_
  intro e he
  exact (plan.declaration.declared e he).name_eq

/-- Something is planned for each name once. -/
theorem nodup_names (c : Compilation plan) : c.names.Nodup := by
  rw [names_eq_append, List.nodup_append]
  refine ⟨plan.prior.nodup.filter _, plan.declaration.resources.nodup, ?_⟩
  rintro n hgone _ hdecl rfl
  have hfree := (List.mem_filter.1 hgone).2
  rw [Bool.not_eq_true', ← Bool.not_eq_true, Table.contains_iff] at hfree
  exact hfree hdecl

/-- Something is planned for exactly the declared and the tracked names. -/
theorem mem_names (c : Compilation plan) {n : String} :
    n ∈ c.names ↔ n ∈ plan.prior.keys ∨ n ∈ plan.declaration.resources.keys := by
  rw [names_eq_append, List.mem_append, List.mem_filter, Bool.not_eq_true',
    ← Bool.not_eq_true, Table.contains_iff]
  by_cases hd : n ∈ plan.declaration.resources.keys <;> simp [hd]

theorem mem_names_of_mem {c : Compilation plan} {ra : Resource × Action} (h : ra ∈ c.actions) :
    ra.1.name ∈ c.names :=
  List.mem_map.2 ⟨ra, h, rfl⟩

/-- The plan for a resource is found by its name. -/
theorem eq_of_name_eq {c : Compilation plan} {ra rb : Resource × Action} (ha : ra ∈ c.actions)
    (hb : rb ∈ c.actions) (h : ra.1.name = rb.1.name) : ra = rb :=
  List.inj_on_of_nodup_map c.nodup_names ha hb h

/-- What is declared is created or updated. -/
theorem exists_declared (c : Compilation plan) {name : String} {r : Resource}
    (h : plan.declaration.resources.get? name = some r) :
    ∃ action, (r, action) ∈ c.actions ∧ r.name = name ∧ action ≠ .delete := by
  obtain ⟨⟨r', action⟩, hra, rfl⟩ :=
    List.mem_map.1 (c.mem_names.2 (.inr (Table.mem_keys_of_get? h)))
  have haction : action ≠ .delete := by
    rintro rfl
    cases h.symm.trans ((c.planned hra).undeclared rfl)
  obtain rfl : r' = r := Option.some.inj (((c.planned hra).declared haction).symm.trans h)
  exact ⟨action, hra, rfl, haction⟩

/-- The levels hold exactly the names that something is planned for. -/
theorem levels_perm_names (c : Compilation plan) : c.levels.flatten.Perm c.names := by
  refine (Dependencies.levels_perm c.levels_eq).trans ?_
  refine (List.perm_ext_iff_of_nodup plan.dependencies.edges.nodup c.nodup_names).2 ?_
  intro n
  rw [c.mem_names]
  exact plan.mem_nodes_dependencies

/-! ### Pieces of different resources -/

theorem nodup_routines (action : Action) (createMissing : Bool) :
    ((Resource.routines action createMissing).map Prod.snd).Nodup := by
  cases action <;> cases createMissing <;> decide

/-- No routine is made twice for one resource. -/
theorem nodup_owners (c : Compilation plan) :
    (c.pieces.map fun e => (e.2.owner, e.2.routine)).Nodup := by
  have hmap : (c.pieces.map fun e => (e.2.owner, e.2.routine)) =
      c.actions.flatMap fun ra =>
        ((Resource.routines ra.2 plan.createMissing).map Prod.snd).map (ra.1.name, ·) := by
    simp [pieces, Resource.pieces, Resource.piece, List.map_flatMap, Function.comp_def]
  rw [hmap, List.nodup_flatMap]
  refine ⟨fun ra _ => (nodup_routines _ _).map fun _ _ h => (Prod.mk.inj h).2, ?_⟩
  refine (List.pairwise_map.1 c.nodup_names).imp ?_
  intro ra rb hne e he hf
  obtain ⟨_, -, rfl⟩ := List.mem_map.1 he
  obtain ⟨_, -, heq⟩ := List.mem_map.1 hf
  exact hne (Prod.mk.inj heq).1.symm

theorem nodup_pieces (c : Compilation plan) : c.pieces.Nodup := c.nodup_owners.of_map _

end Compilation

/-! ### Plans over one type

Names alone decide which keys and labels a plan has, so plans in which every resource looks
the same are enough to show what names can do.
-/

/-- A type with one field of each sort, whose objects are deleted late or at once. -/
def plainSchema (late : Bool) : Schema :=
  ⟨["contents"], ["name"], ["size"], ["name"], true, late⟩

/-- A resource of that type. -/
def plainResource (late : Bool) (name : String) : Resource :=
  ⟨name, "file", plainSchema late,
    [("name", .literal (.str name)), ("contents", .literal (.str "new"))]⟩

/-- The resources of these names. -/
def plainDeclaration (late : Bool) (names : List String) : Declaration where
  catalog := Table.ofList [("file", plainSchema late)]
  resources := Table.ofList (names.map fun n => (n, plainResource late n))
  declared e he := by
    obtain ⟨n, -, rfl⟩ := List.mem_map.1 (Entries.mem_of_mem_ofList he)
    refine ⟨rfl, rfl, by cases late <;> rfl, ?_⟩
    cases late <;> simp [plainResource, Entries.keys, plainSchema, Schema.settable]

/-- Some names are tracked, and some are declared. -/
def plainPlan (late : Bool) (tracked names : List String) (createMissing : Bool) : Plan where
  declaration := plainDeclaration late names
  prior := Table.ofList (tracked.map fun n => (n, ⟨.str n, "file", []⟩))
  createMissing

/-- In this plan something is deleted, something updated and something created, and no two
keys or labels are equal. -/
theorem Compilation.distinct_plain
    (c : Compilation (plainPlan true ["x", "y"] ["y", "z"] true)) : c.Distinct :=
  distinct_of_actions rfl (by decide +kernel) (by decide +kernel)

end Provisioning
