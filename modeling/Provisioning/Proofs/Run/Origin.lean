/-
Which types identifiers have.

An identifier means something to one type only.  It is known under the type that was recorded
with it, or under that of the handle which created its object, and it should go on with that
type in every snapshot and in every handle.  The types of names say whether it does: each name
has one type for the whole run, and identifiers stay under their names, save that an update may
put one aside.

There are two ways for an identifier to come under another type.  A declaration may give a
tracked name a new type; what is tracked there is then taken to be of that type.  And the name
under which an update puts something aside may be declared or tracked itself, with a type of
its own.
-/
import Provisioning.Proofs.Run.Succession

namespace Provisioning

namespace Resource

variable {r : Resource} {createMissing : Bool} {action : Action} {phase : Phase}
  {d : Option Decision} {op : ResourceOp} {name : String}

/-- Only an update whose deletion is put off puts something aside, or does anything to what it
has put aside. -/
theorem late_of_aside (h : op.record name ∈ r.work createMissing action phase d)
    (haside : op = .markDeletable ∨ name = deletable r.name) :
    action = .update ∧ r.schema.deleteAtEnd = true := by
  have hne := (ne_deletable r.name).symm
  rcases haside with rfl | rfl <;> cases phase <;> cases action <;>
    rcases d with _ | _ | _ | _ | _ <;> cases createMissing <;>
    cases hschema : r.schema.deleteAtEnd <;>
    simp_all [work, did, didAside, probing, vacating, ResourceOp.record_inj]

end Resource

/-! ### The types of names -/

namespace Plan

variable {plan : Plan} {r : Resource} {name : String}

/-- The type of each name that is tracked or declared; what is declared counts. -/
def typeIds (plan : Plan) : Table String :=
  (plan.prior.mapValues fun _ t => t.typeId).overlay
    (plan.declaration.resources.entries.map fun e => (e.1, e.2.typeId))

/-- The type of what is under a name: its own, or that of what puts its object aside there. -/
def typeOf? (plan : Plan) (name : String) : Option String :=
  plan.typeIds.get? (if plan.typeIds.contains name then name else undeletable name)

/-- An update of the resource may put its object aside. -/
structure Parks (plan : Plan) (r : Resource) : Prop where
  declared : plan.declaration.get? r.name = some r
  tracked : r.name ∈ plan.prior.keys
  late : r.schema.deleteAtEnd = true

/-- Something may be put aside under a name that has another type. -/
inductive Mixed (plan : Plan) : String → Prop
  /-- The name is declared or tracked with a type of its own. -/
  | clash {r : Resource} {typeId : String} : plan.Parks r →
    plan.typeIds.get? (deletable r.name) = some typeId → typeId ≠ r.typeId →
    Mixed plan (deletable r.name)
  /-- What was put aside there is put aside once more. -/
  | again {r : Resource} : plan.Parks r → Mixed plan r.name → Mixed plan (deletable r.name)

/-- A tracked name is declared with another type than was recorded with its identifier. -/
def Retypes (plan : Plan) (typeId : String) (id : Json) : Prop :=
  ∃ name tracked r, plan.prior.get? name = some tracked ∧ plan.declaration.get? name = some r ∧
    tracked.remoteId = id ∧ r.typeId = typeId ∧ tracked.typeId ≠ typeId

theorem Mixed.exists_eq (h : plan.Mixed name) : ∃ owner, name = deletable owner := by
  cases h with
  | clash | again => exact ⟨_, rfl⟩

theorem typeOf?_of_get? {typeId : String} (h : plan.typeIds.get? name = some typeId) :
    plan.typeOf? name = some typeId := by
  unfold typeOf?
  rw [if_pos (Table.contains_iff.2 (Table.mem_keys_of_get? h)), h]

theorem typeOf?_declared (h : plan.declaration.get? name = some r) :
    plan.typeOf? name = some r.typeId :=
  typeOf?_of_get? (Engine.get?_overlay_declared _ Resource.typeId h)

theorem typeOf?_undeclared (h : plan.declaration.get? name = none) {tracked : Tracked}
    (htracked : plan.prior.get? name = some tracked) :
    plan.typeOf? name = some tracked.typeId := by
  refine typeOf?_of_get? ?_
  unfold typeIds
  rw [Engine.get?_overlay_undeclared _ Resource.typeId h, Table.get?_mapValues, htracked]
  rfl

theorem typeOf?_deletable (h : plan.Parks r) (hpure : ¬ plan.Mixed (deletable r.name)) :
    plan.typeOf? (deletable r.name) = some r.typeId := by
  cases hown : plan.typeIds.get? (deletable r.name) with
  | some typeId =>
    by_cases heq : typeId = r.typeId
    · rw [typeOf?_of_get? hown, heq]
    · exact absurd (.clash h hown heq) hpure
  | none =>
    unfold typeOf?
    rw [if_neg fun hmem => Entries.get?_eq_none_iff.1 hown (Table.contains_iff.1 hmem),
      undeletable_deletable]
    exact Engine.get?_overlay_declared _ Resource.typeId h.declared

end Plan

theorem Engine.typeOf?_of_state {W : Type} {types : Registry W} {plan : Plan} {e : Engine W}
    (h : Engine.compile types plan = .ok e) {m : Memory} {name : String} {tracked : Tracked}
    (htracked : (e.state m).get? name = some tracked) :
    m.remoteIds.get? name = some tracked.remoteId ∧ plan.typeOf? name = some tracked.typeId := by
  rw [get?_state, Option.bind_eq_some_iff] at htracked
  obtain ⟨id, hid, hrecorded⟩ := htracked
  obtain ⟨typeId, htype, rfl⟩ := Option.map_eq_some_iff.1 hrecorded
  refine ⟨hid, ?_⟩
  rw [(compile_eq_ok h).2.2.1] at htype
  unfold typeKey at htype
  rwa [(compile_eq_ok h).2.2.1] at htype

/-! ### Where identifiers come from -/

theorem eq_some_of_getD {answer : Option Json} {id : Json} (h : answer.getD .null = id)
    (hnull : id ≠ .null) : answer = some id := by
  cases answer with
  | none => exact absurd h.symm hnull
  | some _ => exact congrArg some h

/-- An identifier is of a type before step `n` of a run: it was recorded under the type, or a
handle of the type has created its object. -/
inductive Plan.Native {W : Type} (plan : Plan) (p : Program) (types : Registry W) (w : W)
    (n : Nat) : String → Json → Prop
  | recorded {name : String} {tracked : Tracked} : plan.prior.get? name = some tracked →
    Native plan p types w n tracked.typeId tracked.remoteId
  | created {t : Nat} {typeId : String} {properties : Properties} {id : Json} : t < n →
    ⟨typeId, none, .create properties, .ok (some id)⟩ ∈
      Run.exchanges p types (Run.steps p types t (Run.fresh w)) →
    Native plan p types w n typeId id

section

variable {W : Type} {plan : Plan} {p : Program} {types : Registry W} {w : W} {n : Nat}
  {typeId : String} {id : Json}

theorem Plan.Native.mono (h : plan.Native p types w n typeId id) {n' : Nat} (hn : n ≤ n') :
    plan.Native p types w n' typeId id := by
  cases h with
  | recorded htracked => exact .recorded htracked
  | created ht hmem => exact .created (ht.trans_le hn) hmem

theorem Plan.not_native
    (hprior : ∀ t ∈ plan.prior.entries, t.2.remoteId = id → t.2.typeId ≠ typeId)
    (hsaid : ∀ t < n, ∀ x ∈ Run.exchanges p types (Run.steps p types t (Run.fresh w)),
      x.id ≠ none) : ¬ plan.Native p types w n typeId id := by
  intro h
  cases h with
  | recorded htracked => exact hprior _ (Table.get?_eq_some_iff.1 htracked) rfl rfl
  | created ht hmem => exact hsaid _ ht _ hmem rfl

end

namespace Compilation

variable {plan : Plan} {W : Type} {c : Compilation plan} {types : Registry W} {w : W} {n : Nat}
  {r : Run W} {place : Place} {k : Nat} {ra : Resource × Action} {routine : Routine}
  {before rest : List Instruction} {K : Known} {s : Staged W} {name : String} {id : Json}

/-- What puts something aside, or acts on what was put aside, is an update whose deletion is put
off. -/
theorem parks_of_faces (h : c.Faces types k ra routine before rest K s r.memory)
    (hrunning : r.ended c.program = false)
    (haside : s.op = .markDeletable ∨ s.name = deletable ra.1.name) : plan.Parks ra.1 := by
  obtain ⟨d, -, hwork⟩ := mem_work_of_faces h hrunning
  obtain ⟨hupdate, hlate⟩ := Resource.late_of_aside hwork haside
  have hplanned := c.planned h.inRoutine.planned
  exact ⟨hplanned.declared (by rw [hupdate]; nofun),
    Table.contains_iff.1 (hplanned.tracked.2 (by rw [hupdate]; nofun)), hlate⟩

theorem typeOf?_of_mem (hra : ra ∈ c.actions) : plan.typeOf? ra.1.name = some ra.1.typeId := by
  by_cases haction : ra.2 = .delete
  · obtain ⟨tracked, htracked, htype⟩ := tracked_of_delete hra haction
    rw [Plan.typeOf?_undeclared ((c.planned hra).undeclared haction) htracked, htype]
  · exact Plan.typeOf?_declared ((c.planned hra).declared haction)

/-- **An operation is done with the type of the name that it is done to.** -/
theorem typeOf?_of_faces (h : c.Faces types k ra routine before rest K s r.memory)
    (hrunning : r.ended c.program = false) (hpure : ¬ plan.Mixed s.name) :
    plan.typeOf? s.name = some s.typeId := by
  rw [h.serves.typeId]
  rcases h.serves.name with hname | hname
  · rw [hname]
    exact typeOf?_of_mem h.inRoutine.planned
  · rw [hname] at hpure ⊢
    exact Plan.typeOf?_deletable (parks_of_faces h hrunning (.inr hname)) hpure

/-- What is tracked when a run begins was recorded with the type of its name, unless that has
been changed. -/
theorem native_of_prior {tracked : Tracked} (htracked : plan.prior.get? name = some tracked) :
    ∃ typeId, plan.typeOf? name = some typeId ∧
      (plan.Native c.program types w n typeId tracked.remoteId ∨
        plan.Retypes typeId tracked.remoteId) := by
  cases hdeclared : plan.declaration.get? name with
  | none => exact ⟨_, Plan.typeOf?_undeclared hdeclared htracked, .inl (.recorded htracked)⟩
  | some r =>
    refine ⟨_, Plan.typeOf?_declared hdeclared, ?_⟩
    by_cases htype : tracked.typeId = r.typeId
    · exact .inl (htype ▸ .recorded htracked)
    · exact .inr ⟨name, tracked, r, htracked, hdeclared, rfl, rfl, htype⟩

/-- **What is tracked under a name is of the type of the name.** -/
theorem Reaches.native (hd : c.Distinct) (h : c.Reaches types w n place)
    (hid : (c.after types w n).memory.remoteIds.get? name = some id) (hnull : id ≠ .null)
    (hpure : ¬ plan.Mixed name) :
    ∃ typeId, plan.typeOf? name = some typeId ∧
      (plan.Native c.program types w n typeId id ∨ plan.Retypes typeId id) := by
  induction h generalizing name id with
  | start => cases hid
  | @step n place place' hreaches hadvances ih =>
    have hlater : ∀ {name id}, (c.after types w n).memory.remoteIds.get? name = some id →
        id ≠ .null → ¬ plan.Mixed name → ∃ typeId, plan.typeOf? name = some typeId ∧
          (plan.Native c.program types w (n + 1) typeId id ∨ plan.Retypes typeId id) := by
      intro name id hid hnull hpure
      obtain ⟨typeId, htype, horigin⟩ := ih hid hnull hpure
      exact ⟨typeId, htype, horigin.imp_left (·.mono (Nat.le_succ n))⟩
    by_cases hplace : place = .start
    · subst hplace
      rw [hadvances.loaded.1, Table.get?_mapValues] at hid
      obtain ⟨tracked, htracked, rfl⟩ := Option.map_eq_some_iff.1 hid
      exact native_of_prior htracked
    · have herror := hadvances.running
      cases hadvances.turns hplace name with
      | kept hsame => exact hlater (hsame ▸ hid) hnull hpure
      | forgotten _ _ _ _ hnone => exact absurd (hid.symm.trans hnone) nofun
      | deleted _ _ _ _ _ hnone => exact absurd (hid.symm.trans hnone) nofun
      | putAside _ _ _ _ _ hnone _ => exact absurd (hid.symm.trans hnone) nofun
      | @created k ra routine before rest K s properties answer hat hfaces hop hname _ hsaid hnew =>
        subst hname hat
        have hrunning := running_of_stands hd hadvances.stands nofun herror
        obtain rfl : answer = some id :=
          eq_some_of_getD (Option.some.inj (hnew.symm.trans hid)) hnull
        have hmem : ⟨s.typeId, none, .create properties, .ok (some id)⟩ ∈
            Run.exchanges c.program types (c.after types w n) := by
          rw [hsaid]
          exact List.mem_singleton.2 rfl
        exact ⟨_, typeOf?_of_faces hfaces hrunning hpure,
          .inl (.created (Nat.lt_succ_self n) hmem)⟩
      | @received k ra routine before rest K s hat hfaces hop hname _ hmoved =>
        subst hname hat
        have hrunning := running_of_stands hd hadvances.stands nofun herror
        have hparks := parks_of_faces hfaces hrunning (.inl hop)
        rw [(putAside_of_faces hd hfaces herror hop).1] at hmoved hid hpure ⊢
        -- The identifier comes from the name of the resource, which has the same type.
        have hold : (c.after types w n).memory.remoteIds.get? ra.1.name = some id :=
          eq_some_of_getD (Option.some.inj (hmoved.symm.trans hid)) hnull
        obtain ⟨typeId, htype, horigin⟩ := hlater hold hnull fun hmixed =>
          hpure (.again hparks hmixed)
        obtain rfl : ra.1.typeId = typeId :=
          Option.some.inj ((typeOf?_of_mem hfaces.inRoutine.planned).symm.trans htype)
        exact ⟨_, Plan.typeOf?_deletable hparks hpure, horigin⟩

theorem native_steps (hd : c.Distinct)
    (htypes : ∀ t ∈ plan.declaration.catalog.keys, t ∈ types.keys) {typeId : String}
    (hid : (c.after types w n).memory.remoteIds.get? name = some id) (hnull : id ≠ .null)
    (hpure : ¬ plan.Mixed name) (htype : plan.typeOf? name = some typeId) :
    plan.Native c.program types w n typeId id ∨ plan.Retypes typeId id := by
  rcases Nat.eq_zero_or_pos n with rfl | hn
  · cases hid
  · obtain ⟨t, ht, -, ⟨p, hreaches⟩, htables, -⟩ := (stage_steps hd htypes w n).last hd hn
    rw [htables.remoteIds] at hid
    obtain ⟨typeId', htype', horigin⟩ := hreaches.native hd hid hnull hpure
    obtain rfl : typeId = typeId' := Option.some.inj (htype.symm.trans htype')
    exact horigin.imp_left (·.mono ht)

/-- **A handle of an identifier is of the type of the name that it is tracked under.** -/
theorem exists_name_of_handle (hd : c.Distinct)
    (htypes : ∀ t ∈ plan.declaration.catalog.keys, t ∈ types.keys) {x : Exchange}
    (hx : x ∈ Run.exchanges c.program types (c.after types w n)) (hid : x.id = some id) :
    ∃ name, (c.after types w n).memory.remoteIds.get? name = some id ∧ id ≠ .null ∧
      (¬ plan.Mixed name → plan.typeOf? name = some x.typeId) := by
  have hrunning : (c.after types w n).ended c.program = false := by
    by_contra hended
    rw [Run.exchanges_of_ended (by simpa using hended)] at hx
    cases hx
  obtain ⟨place, hreaches⟩ := exists_reaches hd htypes hrunning
  obtain ⟨hstands, herror⟩ := hreaches.stands
  obtain ⟨k, ra, routine, before, rest, K, s, -, hfaces, hsays⟩ :=
    faces_of_said hd htypes hstands herror hx
  have hhandle : (c.after types w n).memory.remoteId s.name = some id := by
    have hown : s.handle (c.after types w n).memory = some id := hsays.id.symm.trans hid
    unfold Staged.handle at hown
    split at hown
    · cases hown
    · exact hown
  obtain ⟨hget, hnull⟩ := Memory.get?_of_remoteId hhandle
  exact ⟨s.name, hget, hnull, fun hpure =>
    hsays.typeId ▸ typeOf?_of_faces hfaces hrunning hpure⟩

end Compilation

/-- **Which types identifiers have in a run.**  If keys and labels are distinct, then in every
state the snapshot has all identifiers and gives each the type under which it was recorded, or
that of the handle that created its object, and handles of it are of such a type.  This only
fails where a tracked name is declared with another type, and where something is put aside under
a name of another type. -/
theorem Engine.keeps_types {W : Type} {types : Registry W} {plan : Plan} {e : Engine W}
    (h : Engine.compile types plan = .ok e) :
    ∃ c : Compilation plan, c.program = e.program ∧ (c.Distinct →
      (∀ t ∈ plan.declaration.catalog.keys, t ∈ types.keys) → ∀ (w : W) (n : Nat),
        let r := Run.steps e.program types n (Run.fresh w)
        ((e.state r.memory).mapValues fun _ t => t.remoteId) = r.memory.remoteIds ∧
        (∀ name tracked, (e.state r.memory).get? name = some tracked →
          tracked.remoteId ≠ .null →
            plan.Native e.program types w n tracked.typeId tracked.remoteId ∨
              plan.Retypes tracked.typeId tracked.remoteId ∨ plan.Mixed name) ∧
        ∀ x ∈ Run.exchanges e.program types r, ∀ id, x.id = some id →
          plan.Native e.program types w n x.typeId id ∨ plan.Retypes x.typeId id ∨
            ∃ name, r.memory.remoteIds.get? name = some id ∧ plan.Mixed name) := by
  obtain ⟨hcompile, hregistry, -⟩ := compile_eq_ok h
  obtain ⟨c, hc⟩ := Compilation.compile_eq_ok.1 hcompile
  refine ⟨c, hc, fun hd htypes w n => ⟨?_, ?_⟩⟩
  · have hstems := stems_of_steps h w n
    rw [hregistry] at hstems
    exact mapValues_state hstems
  rw [← hc]
  refine ⟨fun name tracked htracked hnull => ?_, fun x hx id hid => ?_⟩
  · obtain ⟨hget, htype⟩ := typeOf?_of_state h htracked
    by_cases hpure : plan.Mixed name
    · exact .inr (.inr hpure)
    · exact (Compilation.native_steps hd htypes hget hnull hpure htype).imp_right .inl
  · obtain ⟨name, hget, hnull, htype⟩ := Compilation.exists_name_of_handle hd htypes hx hid
    by_cases hpure : plan.Mixed name
    · exact .inr (.inr ⟨name, hget, hpure⟩)
    · exact (Compilation.native_steps hd htypes hget hnull hpure (htype hpure)).imp_right .inl

/-- What replaces an object has its type from the handle that created it. -/
theorem keeps_types_plain :
    ∃ e, Engine.compile (plainTypes true) (plainPlan true ["x", "y"] ["y", "z"] true) = .ok e ∧
      (e.state (Run.steps e.program (plainTypes true) 39 (Run.fresh ())).memory).get? "y" =
        some ⟨.str "id", "file", []⟩ ∧
      (plainPlan true ["x", "y"] ["y", "z"] true).Native e.program (plainTypes true) () 39
        "file" (.str "id") := by
  obtain ⟨c, -, hkeeps⟩ := Engine.keeps_types
    (rfl : Engine.compile (plainTypes true) (plainPlan true ["x", "y"] ["y", "z"] true) = .ok _)
  have hentry := (hkeeps c.distinct_plain (by decide +kernel) () 39).2.1 "y"
    ⟨.str "id", "file", []⟩ (by decide +kernel) nofun
  refine ⟨_, rfl, by decide +kernel, hentry.resolve_right ?_⟩
  rintro (⟨name, tracked, r, hprior, hdeclared, -, -, hne⟩ | hmixed)
  · obtain ⟨x, -, hx⟩ := List.mem_map.1
      (Entries.mem_of_mem_ofList (Table.get?_eq_some_iff.1 hprior))
    obtain ⟨rfl, rfl⟩ := Prod.mk.inj hx
    exact hne rfl
  · obtain ⟨owner, heq⟩ := hmixed.exists_eq
    have hmark : deletableMark.length = 11 := rfl
    have hlength : "y".length = deletableMark.length + owner.length :=
      (congrArg String.length heq).trans (String.length_append _ _)
    rw [hmark, show "y".length = 1 from rfl] at hlength
    omega

/-- Two types, one of them for what is declared. -/
def folderTypes : Registry Unit :=
  Table.ofList [("file", ⟨plainSchema true, some plainProvider⟩),
    ("folder", ⟨plainSchema true, some plainProvider⟩)]

/-- A folder is declared, and something is tracked. -/
def folderPlan (prior : Snapshot) : Plan where
  declaration := {
    catalog := Table.ofList [("file", plainSchema true), ("folder", plainSchema true)]
    resources := Table.ofList
      [("a", ⟨"a", "folder", plainSchema true, [("name", .literal (.str "a"))]⟩)]
    declared := by
      intro e he
      obtain rfl := List.mem_singleton.1 (Entries.mem_of_mem_ofList he)
      exact ⟨rfl, rfl, rfl, by simp [Entries.keys, plainSchema, Schema.settable]⟩ }
  prior
  createMissing := false

/-- A file is tracked under the name of the folder. -/
def retypedPlan : Plan := folderPlan (Table.ofList [("a", ⟨.str "a", "file", []⟩)])

/-- The name where the folder is put aside is that of a file without an identifier. -/
def crowdedPlan : Plan := folderPlan (Table.ofList
  [("a", ⟨.str "a", "folder", []⟩), (deletable "a", ⟨.null, "file", []⟩)])

/-- The file is taken for a folder as soon as it is tracked, and the folder for a file when it
is put aside. -/
theorem not_keeps_types_retyped :
    (∃ e, Engine.compile folderTypes retypedPlan = .ok e ∧
      (∀ c : Compilation retypedPlan, c.Distinct) ∧
      (e.state (Run.steps e.program folderTypes 1 (Run.fresh ())).memory).get? "a" =
        some ⟨.str "a", "folder", []⟩ ∧
      ¬ retypedPlan.Native e.program folderTypes () 1 "folder" (.str "a")) ∧
    ∃ e, Engine.compile folderTypes crowdedPlan = .ok e ∧
      (∀ c : Compilation crowdedPlan, c.Distinct) ∧
      (e.state (Run.steps e.program folderTypes 22 (Run.fresh ())).memory).get? (deletable "a") =
        some ⟨.str "a", "file", []⟩ ∧
      ¬ crowdedPlan.Native e.program folderTypes () 22 "file" (.str "a") := by
  refine ⟨⟨_, rfl, fun c => ?_, by decide +kernel, Plan.not_native ?_ ?_⟩,
    _, rfl, fun c => ?_, by decide +kernel, Plan.not_native ?_ ?_⟩
  · exact Compilation.distinct_of_actions rfl (by decide +kernel) (by decide +kernel)
  · decide +kernel
  · decide +kernel
  · exact Compilation.distinct_of_actions rfl (by decide +kernel) (by decide +kernel)
  · decide +kernel
  · decide +kernel

end Provisioning
