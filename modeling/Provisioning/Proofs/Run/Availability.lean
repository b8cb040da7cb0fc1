/-
Outputs are there when they are used.

The outputs that are stored for a resource are those of its object from the time they are
taken until the object is changed or given up.  Whether they are can be read off what was
done to the resource: `refreshed` looks for the last operation that matters.  In the forward
part of the schedule only the routines of a resource touch its outputs, so outputs are stored
wherever that operation took them, and once the check of a resource has returned it has.

Fields are only read in the start of a resource.  In a self-contained declaration they refer
to outputs of other resources that the type of the resource has, and the resource waits for
these.  They stand in earlier levels, so by then their checks have returned.
-/
import Provisioning.Proofs.Declare.References
import Provisioning.Proofs.Run.Course

namespace Provisioning

/-! ### The last operation that matters -/

/-- Whether the stored outputs are those of the object once the operation is done. -/
def ResourceOp.refreshes (op : ResourceOp) (before : Bool) : Bool :=
  match op with
  | .read | .checkCreate | .checkUpdate => true
  | .create | .update | .delete | .checkDelete | .markDeletable => false
  | .checkExist | .filter | .rescmp => before

namespace Resource

/-- Whether the stored outputs are those of the object after all this was done. -/
def refreshed (r : Resource) (os : List Operation) : Bool :=
  r.verdict ResourceOp.refreshes false os

@[simp] theorem refreshed_concat (r : Resource) (os : List Operation) (op : ResourceOp)
    (name : String) : r.refreshed (os ++ [op.record name]) =
      if name = r.name then op.refreshes (r.refreshed os) else r.refreshed os :=
  r.verdict_concat _ _ os op name

/-- Once a resource is started and checked, its outputs are those of its object. -/
theorem refreshed_of_checked (r : Resource) {createMissing : Bool} {action : Action}
    {d : Option Decision} (haction : action ≠ .delete) (hd : d ∈ settled createMissing action) :
    r.refreshed (r.work createMissing action .start d ++
      r.work createMissing action .check d) = true := by
  cases action with
  | delete => exact absurd rfl haction
  | create =>
    simp [work, refreshed, verdict, did, weigh_record, ResourceOp.refreshes]
  | update =>
    rcases d with _ | _ | _ | _ | _ <;> cases createMissing <;>
      cases hlate : r.schema.deleteAtEnd <;>
      simp_all [work, settled, probing, vacating, refreshed, verdict, did, weigh_record,
        ResourceOp.refreshes]

/-- In the forward part only what is tracked under its own name is touched. -/
theorem name_of_mem_work {r : Resource} {createMissing : Bool} {action : Action} {phase : Phase}
    {d : Option Decision} {op : ResourceOp} {name : String}
    (h : op.record name ∈ r.work createMissing action phase d) (hphase : phase ∈ Phase.forward) :
    name = r.name := by
  cases phase with
  | commit | finish => simp [Phase.forward] at hphase
  | start | check =>
    cases action <;> rcases d with _ | _ | _ | _ | _ <;> cases createMissing <;>
      cases hlate : r.schema.deleteAtEnd <;>
      simp_all [work, did, probing, vacating, ResourceOp.record_inj] <;> tauto

/-- Fields are only read in the start, and only those of the resource itself. -/
theorem reads_of_mem_script (r : Resource) (createMissing : Bool) (routine : Routine) :
    ∀ i ∈ r.script createMissing routine, i.reads = true →
      routine.phase = .start ∧ routine.action ≠ .delete ∧
        (i = .valueRom r.name ∨ i = .resource .rescmp) := by
  cases routine <;> cases createMissing <;> cases hlate : r.schema.deleteAtEnd <;>
    simp [Resource.script, Emit.withProperties, Emit.onResource, Emit.load, Emit.probe,
      Emit.reconcile, Emit.branch, Emit.deleteNow, Emit.deleteLate, Emit.vacate,
      Emit.replaceMissing, Emit.write, hlate, Instruction.reads, Routine.phase,
      Routine.action]

end Resource

/-- The types of a catalog are registered, with their schemas. -/
def Registry.Covers {W : Type} (types : Registry W) (catalog : Catalog) : Prop :=
  ∀ t schema, catalog.get? t = some schema → ∃ kind, types.get? t = some kind ∧ kind.schema = schema

theorem covers_single {W : Type} {types : Registry W} {kind : Kind W}
    (h : types.get? "file" = some kind) :
    types.Covers (Table.ofList [("file", kind.schema)]) := by
  intro t schema ht
  obtain ⟨rfl, rfl⟩ : t = "file" ∧ schema = kind.schema := by
    have hmem := Table.get?_eq_some_iff.1 ht
    simpa using Prod.mk.inj (List.mem_singleton.1 hmem)
  exact ⟨kind, h, rfl⟩

/-- The fields of `name` are read in the next step. -/
inductive Run.Reads {W : Type} (p : Program) (r : Run W) (name : String) : Prop
  | value : r.ended p = false →
    p.instructions[r.memory.programCounter]? = some (.valueRom name) → Reads p r name
  | compare : r.ended p = false →
    p.instructions[r.memory.programCounter]? = some (.resource .rescmp) →
    Run.stagedName r.memory = name → Reads p r name

namespace Compilation

variable {plan : Plan} {W : Type} {c : Compilation plan} {types : Registry W} {w : W}

theorem keys_of_covers (h : types.Covers plan.declaration.catalog) :
    ∀ t ∈ plan.declaration.catalog.keys, t ∈ types.keys := by
  intro t ht
  obtain ⟨⟨t, schema⟩, hmem, rfl⟩ := List.mem_map.1 ht
  obtain ⟨kind, hkind, -⟩ := h t schema (Table.get?_eq_some_iff.2 hmem)
  exact Table.mem_keys_of_get? hkind

/-! ### Outputs that are stored -/

/-- What a step does to outputs that are those of the object afterwards. -/
inductive Refreshes (types : Registry W) (r r' : Run W) (x : Resource) (before : Bool) : Prop
  | kept : before = true → r'.memory.outputs.get? x.name = r.memory.outputs.get? x.name →
    Refreshes types r r' x before
  | stored {kind : Kind W} {p : Provider W} {fields : Properties} {w₁ : W} :
    types.get? x.typeId = some kind → kind.provider = some p →
    p.ask (r.memory.remoteId x.name) .outputs w₁ = (.ok fields, r'.world) →
    r'.memory.outputs.get? x.name = some fields → Refreshes types r r' x before

theorem provider_eq_some {s : Staged W} {p : Provider W} (h : s.provider = .ok p) :
    s.kind.provider = some p := by
  unfold Staged.provider Kind.provides at h
  split at h
  · next p' hp =>
    obtain rfl := Except.ok.inj h
    exact hp
  · cases h

theorem refreshes_of_performed (hcovers : types.Covers plan.declaration.catalog) {r r' : Run W}
    {x : Resource} {s : Staged W} {m : Memory} {es : List Exchange} {before : Bool}
    (htyped : plan.declaration.catalog.get? x.typeId = some x.schema) (hserves : s.Serves types x)
    (hname : s.name = x.name) (houtputs : x.schema.outputs ≠ [])
    (h : s.Performed c.program.tables.rom r.memory r.world m r'.world es)
    (hmemory : r'.memory.outputs = m.outputs) (hfresh : s.op.refreshes before = true) :
    Refreshes types r r' x before := by
  have hschema : s.kind.schema = x.schema := by
    obtain ⟨kind, hkind, hschema⟩ := hcovers _ _ htyped
    rw [hserves.kind] at hkind
    obtain rfl := Option.some.inj hkind
    exact hschema
  have hstored : ∀ {p : Provider W} {fields : Properties} {w₁ : W}, s.provider = .ok p →
      p.ask (r.memory.remoteId s.name) .outputs w₁ = (.ok fields, r'.world) →
      m.outputs = r.memory.outputs.insert s.name fields → Refreshes types r r' x before := by
    intro p fields w₁ hp hask houtputs
    rw [hname] at hask houtputs
    refine .stored hserves.kind (provider_eq_some hp) hask ?_
    rw [hmemory, houtputs, Table.get?_insert, if_pos rfl]
  generalize hworld : r'.world = w' at h hstored
  cases h with
  | readOutputs hop _ hp _ hask => exact hstored hp hask rfl
  | checkChange hop hp _ hask => exact hstored hp hask rfl
  | read hop hnone =>
    rw [hschema] at hnone
    exact absurd hnone houtputs
  | checkExist hop | presume hop | filter hop | rescmp hop =>
    rw [hop] at hfresh
    exact .kept hfresh (congrArg (·.get? x.name) hmemory)
  | create hop | update hop | updateRead hop | delete hop | checkDelete hop
  | markDeletable hop =>
    rw [hop] at hfresh
    cases hfresh

/-- **What a step in the forward part does to the outputs of a resource.** -/
theorem Advances.refreshes (hd : c.Distinct) (hcovers : types.Covers plan.declaration.catalog)
    {r r' : Run W} {place place' : Place} (h : c.Advances types r r' place place')
    (hforward : place.forward) {ra : Resource × Action} (hra : ra ∈ c.actions)
    (houtputs : ra.1.schema.outputs ≠ [])
    (hfresh : ra.1.refreshed
      (c.achieved place' ra (r'.memory.decisions.get? ra.1.name)) = true) :
    Refreshes types r r' ra.1
      (ra.1.refreshed (c.achieved place ra (r.memory.decisions.get? ra.1.name))) := by
  have hsilent : c.Moves [] place place' → r'.memory.outputs = r.memory.outputs →
      Refreshes types r r' ra.1
        (ra.1.refreshed (c.achieved place ra (r.memory.decisions.get? ra.1.name))) := by
    intro hmoves hkept
    rw [h.achieved_of_moves hmoves hra, ite_self, List.append_nil] at hfresh
    exact .kept hfresh (by rw [hkept])
  cases h.effect with
  | init =>
    have hnone := h.achieved_of_moves .init hra
    rw [hnone] at hfresh
    cases hfresh
  | quiet hmoves _ htables => exact hsilent hmoves htables.outputs
  | forget _ _ _ hmoves _ hkept => exact hsilent hmoves hkept
  | settle _ hmoves _ hkept => exact hsilent hmoves hkept
  | wait _ _ hmemory =>
    rw [hmemory] at hfresh
    exact .kept hfresh (by rw [hmemory])
  | @did k rb routine s before rest K m hfaces hmoves hperformed _ hmemory =>
    obtain ⟨d, -, hwork⟩ := mem_work_of_faces hfaces (h.not_ended hd)
    have hname : s.name = rb.1.name := Resource.name_of_mem_work hwork hforward
    rw [h.achieved_of_moves hmoves hra] at hfresh
    by_cases howner : rb.1.name = ra.1.name
    · obtain rfl := eq_of_name_eq hfaces.inRoutine.planned hra howner
      rw [show Place.owner? (.routine k rb routine before (.resource s.op :: rest) K) =
        some rb.1.name from rfl, if_pos rfl, Resource.refreshed_concat, if_pos hname] at hfresh
      exact refreshes_of_performed hcovers (c.planned hra).typed hfaces.serves hname houtputs
        hperformed (by rw [hmemory]) hfresh
    · have hother : Place.owner? (.routine k rb routine before (.resource s.op :: rest) K) ≠
          some ra.1.name := fun heq => howner (Option.some.inj heq)
      rw [if_neg hother, List.append_nil] at hfresh
      refine .kept hfresh ?_
      have hne : s.name ≠ ra.1.name := hname ▸ howner
      rw [hmemory]
      generalize Run.exchanges c.program types r = es at hperformed
      generalize r'.world = w' at hperformed
      cases hperformed with
      | readOutputs | checkChange =>
        exact (Table.get?_insert _ _ _ _).trans (if_neg hne)
      | checkDelete => exact (Table.get?_erase _ _ _).trans (if_neg hne)
      | create | read | update | updateRead | delete | checkExist | presume | markDeletable
      | filter | rescmp => rfl

/-- **Up to the end of the forward part, the outputs of a resource are stored wherever what
was done to it says that they are those of its object.** -/
theorem Reaches.stored (hd : c.Distinct) (hcovers : types.Covers plan.declaration.catalog)
    {n n' : Nat} {place place' : Place} (h : c.Reaches types w n place)
    (h' : c.Reaches types w n' place') (hn : n ≤ n') {phase : Phase} {name : String}
    (hphase : phase ∈ Phase.forward) (hk : c.schedule[c.calls place']? = some (name, phase))
    {ra : Resource × Action} (hra : ra ∈ c.actions) (houtputs : ra.1.schema.outputs ≠ [])
    (hfresh : ra.1.refreshed
      (c.achieved place ra ((c.after types w n).memory.decisions.get? ra.1.name)) = true) :
    ∃ fields, (c.after types w n).memory.outputs.get? ra.1.name = some fields := by
  induction h with
  | start => cases hfresh
  | @step n p p' hreaches hadvances ih =>
    have hle : n ≤ n' := Nat.le_of_succ_le hn
    have hforward := forward_of_reaches hreaches h' hle hphase hk
    cases hadvances.refreshes hd hcovers hforward hra houtputs hfresh with
    | kept hbefore hkept =>
      obtain ⟨fields, hfields⟩ := ih hle hbefore
      exact ⟨fields, hkept.trans hfields⟩
    | stored _ _ _ hfields => exact ⟨_, hfields⟩

/-! ### Where fields are read -/

section

variable {n k : Nat} {ra : Resource × Action} {routine : Routine} {i : Instruction}
  {before rest : List Instruction} {K : Known}

theorem mem_script_of_inRoutine {m : Memory}
    (h : c.InRoutine k ra routine before (i :: rest) K m) (hclear : i ≠ .clear)
    (hret : i ≠ .ret) : i ∈ ra.1.script plan.createMissing routine := by
  have hmem : i ∈ (ra.1.piece plan.createMissing routine).body := by
    rw [h.body]
    simp
  simpa [Subroutine.body, Resource.piece, hclear, hret] using hmem

/-- Fields are read in the start of a resource that is wanted. -/
theorem start_of_reads {m : Memory} (h : c.InRoutine k ra routine before (i :: rest) K m)
    (hreads : i.reads = true) :
    routine.phase = .start ∧ ra.2 ≠ .delete ∧
      (i = .valueRom ra.1.name ∨ i = .resource .rescmp) := by
  obtain ⟨step, hneeded⟩ := h.needed
  rw [← Resource.action_of_mem hneeded]
  refine Resource.reads_of_mem_script _ _ _ i (mem_script_of_inRoutine h ?_ ?_) hreads
  · rintro rfl
    cases hreads
  · rintro rfl
    cases hreads

end

/-! ### What has been checked by then -/

/-- What the fields of a resource refer to has been checked when the resource is started. -/
structure Checked (c : Compilation plan) (k : Nat) (rb : Resource × Action) (o : OutputRef) :
    Prop where
  planned : rb ∈ c.actions
  wanted : rb.2 ≠ .delete
  name_eq : rb.1.name = o.resource
  field : o.field = remoteIdField ∨ o.field ∈ rb.1.schema.outputs
  earlier : ∃ j < k, c.schedule[j]? = some (rb.1.name, .check)

theorem exists_checked (hself : plan.declaration.SelfContained) {ra : Resource × Action} {k : Nat}
    (hra : ra ∈ c.actions) (haction : ra.2 ≠ .delete)
    (hk : c.schedule[k]? = some (ra.1.name, .start)) {o : OutputRef}
    (ho : o ∈ Expr.outputsFields ra.1.properties) :
    o.resource ≠ ra.1.name ∧ ∃ rb, c.Checked k rb o := by
  have hdeclared : plan.declaration.get? ra.1.name = some ra.1 :=
    (c.planned hra).declared haction
  obtain ⟨⟨r, hr, hfield⟩, hne⟩ := hself.backed ra.1.name ra.1 hdeclared o ho
  obtain ⟨action, hrb, hname, hwanted⟩ := c.exists_declared hr
  have hdepends : plan.DependsOn ra.1.name r.name := by
    rw [hname]
    exact dependsOn_of_waits hdeclared (Resource.waits_of_output ho hne)
  have hearlier := earlier_of_dependsOn (c := c) hdepends (by rw [hname]; exact hne)
  obtain ⟨j, hj⟩ := List.getElem?_of_mem (mem_schedule.2 (mem_names_of_mem hrb) :
    (r.name, Phase.check) ∈ c.schedule)
  have hlt : j < k := forward_lt hearlier (by decide) (by decide) hj hk
  exact ⟨hne, (r, action), hrb, hwanted, hname, hfield, j, hlt, hj⟩

theorem past_of_checked {k j : Nat} {name name' : String} {phase : Phase} (hjk : j < k)
    (hj : c.schedule[j]? = some (name, .check)) (hphase : phase ∈ Phase.forward)
    (hk : c.schedule[k]? = some (name', phase)) : c.past k name = [.start, .check] := by
  have hname : name ∈ c.names := mem_schedule.1 (List.mem_of_getElem? hj)
  have hmem : Phase.check ∈ c.past k name := mem_past.2 ⟨j, hjk, hj⟩
  have hnone : Phase.commit ∉ c.past k name := by
    intro hcommit
    obtain ⟨i, hik, hi⟩ := mem_past.1 hcommit
    exact absurd (forward_lt_backward hphase (by decide) hk hi) (Nat.not_lt.2 hik.le)
  obtain ⟨later, hlater⟩ := past_isPrefix (c := c) k hname
  rcases hpast : c.past k name with _ | ⟨a, _ | ⟨b, _ | ⟨d, l⟩⟩⟩ <;>
    simp_all [Phase.all, Phase.forward, Phase.backward]

theorem Checked.refreshed {k : Nat} {rb : Resource × Action} {o : OutputRef} (h : c.Checked k rb o)
    {ra : Resource × Action} {routine : Routine} {before rest : List Instruction} {K : Known}
    {m : Memory} (hroutine : c.InRoutine k ra routine before rest K m)
    (hphase : routine.phase = .start) (hne : rb.1.name ≠ ra.1.name) :
    rb.1.refreshed (c.achieved (.routine k ra routine before rest K) rb
      (m.decisions.get? rb.1.name)) = true := by
  obtain ⟨j, hjk, hj⟩ := h.earlier
  have hscheduled := hroutine.scheduled
  rw [hphase] at hscheduled
  have hpast := past_of_checked hjk hj (by decide) hscheduled
  have hdecided : m.decisions.get? rb.1.name ∈ settled plan.createMissing rb.2 := by
    have hexpected := hroutine.others rb h.planned hne
    unfold expected at hexpected
    rwa [hpast, if_neg (by simp)] at hexpected
  have hachieved : c.achieved (.routine k ra routine before rest K) rb
      (m.decisions.get? rb.1.name) =
        rb.1.work plan.createMissing rb.2 .start (m.decisions.get? rb.1.name) ++
          rb.1.work plan.createMissing rb.2 .check (m.decisions.get? rb.1.name) := by
    show (c.past k rb.1.name).flatMap _ ++ (if ra.1.name = rb.1.name then _ else []) = _
    rw [hpast, if_neg (Ne.symm hne)]
    simp
  rw [hachieved]
  exact rb.1.refreshed_of_checked h.wanted hdecided

/-! ### Reading -/

/-- **Where fields are read, what they refer to is started and checked, and its outputs are
stored.** -/
theorem available_of_reads (hd : c.Distinct) (hcovers : types.Covers plan.declaration.catalog)
    (hself : plan.declaration.SelfContained) {n k : Nat} {ra : Resource × Action}
    {routine : Routine} {i : Instruction} {before rest : List Instruction} {K : Known}
    (h : c.Reaches types w n (.routine k ra routine before (i :: rest) K))
    (hreads : i.reads = true) {o : OutputRef} (ho : o ∈ Expr.outputsFields ra.1.properties) :
    o.resource ≠ ra.1.name ∧ ∃ rb, c.Checked k rb o ∧
      Returned c.program types w n ((Routine.forPhase rb.2 .check).label o.resource) ∧
      (o.field ≠ remoteIdField →
        ∃ fields, (c.after types w n).memory.outputs.get? o.resource = some fields) := by
  have hroutine : c.InRoutine k ra routine before (i :: rest) K (c.after types w n).memory :=
    h.stands.1
  obtain ⟨hphase, haction, -⟩ := start_of_reads hroutine hreads
  have hscheduled := hroutine.scheduled
  rw [hphase] at hscheduled
  obtain ⟨hne, rb, hchecked⟩ := exists_checked hself hroutine.planned haction hscheduled ho
  obtain ⟨j, hjk, hj⟩ := hchecked.earlier
  refine ⟨hne, rb, hchecked, ?_, ?_⟩
  · rw [← hchecked.name_eq]
    exact h.returned_of_lt hd nofun hchecked.planned hj hjk
  · intro hfield
    have houtputs : rb.1.schema.outputs ≠ [] :=
      List.ne_nil_of_mem (hchecked.field.resolve_left hfield)
    have hother : rb.1.name ≠ ra.1.name := by
      rw [hchecked.name_eq]
      exact hne
    rw [← hchecked.name_eq]
    exact h.stored hd hcovers h (Nat.le_refl n) (by decide) hscheduled hchecked.planned houtputs
      (hchecked.refreshed hroutine hphase hother)

theorem resolve_of_reads (hd : c.Distinct) (hcovers : types.Covers plan.declaration.catalog)
    (hself : plan.declaration.SelfContained) {n k : Nat} {ra : Resource × Action}
    {routine : Routine} {i : Instruction} {before rest : List Instruction} {K : Known}
    (h : c.Reaches types w n (.routine k ra routine before (i :: rest) K))
    (hreads : i.reads = true) : ∃ fields, c.program.tables.rom.resolve
      (c.after types w n).memory.outputValue ra.1.name = .ok (.obj fields) := by
  have hroutine : c.InRoutine k ra routine before (i :: rest) K (c.after types w n).memory :=
    h.stands.1
  obtain ⟨-, haction, -⟩ := start_of_reads hroutine hreads
  have hdeclared := (c.planned hroutine.planned).declared haction
  rcases Plan.resolve_declared c.rom_eq hdeclared (c.after types w n).memory.outputValue with
    hok | ⟨o, f, hholds, ho, -⟩
  · exact hok
  · -- Fields that cannot be read come to an output that is not there.
    obtain ⟨-, rb, -, -, hstored⟩ := available_of_reads hd hcovers hself h hreads
      (Plan.outputs_of_holds c.rom_eq hdeclared hholds)
    unfold Memory.outputValue at ho
    split at ho
    · cases ho
    · next hfield =>
      obtain ⟨fields, hfields⟩ := hstored hfield
      rw [hfields] at ho
      cases ho

/-- A fault of a typed instruction comes from the outside: fields can always be read. -/
theorem outside_of_stops (hd : c.Distinct) (hcovers : types.Covers plan.declaration.catalog)
    (hself : plan.declaration.SelfContained) {n : Nat} {place : Place} {r : Run W} {f : Fault}
    (h : c.Reaches types w n place) (hstops : c.Stops types (c.after types w n) place r)
    (hf : r.memory.error = some f) : f.outside = true := by
  cases hstops with
  | @fault k ra routine i before rest K K' g temp w' hroutine _ hfoils _ =>
    obtain rfl : g = f := Option.some.inj hf
    rcases hfoils with ⟨-, houtside⟩ | ⟨hreads, -, herror⟩
    · exact houtside
    · obtain ⟨fields, hok⟩ := resolve_of_reads hd hcovers hself h hreads
      exact absurd (hok.symm.trans herror) nofun

theorem routine_of_reads (hd : c.Distinct)
    (htypes : ∀ t ∈ plan.declaration.catalog.keys, t ∈ types.keys) {n : Nat} {name : String}
    (h : Run.Reads c.program (c.after types w n) name) :
    ∃ k ra routine i before rest K,
      c.Reaches types w n (.routine k ra routine before (i :: rest) K) ∧ i.reads = true ∧
        ra.1.name = name := by
  have hnext : ∃ i, (c.after types w n).ended c.program = false ∧ i.reads = true ∧
      c.program.instructions[(c.after types w n).memory.programCounter]? = some i := by
    cases h with
    | value hrunning hi => exact ⟨_, hrunning, rfl, hi⟩
    | compare hrunning hi => exact ⟨_, hrunning, rfl, hi⟩
  obtain ⟨i, hrunning, hreads, hi⟩ := hnext
  obtain ⟨place, hreaches⟩ := exists_reaches hd htypes hrunning
  have hstands := hreaches.stands.1
  have hplace := ne_halted_of_running hstands hrunning
  have hbody : i.drives = false := by
    cases i <;> first | rfl | cases hreads
  obtain ⟨k, ra, routine, before, rest, K, rfl⟩ := routine_of_instruction hd hstands hplace hi hbody
  have hroutine : c.InRoutine k ra routine before (i :: rest) K (c.after types w n).memory := hstands
  refine ⟨k, ra, routine, i, before, rest, K, hreaches, hreads, ?_⟩
  obtain ⟨-, -, rfl | rfl⟩ := start_of_reads hroutine hreads
  · cases h with
    | value _ hi' => exact Instruction.valueRom.inj (Option.some.inj (hi.symm.trans hi'))
    | compare _ hi' => exact absurd (hi.symm.trans hi') nofun
  · cases h with
    | value _ hi' => exact absurd (hi.symm.trans hi') nofun
    | compare _ _ hstaged =>
      cases hroutine.checked with
      | step ht _ =>
        obtain ⟨s, hop, hfaces, -⟩ := exists_faces htypes hroutine ht
        rw [← hfaces.rescmp hop, ← hstaged]
        unfold Run.stagedName
        rw [hfaces.named]
        rfl

/-- **If references are only taken from resources of the declaration itself, no run stops
because an output is not there: wherever the fields of a resource are read, every other
resource that they come to an output of has stored its outputs and finished its check.** -/
theorem available_of_steps {p : Program} (h : plan.compile = .ok p)
    (hself : plan.declaration.SelfContained) :
    ∃ c : Compilation plan, c.program = p ∧ (c.Distinct → ∀ {W : Type} (types : Registry W),
      types.Covers plan.declaration.catalog → ∀ (w : W) (n : Nat),
        (∀ resource field, (Run.steps p types n (Run.fresh w)).memory.error ≠
          some (.outputUnavailable resource field)) ∧
        ∀ name, Run.Reads p (Run.steps p types n (Run.fresh w)) name →
          ∀ o, p.tables.rom.Holds name o → o.resource ≠ name → o.field ≠ remoteIdField →
            (∃ fields, (Run.steps p types n (Run.fresh w)).memory.outputs.get? o.resource =
              some fields) ∧
            ∃ ra ∈ c.actions, ra.1.name = o.resource ∧
              Returned p types w n ((Routine.forPhase ra.2 .check).label o.resource)) := by
  obtain ⟨c, rfl⟩ := compile_eq_ok.1 h
  refine ⟨c, rfl, ?_⟩
  intro hd W types hcovers w n
  have htypes := keys_of_covers hcovers
  constructor
  · intro resource field herror
    change (c.after types w n).memory.error = _ at herror
    cases stage_steps hd htypes w n with
    | running hreaches => exact absurd (herror.symm.trans hreaches.stands.2) nofun
    | halted _ hreaches heq =>
      rw [heq] at herror
      exact absurd (herror.symm.trans hreaches.stands.2) nofun
    | stopped _ hreaches hstops heq =>
      rw [heq] at herror
      have houtside := outside_of_stops hd hcovers hself hreaches hstops herror
      cases houtside
  · intro name hread o hholds hne hfield
    obtain ⟨k, ra, routine, i, before, rest, K, hreaches, hreads, rfl⟩ :=
      routine_of_reads hd htypes hread
    have hroutine : c.InRoutine k ra routine before (i :: rest) K (c.after types w n).memory :=
      hreaches.stands.1
    obtain ⟨-, haction, -⟩ := start_of_reads hroutine hreads
    have houtput := Plan.outputs_of_holds c.rom_eq
      ((c.planned hroutine.planned).declared haction) hholds
    obtain ⟨-, rb, hchecked, hreturned, hstored⟩ :=
      available_of_reads hd hcovers hself hreaches hreads houtput
    exact ⟨hstored hfield, rb, hchecked.planned, hchecked.name_eq, hreturned⟩

/-- A file. -/
def firstFile : Resource := ⟨"a", "file", plainSchema false, [("name", .literal (.str "a"))]⟩

/-- A file that takes its contents from an output of the other one. -/
def secondFile : Resource :=
  ⟨"b", "file", plainSchema false,
    [("name", .literal (.str "b")), ("contents", .output ⟨"a", "size"⟩)]⟩

/-- The declaration of some files. -/
def fileDeclaration (files : List Resource) (h : files ⊆ [firstFile, secondFile]) :
    Declaration where
  catalog := Table.ofList [("file", plainSchema false)]
  resources := Table.ofList (files.map fun r => (r.name, r))
  declared e he := by
    obtain ⟨r, hr, rfl⟩ := List.mem_map.1 (Entries.mem_of_mem_ofList he)
    rcases List.mem_pair.1 (h hr) with rfl | rfl <;>
      exact ⟨rfl, rfl, rfl, by simp [firstFile, secondFile, Entries.keys, plainSchema,
        Schema.settable]⟩

/-- Both files. -/
def linkedDeclaration : Declaration := fileDeclaration [firstFile, secondFile] (List.Subset.refl _)

theorem selfContained_linked : linkedDeclaration.SelfContained := by
  have hfirst : (fileDeclaration [firstFile] (by simp)).SelfContained := by
    refine .add (.empty (Table.ofList [("file", plainSchema false)])) ?_
      (rfl : Declaration.add _ "file" "a" [("name", .json (.str "a"))] = .ok (_, _))
    exact ⟨trivial, trivial⟩
  have hoffers : (fileDeclaration [firstFile] (by simp)).OffersFields
      [("name", .json (.str "b")), ("contents", .output ⟨"a", "size"⟩)] :=
    ⟨trivial, ⟨firstFile, rfl, .inl rfl⟩, trivial⟩
  exact .add hfirst hoffers
    (rfl : (fileDeclaration [firstFile] (by simp)).add "file" "b" _ = .ok (_, _))

/-- Both files, with nothing tracked. -/
def linkedPlan : Plan := ⟨linkedDeclaration, Table.empty, false⟩

/-- When the contents of the second file are read, the outputs of the first one are stored. -/
theorem available_of_steps_linked :
    ∃ p, linkedPlan.compile = .ok p ∧
      ∃ fields, (Run.steps p (plainTypes false) 26 (Run.fresh ())).memory.outputs.get? "a" =
        some fields := by
  obtain ⟨c, hc, havailable⟩ :=
    available_of_steps (rfl : linkedPlan.compile = .ok _) selfContained_linked
  have hdistinct : c.Distinct := distinct_of_actions rfl (by decide +kernel) (by decide +kernel)
  have hcovers : (plainTypes false).Covers linkedPlan.declaration.catalog :=
    covers_single
      (rfl : (plainTypes false).get? "file" = some ⟨plainSchema false, some plainProvider⟩)
  have hreads : Run.Reads c.program (Run.steps c.program (plainTypes false) 26 (Run.fresh ()))
      "b" := by
    rw [hc]
    exact .value (by decide +kernel) (by decide +kernel)
  have hholds : c.program.tables.rom.Holds "b" ⟨"a", "size"⟩ := by
    rw [hc]
    exact ⟨"b.contents", .single ⟨_, rfl, by decide +kernel⟩, rfl⟩
  rw [hc] at hreads hholds
  obtain ⟨-, hread⟩ := havailable hdistinct (plainTypes false) hcovers () 26
  exact ⟨_, rfl, (hread "b" hreads _ hholds (by decide) (by decide)).1⟩

end Compilation

end Provisioning
