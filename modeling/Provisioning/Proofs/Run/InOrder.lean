/-
Objects that are as declared.

If the objects are kept in a store, then at every step of a run what was done to a declared
resource tells the truth about its object: where it is said to be as declared, comparing it
with the declared fields finds nothing to change.  The fields may refer to outputs of other
resources, and are read from the objects of these as they are now.  By the time a resource
is started they are all checked, and from then on nothing touches their objects, so what the
fields come to stays the same.

The outputs that are stored are those of the objects, where `refreshed` says so.
-/
import Provisioning.Proofs.Declare.Values
import Provisioning.Proofs.Run.Standing

namespace Provisioning

/-- The value of an output as it is in the objects. -/
def Plan.actual {W : Type} (plan : Plan) (S : Store W) (r : Run W) (o : OutputRef) : Json :=
  if o.field = remoteIdField then (r.memory.remoteIds.get? o.resource).getD .null
  else (((plan.declaration.get? o.resource).bind fun x => x.object S r).bind (· o.field)).getD .null

/-- The stored outputs of a resource are those of its object. -/
def Resource.Mirrored {W : Type} (x : Resource) (S : Store W) (r : Run W) : Prop :=
  ∃ fields object, r.memory.outputs.get? x.name = some fields ∧ x.object S r = some object ∧
    ∀ f ∈ x.schema.outputs, fields.get? f = object f

namespace Compilation

variable {plan : Plan} {W : Type}

/-- A program, and a world in which backends keep what the plan tracks. -/
structure Setting (c : Compilation plan) (types : Registry W) (S : Store W) (w : W) : Prop where
  distinct : c.Distinct
  covers : types.Covers plan.declaration.catalog
  selfContained : plan.declaration.SelfContained
  apart : plan.Apart
  serves : S.Serves types
  tracks : S.Tracks plan w

/-- Compared with the declared fields as they are read from the objects, the object of a
resource gives a decision. -/
def Judged (c : Compilation plan) (S : Store W) (r : Run W) (x : Resource) (d : Decision) : Prop :=
  ∃ object fields, x.object S r = some object ∧
    c.program.tables.rom.resolve (fun o => .ok (plan.actual S r o)) x.name = .ok (.obj fields) ∧
    compare x.schema (x.schema.current object) fields = d

/-- What was done to a resource tells the truth about its object. -/
inductive Stood (c : Compilation plan) (S : Store W) (r : Run W) (place : Place)
    (ra : Resource × Action) : Prop
  | unknown : ra.1.standing (c.achieved place ra (r.memory.decisions.get? ra.1.name)) = .unknown →
    Stood c S r place ra
  | there {object : String → Option Json} :
    ra.1.standing (c.achieved place ra (r.memory.decisions.get? ra.1.name)) = .there →
    ra.1.object S r = some object → Stood c S r place ra
  | compared {d : Decision} :
    ra.1.standing (c.achieved place ra (r.memory.decisions.get? ra.1.name)) = .compared →
    r.memory.decisions.get? ra.1.name = some d → c.Judged S r ra.1 d → Stood c S r place ra
  | inOrder :
    ra.1.standing (c.achieved place ra (r.memory.decisions.get? ra.1.name)) = .inOrder →
    c.Judged S r ra.1 .noChange → Stood c S r place ra

/-- In the forward part, stored outputs are those of the objects. -/
def Mirrors (c : Compilation plan) (S : Store W) (r : Run W) (place : Place) : Prop :=
  ∀ ra ∈ c.actions, ra.2 ≠ .delete → ra.1.schema.outputs ≠ [] →
    ra.1.refreshed (c.achieved place ra (r.memory.decisions.get? ra.1.name)) = true →
      ra.1.Mirrored S r

/-- The next call belongs to the forward part of the schedule. -/
def Forward (c : Compilation plan) (place : Place) : Prop :=
  ∃ name phase, phase ∈ Phase.forward ∧ c.schedule[c.calls place]? = some (name, phase)

variable {c : Compilation plan} {types : Registry W} {S : Store W} {w : W} {n k : Nat}
  {r r' : Run W} {place place' : Place} {ra rb : Resource × Action} {o : OutputRef}

theorem Setting.registered (h : c.Setting types S w) :
    ∀ t ∈ plan.declaration.catalog.keys, t ∈ types.keys :=
  keys_of_covers h.covers

theorem Setting.keeps (h : c.Setting types S w) (hra : ra ∈ c.actions) :
    ∃ p, S.Keeps ra.1.typeId ra.1.schema p := by
  obtain ⟨kind, hkind, hschema⟩ := h.covers _ _ (c.planned hra).typed
  obtain ⟨p, -, hkeeps⟩ := h.serves _ _ hkind
  exact ⟨p, hschema ▸ hkeeps⟩

/-! ### What comes next -/

theorem Facing.unique {m : Memory} {s s' : Staged W} (h : c.Facing types m place ra s)
    (h' : c.Facing types m place rb s') : s = s' := by
  obtain ⟨k, routine, before, rest, K, rfl, hfaces⟩ := h
  obtain ⟨k', routine', before', rest', K', heq, hfaces'⟩ := h'
  injection heq with _ _ _ _ hrest
  obtain ⟨hop, -⟩ := List.cons.inj hrest
  have hstaged := hfaces.staged
  rw [Instruction.resource.inj hop, hfaces'.staged] at hstaged
  exact (Except.ok.inj hstaged).symm

theorem Facing.not_forgetting {m : Memory} {s : Staged W} (h : c.Facing types m place ra s) :
    ¬ Forgetting plan place rb := by
  obtain ⟨k, routine, before, rest, K, rfl, -⟩ := h
  rintro ⟨k', before', rest', K', heq, -⟩
  injection heq with _ _ _ _ hrest
  cases hrest

/-- **What a step achieves for a resource: nothing, or the operation that comes next is one of
the resource, and is done.** -/
theorem Advances.achieves (htypes : ∀ t ∈ plan.declaration.catalog.keys, t ∈ types.keys)
    (hd : c.Distinct) (hserves : S.Serves types) (h : c.Advances types r r' place place')
    (hra : ra ∈ c.actions) :
    ((∀ s, ¬ c.Facing types r.memory place ra s) ∧
      c.achieved place' ra (r'.memory.decisions.get? ra.1.name) =
        c.achieved place ra (r.memory.decisions.get? ra.1.name)) ∨
    ∃ (s : Staged W) (m : Memory), c.Facing types r.memory place ra s ∧
      s.Performed c.program.tables.rom r.memory r.world m r'.world
        (Run.exchanges c.program types r) ∧
      r'.memory = { m with programCounter := r.memory.programCounter + 1 } ∧
      c.achieved place' ra (r'.memory.decisions.get? ra.1.name) =
        c.achieved place ra (r.memory.decisions.get? ra.1.name) ++ [s.op.record s.name] := by
  by_cases hfacing : ∃ s, c.Facing types r.memory place ra s
  · obtain ⟨s, k, routine, before, rest, K, rfl, hfaces⟩ := hfacing
    obtain ⟨K', rfl⟩ := h.beyond htypes hserves
    obtain ⟨s', m, hop, hfaces', hmoves, hperformed, hmemory⟩ := h.performed hd htypes
    obtain rfl : s = s' := Facing.unique ⟨k, routine, before, rest, K, rfl, hfaces⟩
      ⟨k, routine, before, rest, K, by rw [hop], hfaces'⟩
    refine .inr ⟨s, m, ⟨k, routine, before, rest, K, rfl, hfaces⟩, hperformed, hmemory, ?_⟩
    rw [h.achieved_of_moves hmoves hra]
    exact congrArg _ (if_pos rfl)
  · refine .inl ⟨fun s hs => hfacing ⟨s, hs⟩, ?_⟩
    have hsilent : c.Moves [] place place' →
        c.achieved place' ra (r'.memory.decisions.get? ra.1.name) =
          c.achieved place ra (r.memory.decisions.get? ra.1.name) := by
      intro hmoves
      rw [h.achieved_of_moves hmoves hra, ite_self, List.append_nil]
    cases h.effect with
    | init => exact hsilent .init
    | quiet hmoves => exact hsilent hmoves
    | forget _ _ _ hmoves => exact hsilent hmoves
    | settle _ hmoves => exact hsilent hmoves
    | @did k rb routine s before rest K m hfaces hmoves =>
      rw [h.achieved_of_moves hmoves hra, if_neg, List.append_nil]
      intro howner
      obtain rfl := eq_of_name_eq hfaces.inRoutine.planned hra (Option.some.inj howner)
      exact hfacing ⟨s, k, routine, before, rest, K, rfl, hfaces⟩
    | wait _ _ hmemory => rw [hmemory]

/-! ### What is past -/

theorem start_of_touched {m : Memory} (haction : ra.2 ≠ .delete)
    (hrunning : m.halted c.program.size = false) (h : c.Touched types m place ra) :
    ∃ k routine before rest K, place = .routine k ra routine before rest K ∧
      routine.phase = .start := by
  cases h with
  | forgotten h =>
    obtain ⟨k, before, rest, K, rfl, -⟩ := h
    exact ⟨k, _, before, _, K, rfl, rfl⟩
  | did hfacing hname hop =>
    obtain ⟨k, routine, before, rest, K, rfl, hfaces⟩ := hfacing
    obtain ⟨d, -, hwork⟩ := mem_work_of_faces hfaces hrunning
    rw [hname] at hwork
    exact ⟨k, routine, before, _, K, rfl, Resource.start_of_touches haction hwork hop⟩

/-- A step keeps the object of a declared resource, or touches it. -/
theorem Setting.kept_or_touched (h : c.Setting types S w) (hreaches : c.Reaches types w n place)
    (hadvances : c.Advances types (c.after types w n) (c.after types w (n + 1)) place place')
    (hra : ra ∈ c.actions) (haction : ra.2 ≠ .delete) (hn : 0 < n) :
    ra.1.Kept S (c.after types w n) (c.after types w (n + 1)) ∨
      c.Touched types (c.after types w n).memory place ra :=
  Compilation.kept_or_touched h.distinct h.apart hra haction hadvances.running
    (hreaches.accounted h.distinct h.registered h.serves h.apart h.tracks hn)
    (hadvances.alters h.registered h.serves (hreaches.ne_start hn))

/-- **From the start of a resource on, nothing touches what its fields refer to.** -/
theorem Checked.kept (h : c.Setting types S w) (hreaches : c.Reaches types w n place)
    (hadvances : c.Advances types (c.after types w n) (c.after types w (n + 1)) place place')
    (hchecked : c.Checked k rb o) (hk : k ≤ c.calls place) :
    rb.1.Kept S (c.after types w n) (c.after types w (n + 1)) := by
  obtain ⟨j, hjk, hj⟩ := hchecked.earlier
  have hplace : place ≠ .start := by
    rintro rfl
    exact absurd (Nat.lt_of_lt_of_le hjk hk) (Nat.not_lt_zero j)
  rcases h.kept_or_touched hreaches hadvances hchecked.planned hchecked.wanted
    (hreaches.pos hplace) with hkept | htouched
  · exact hkept
  · obtain ⟨k', routine, before, rest, K, rfl, hphase⟩ :=
      start_of_touched hchecked.wanted (hadvances.not_ended h.distinct) htouched
    have hroutine : c.InRoutine k' rb routine before rest K _ := hadvances.stands
    have hscheduled := hroutine.scheduled
    rw [hphase] at hscheduled
    have hpast := past_of_checked (Nat.lt_of_lt_of_le hjk hk) hj (by decide) hscheduled
    exact absurd (hpast.symm.trans ((past_eq_nil_iff hscheduled).2 rfl)) nofun

theorem begun_of_achieved {m : Memory} {d : Option Decision} (hra : ra ∈ c.actions)
    (h : c.Stands m place) (hne : c.achieved place ra d ≠ []) :
    ∃ k ≤ c.calls place, c.schedule[k]? = some (ra.1.name, .start) := by
  have hpast : c.past (c.calls place) ra.1.name ≠ [] →
      ∃ k ≤ c.calls place, c.schedule[k]? = some (ra.1.name, .start) := by
    intro hne
    obtain ⟨later, hlater⟩ := past_isPrefix (c := c) (c.calls place) (mem_names_of_mem hra)
    obtain ⟨phase, phases, hphases⟩ := List.exists_cons_of_ne_nil hne
    rw [hphases] at hlater
    obtain rfl : phase = .start := (List.cons.inj hlater).1
    obtain ⟨k, hk, hscheduled⟩ := mem_past.1
      (hphases ▸ List.mem_cons_self : Phase.start ∈ c.past (c.calls place) ra.1.name)
    exact ⟨k, hk.le, hscheduled⟩
  by_cases hnil : c.past (c.calls place) ra.1.name = []
  · have hrecords : place.records ra.1.name ≠ [] := by
      intro hrecords
      refine hne ?_
      unfold achieved finished
      rw [hnil, hrecords]
      rfl
    cases place with
    | start | driver | halted => exact absurd rfl hrecords
    | routine k rb routine before rest K =>
      have hroutine : c.InRoutine k rb routine before rest K m := h
      by_cases hname : rb.1.name = ra.1.name
      · have hscheduled := hroutine.scheduled
        rw [hname] at hscheduled
        rw [(past_eq_nil_iff hscheduled).1 hnil] at hscheduled
        exact ⟨k, Nat.le_refl k, hscheduled⟩
      · exact absurd (if_neg hname) hrecords
  · exact hpast hnil

/-! ### What fields come to -/

/-- What the fields of a declared resource refer to is declared, and checked by its start. -/
theorem Setting.checked (h : c.Setting types S w) (hra : ra ∈ c.actions)
    (haction : ra.2 ≠ .delete) (hk : c.schedule[k]? = some (ra.1.name, .start))
    (ho : c.program.tables.rom.Holds ra.1.name o) :
    o.resource ≠ ra.1.name ∧ ∃ rb, c.Checked k rb o ∧
      plan.declaration.get? o.resource = some rb.1 := by
  have hdeclared := (c.planned hra).declared haction
  obtain ⟨hne, rb, hchecked⟩ := exists_checked h.selfContained hra haction hk
    (Plan.outputs_of_holds c.rom_eq hdeclared ho)
  exact ⟨hne, rb, hchecked,
    hchecked.name_eq ▸ (c.planned hchecked.planned).declared hchecked.wanted⟩

theorem actual_of_kept (hdeclared : plan.declaration.get? o.resource = some rb.1)
    (h : rb.1.Kept S r r') : plan.actual S r' o = plan.actual S r o := by
  have hslot := h.slot
  rw [Declaration.get?_name hdeclared] at hslot
  unfold Plan.actual
  rw [hslot, hdeclared, Option.bind_some, Option.bind_some, h.object]

theorem Setting.actual_eq (h : c.Setting types S w) (hreaches : c.Reaches types w n place)
    (hadvances : c.Advances types (c.after types w n) (c.after types w (n + 1)) place place')
    (hra : ra ∈ c.actions) (haction : ra.2 ≠ .delete)
    (hk : c.schedule[k]? = some (ra.1.name, .start)) (hle : k ≤ c.calls place)
    (ho : c.program.tables.rom.Holds ra.1.name o) :
    plan.actual S (c.after types w (n + 1)) o = plan.actual S (c.after types w n) o := by
  obtain ⟨-, rb, hchecked, hdeclared⟩ := h.checked hra haction hk ho
  exact actual_of_kept hdeclared (hchecked.kept h hreaches hadvances hle)

theorem Judged.congr {x : Resource} {d : Decision} (h : c.Judged S r x d)
    (hobject : x.object S r' = x.object S r)
    (hactual : ∀ o, c.program.tables.rom.Holds x.name o → plan.actual S r' o = plan.actual S r o) :
    c.Judged S r' x d := by
  obtain ⟨object, fields, hobj, hresolve, hcompare⟩ := h
  refine ⟨object, fields, hobject.trans hobj, ?_, hcompare⟩
  rw [← hresolve]
  exact Rom.resolve_congr fun o ho => congrArg Except.ok (hactual o ho)

/-- In the start of a resource, what its fields refer to is read as it is in the objects. -/
theorem Setting.outputValue_eq (h : c.Setting types S w) {routine : Routine}
    {before rest : List Instruction} {K : Known}
    (hroutine : c.InRoutine k ra routine before rest K r.memory) (hphase : routine.phase = .start)
    (haction : ra.2 ≠ .delete) (hmirrors : c.Mirrors S r (.routine k ra routine before rest K))
    (ho : c.program.tables.rom.Holds ra.1.name o) :
    r.memory.outputValue o = .ok (plan.actual S r o) := by
  have hscheduled := hroutine.scheduled
  rw [hphase] at hscheduled
  obtain ⟨hne, rb, hchecked, hdeclared⟩ := h.checked hroutine.planned haction hscheduled ho
  unfold Memory.outputValue Plan.actual
  split
  · rfl
  · next hfield =>
    have hmem := hchecked.field.resolve_left hfield
    have hother : rb.1.name ≠ ra.1.name := hchecked.name_eq ▸ hne
    obtain ⟨fields, object, hfields, hobject, hagree⟩ := hmirrors rb hchecked.planned
      hchecked.wanted (List.ne_nil_of_mem hmem) (hchecked.refreshed hroutine hphase hother)
    rw [hchecked.name_eq] at hfields
    rw [hfields, hdeclared, Option.bind_some, hobject, Option.bind_some, ← hagree _ hmem]

theorem Setting.sound_actual (h : c.Setting types S w) (haccounted : c.Accounted S r)
    (hrb : rb ∈ c.actions) (hdeclared : plan.declaration.get? o.resource = some rb.1) :
    (plan.actual S r o).Sound := by
  obtain ⟨p, hkeeps⟩ := h.keeps hrb
  have hname := Declaration.get?_name hdeclared
  unfold Plan.actual
  split
  · cases hslot : r.memory.remoteIds.get? o.resource with
    | none => exact Json.sound_null
    | some id =>
      by_cases hnull : id = .null
      · exact hnull ▸ Json.sound_null
      · exact (hkeeps.identifies (haccounted.given (bears_of_mem hrb) (hname ▸ hslot) hnull)).2
  · rw [hdeclared, Option.bind_some]
    cases hobject : rb.1.object S r with
    | none => exact Json.sound_null
    | some object =>
      obtain ⟨id, -, hheld⟩ := Option.bind_eq_some_iff.1 hobject
      cases hvalue : object o.field with
      | none =>
        simp only [Option.bind_some, hvalue]
        exact Json.sound_null
      | some v =>
        simp only [Option.bind_some, hvalue]
        exact hkeeps.sound hheld hvalue

/-! ### What is written, and what is compared -/

section

variable {routine : Routine} {before rest : List Instruction} {K : Known} {s : Staged W}
  {m : Memory} {es : List Exchange}

/-- In the start of a resource its fields come to what they come to in the objects. -/
theorem Setting.resolve_now (h : c.Setting types S w)
    (hreaches : c.Reaches types w n (.routine k ra routine before rest K))
    (hphase : routine.phase = .start) (haction : ra.2 ≠ .delete)
    (hmirrors : c.Mirrors S (c.after types w n) (.routine k ra routine before rest K))
    {fields : Properties} (hresolve : c.program.tables.rom.resolve
      (c.after types w n).memory.outputValue ra.1.name = .ok (.obj fields)) :
    c.program.tables.rom.resolve (fun o => .ok (plan.actual S (c.after types w n) o)) ra.1.name =
        .ok (.obj fields) ∧ ∀ e ∈ fields, e.2.Sound := by
  have hroutine : c.InRoutine k ra routine before rest K _ := hreaches.stands.1
  have hscheduled := hroutine.scheduled
  rw [hphase] at hscheduled
  have hnow : c.program.tables.rom.resolve
      (fun o => .ok (plan.actual S (c.after types w n) o)) ra.1.name = .ok (.obj fields) := by
    rw [← hresolve]
    exact Rom.resolve_congr fun o ho =>
      (h.outputValue_eq hroutine hphase haction hmirrors ho).symm
  refine ⟨hnow, Rom.sound_of_resolve (Plan.sound_rom c.rom_eq h.selfContained.sound)
    (Plan.get?_rom c.rom_eq ((c.planned hroutine.planned).declared haction)) ?_ hnow⟩
  intro o x ho hx
  obtain rfl := Except.ok.inj hx
  obtain ⟨-, rb, hchecked, hdeclared⟩ := h.checked hroutine.planned haction hscheduled ho
  exact h.sound_actual (hreaches.accounted h.distinct h.registered h.serves h.apart h.tracks
    (hreaches.pos nofun)) hchecked.planned hdeclared

theorem Setting.resolve_actual (h : c.Setting types S w)
    (hreaches : c.Reaches types w n (.routine k ra routine before rest K))
    (hadvances : c.Advances types (c.after types w n) (c.after types w (n + 1))
      (.routine k ra routine before rest K) place')
    (hphase : routine.phase = .start) (haction : ra.2 ≠ .delete)
    (hmirrors : c.Mirrors S (c.after types w n) (.routine k ra routine before rest K))
    {fields : Properties} (hresolve : c.program.tables.rom.resolve
      (c.after types w n).memory.outputValue ra.1.name = .ok (.obj fields)) :
    c.program.tables.rom.resolve (fun o => .ok (plan.actual S (c.after types w n) o)) ra.1.name =
        .ok (.obj fields) ∧
      c.program.tables.rom.resolve (fun o => .ok (plan.actual S (c.after types w (n + 1)) o))
        ra.1.name = .ok (.obj fields) ∧ ∀ e ∈ fields, e.2.Sound := by
  have hroutine : c.InRoutine k ra routine before rest K _ := hreaches.stands.1
  have hscheduled := hroutine.scheduled
  rw [hphase] at hscheduled
  obtain ⟨hnow, hsound⟩ := h.resolve_now hreaches hphase haction hmirrors hresolve
  refine ⟨hnow, ?_, hsound⟩
  rw [← hnow]
  exact Rom.resolve_congr fun o ho => congrArg Except.ok
    (h.actual_eq hreaches hadvances hroutine.planned haction hscheduled (Nat.le_refl k) ho)

/-- What is about to be written to differs from the declared fields, in mutable ones only. -/
theorem judged_of_update (hd : c.Distinct)
    (hfaces : c.Faces types k ra routine before rest K s r.memory)
    (herror : r.memory.error = none) (hop : s.op = .update)
    (hstood : ra.2 ≠ .delete →
      c.Stood S r (.routine k ra routine before (.resource s.op :: rest) K) ra) :
    s.name = ra.1.name ∧ ra.2 = .update ∧ c.Judged S r ra.1 .modify := by
  obtain ⟨d, -, hvd, hprefix⟩ := possible_of_faces hd hfaces herror
  rw [show s.op.record s.name = ResourceOp.update.record s.name by rw [hop]] at hprefix
  obtain ⟨hname, hupdate, hstanding, rfl⟩ := Resource.update_of_isPrefix hprefix
  refine ⟨hname, hupdate, ?_⟩
  cases hstood (by rw [hupdate]; nofun) with
  | compared _ hdecided hjudged =>
    obtain rfl := Option.some.inj (hdecided.symm.trans
      (hvd.resolve_left (by rw [hdecided]; nofun)))
    exact hjudged
  | unknown heq | there heq | inOrder heq => exact absurd (heq.symm.trans hstanding) nofun

variable (h : c.Setting types S w)
  (hreaches : c.Reaches types w n (.routine k ra routine before (.resource s.op :: rest) K))
  (hadvances : c.Advances types (c.after types w n) (c.after types w (n + 1))
    (.routine k ra routine before (.resource s.op :: rest) K) place')
  (hfaces : c.Faces types k ra routine before rest K s (c.after types w n).memory)
  (hmirrors : c.Mirrors S (c.after types w n)
    (.routine k ra routine before (.resource s.op :: rest) K))
  (hperformed : s.Performed c.program.tables.rom (c.after types w n).memory
    (c.after types w n).world m (c.after types w (n + 1)).world es)
  (hmemory : (c.after types w (n + 1)).memory =
    { m with programCounter := (c.after types w n).memory.programCounter + 1 })

include h hreaches hadvances hfaces hmirrors hperformed hmemory

theorem judged_created
    (hop : s.op = .create) : c.Judged S (c.after types w (n + 1)) ra.1 .noChange := by
  obtain ⟨hname, haction, -⟩ := create_of_faces h.distinct hfaces hadvances.running hop
  obtain ⟨d, -, hwork⟩ := mem_work_of_faces hfaces (hadvances.not_ended h.distinct)
  rw [hop] at hwork
  obtain ⟨p, hkeeps⟩ := h.keeps hfaces.inRoutine.planned
  obtain ⟨properties, v, extra, hproperties, hm, -, hgiven, hchanges⟩ :=
    Staged.created (keeps_of_faces h.serves hfaces) hperformed hop
  obtain ⟨-, hresolve, hsound⟩ := h.resolve_actual hreaches hadvances
    (Resource.start_of_mem_work hwork) haction hmirrors
    (hreaches.properties (.inl hop) hproperties)
  refine ⟨fun f => (properties.get? f).or (extra f), properties, ?_, hresolve,
    Schema.compare_created hsound⟩
  rw [hfaces.serves.typeId] at hgiven hchanges
  have hslot : (c.after types w (n + 1)).memory.remoteId ra.1.name = some v := by
    refine Option.filter_eq_some_iff.2 ⟨?_, ?_⟩
    · rw [hmemory, hm, ← hname]
      exact (Table.get?_insert _ _ _ _).trans (if_pos rfl)
    · have hnull := (hkeeps.identifies hgiven).1
      cases v <;> first | rfl | exact absurd rfl hnull
  unfold Resource.object
  rw [hslot]
  exact hchanges.changed

theorem judged_updated
    (hstood : c.Stood S (c.after types w n)
      (.routine k ra routine before (.resource s.op :: rest) K) ra)
    (hop : s.op = .update) : c.Judged S (c.after types w (n + 1)) ra.1 .noChange := by
  obtain ⟨hname, hupdate, object, fields, hobject, hfields, hcompare⟩ :=
    judged_of_update h.distinct hfaces hadvances.running hop fun _ => hstood
  have haction : ra.2 ≠ .delete := by rw [hupdate]; nofun
  obtain ⟨d, -, hwork⟩ := mem_work_of_faces hfaces (hadvances.not_ended h.distinct)
  rw [hop, hname] at hwork
  have hphase := Resource.start_of_touches haction hwork rfl
  obtain ⟨properties, hproperties, rfl, hchanges⟩ :=
    Staged.updated (keeps_of_faces h.serves hfaces) hperformed hop
  obtain ⟨hnow, hresolve, hsound⟩ := h.resolve_actual hreaches hadvances hphase haction hmirrors
    (hreaches.properties (.inr hop) hproperties)
  obtain rfl : properties = fields :=
    Json.obj.inj (Except.ok.inj (hnow.symm.trans hfields))
  refine ⟨_, properties, ?_, hresolve,
    Schema.compare_updated (by rw [hcompare]; nofun) hsound⟩
  have hslot : (c.after types w (n + 1)).memory.remoteId ra.1.name =
      (c.after types w n).memory.remoteId ra.1.name := by
    rw [hmemory]
    rfl
  unfold Resource.object at hobject ⊢
  rw [hname, hfaces.serves.typeId, hobject] at hchanges
  rw [hslot, hchanges.changed, Option.map_some]
  unfold Staged.mutableOnly
  rw [schema_of_faces h.covers hfaces]

/-- What is decided about a resource is how its object compares with the declared fields. -/
theorem judged_compared
    (hop : s.op = .rescmp) :
    ∃ d, (c.after types w (n + 1)).memory.decisions.get? ra.1.name = some d ∧
      c.Judged S (c.after types w (n + 1)) ra.1 d := by
  have hname := hfaces.rescmp hop
  have hbody : c.InRoutine k ra routine before (.resource .rescmp :: rest) K _ :=
    hop ▸ hfaces.inRoutine
  obtain ⟨hphase, haction, -⟩ := start_of_reads hbody rfl
  obtain ⟨d, hdecide, rfl, hworld⟩ := hperformed.decided hop
  obtain ⟨fields, current, hread, hcurrent, hcompare⟩ := Staged.decide_eq_ok hdecide
  rw [hname] at hread
  obtain ⟨-, hresolve, -⟩ :=
    h.resolve_actual hreaches hadvances hphase haction hmirrors hread
  obtain ⟨object, hobject, htemp⟩ :=
    Reaches.current h.distinct h.covers h.serves (hop ▸ hreaches)
  refine ⟨d, ?_, object, fields, ?_, hresolve, ?_⟩
  · rw [hmemory, hname]
    exact (Table.get?_insert _ _ _ _).trans (if_pos rfl)
  · unfold Resource.object at hobject ⊢
    rw [hworld, hmemory]
    exact hobject
  · rw [← hcompare, schema_of_faces h.covers hfaces]
    congr 1
    unfold Memory.requireObject Memory.require at hcurrent
    rw [htemp] at hcurrent
    exact Except.ok.inj hcurrent

end

end Compilation

end Provisioning
