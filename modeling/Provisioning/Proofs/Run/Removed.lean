/-
What becomes of references to what is deleted.

A declared resource may refer to something that is tracked and no longer declared.  Compiling
objects to names that are neither declared nor tracked, and to nothing else: a tracked name is
in the graph, so the reference is accepted, although the object behind it is deleted by the same
program.

Outputs of such an object are never read all the same, since none are ever stored.  What can be
read is its identifier, and that depends on when it is deleted.  If its deletion is not put off
it comes in an earlier level than the resource that refers to it, and is confirmed before fields
are read there: then there is nothing under the name any more, and `null` is read.
-/
import Provisioning.Proofs.Addresses
import Provisioning.Proofs.Cycles
import Provisioning.Proofs.Run.Availability
import Provisioning.Proofs.Run.Convergence
import Provisioning.Proofs.Run.Outputs

namespace Provisioning

namespace Rom

theorem output_of_resolveWithin_ok {rom : Rom} {output : OutputRef → Except Fault Json}
    {steps : Nat} {a : String} {v : Json} (h : rom.resolveWithin output steps a = .ok v)
    {o : OutputRef} (hholds : rom.Holds a o) : ∃ x, output o = .ok x := by
  induction steps generalizing a v with
  | zero => cases h
  | succ steps ih =>
    obtain ⟨b, hreach, hb⟩ := hholds
    obtain ⟨e, hget, -⟩ := bind_eq_ok.1 h
    have hstored : rom.entries.get? a = some e := Table.get?_eq_some_iff.2 (get_eq_ok_iff.1 hget)
    rw [resolveWithin_of_get hget] at h
    rcases Relation.ReflTransGen.cases_head hreach with rfl | ⟨d, ⟨e', he', hd⟩, hrest⟩
    · obtain rfl : e = .output o := Option.some.inj (hstored.symm.trans hb)
      exact ⟨v, h⟩
    · obtain rfl : e = e' := Option.some.inj (hstored.symm.trans he')
      cases e with
      | literal _ | output _ => cases hd
      | array references =>
        obtain ⟨vs, hvs, -⟩ := bind_eq_ok.1 h
        obtain ⟨x, -, hx⟩ := ok_of_mapM hvs hd
        exact ih hx ⟨b, hrest, hb⟩
      | hash references =>
        obtain ⟨vs, hvs, -⟩ := bind_eq_ok.1 h
        obtain ⟨f, hf, rfl⟩ := List.mem_map.1 hd
        obtain ⟨_, -, hx⟩ := ok_of_mapM hvs hf
        obtain ⟨x, hx, -⟩ := bind_eq_ok.1 hx
        exact ih hx ⟨b, hrest, hb⟩

end Rom

/-! ### What is refused -/

namespace Plan

/-- A declared resource refers to a name that is neither declared nor tracked. -/
def Misses (plan : Plan) (user d : String) : Prop :=
  ∃ r, plan.declaration.get? user = some r ∧ d ∈ Expr.mentionsFields r.properties ∧
    d ∉ plan.prior.keys ∧ d ∉ plan.declaration.resources.keys

variable {plan : Plan} {user d : String}

theorem subroutine_ne_unknown (r : Resource) (createMissing : Bool) (routine : Routine) :
    (r.subroutine createMissing routine) ≠ .error (.unknownDependency user d) := by
  unfold Resource.subroutine Resource.code Resource.checkRequired
  cases routine.creates with
  | false => exact nofun
  | true =>
    cases r.schema.requiredFields.find? fun f => !r.properties.contains f with
    | none => exact nofun
    | some f => exact nofun

theorem storeAll_ne_unknown (rom : Rom) (rs : List (String × Resource)) :
    storeAll rom rs ≠ .error (.unknownDependency user d) := by
  intro h
  induction rs generalizing rom with
  | nil => cases h
  | cons e rest ih =>
    rw [storeAll] at h
    rcases rom.add_cases e.1 e.2.toExpr with ⟨rom', hadd⟩ | ⟨rom', a, hadd⟩
    · simp only [hadd] at h
      exact ih rom' h
    · simp only [hadd] at h
      cases h

/-- What else may be wrong with a plan is no unknown dependency. -/
theorem levels_of_unknown (h : plan.compile = .error (.unknownDependency user d)) :
    plan.levels = .error (.unknownDependency user d) := by
  have hgone : plan.deletables ≠ .error (.unknownDependency user d) := by
    intro h
    obtain ⟨e, -, he⟩ := error_of_mapM h
    split at he
    · cases he
    · unfold Resource.make at he
      split at he <;> cases he
  have hactions : plan.actions ≠ .error (.unknownDependency user d) := by
    intro h
    rcases bind_eq_error.1 h with h | ⟨_, -, h⟩
    · exact hgone h
    · cases h
  have htable (actions : List (Resource × Action)) :
      subroutines plan.createMissing actions ≠ .error (.unknownDependency user d) := by
    intro h
    rcases bind_eq_error.1 h with h | ⟨_, -, h⟩
    · obtain ⟨ra, -, h⟩ := error_of_mapM h
      obtain ⟨routine, -, h⟩ := error_of_mapM h
      cases hs : ra.1.subroutine plan.createMissing routine.2 with
      | ok s =>
        rw [hs] at h
        cases h
      | error e =>
        rw [hs] at h
        cases h
        exact subroutine_ne_unknown _ _ _ hs
    · cases h
  have hrom : plan.rom ≠ .error (.unknownDependency user d) := storeAll_ne_unknown _ _
  rcases bind_eq_error.1 h with h | ⟨_, -, h⟩
  · rcases bind_eq_error.1 h with h | ⟨_, -, h⟩
    · exact h
    · rcases bind_eq_error.1 h with h | ⟨_, -, h⟩
      · exact absurd h hactions
      · rcases bind_eq_error.1 h with h | ⟨_, -, h⟩
        · exact absurd h (htable _)
        · cases h
  · rcases bind_eq_error.1 h with h | ⟨_, -, h⟩
    · exact absurd h hrom
    · cases h

theorem waits_of_mentions {r : Resource} (hd : d ∈ Expr.mentionsFields r.properties)
    (hne : d ≠ r.name) : d ∈ r.waits := by
  unfold Resource.waits
  rw [mem_distinct, List.mem_filter]
  exact ⟨hd, by simpa using hne⟩

/-- **Compiling reports an unknown dependency only where something is missing.** -/
theorem misses_of_unknown (h : plan.compile = .error (.unknownDependency user d)) :
    plan.Misses user d := by
  have hlevels := levels_of_unknown h
  rcases plan.dependencies.levels_cases with ⟨name, d', hfirst, hunknown, -⟩ | ⟨_, hcycle, -⟩ |
    ⟨_, hok, -⟩
  · cases hlevels.symm.trans hfirst
    obtain ⟨before, after, known, rest, hentries, -, -, hmissing⟩ := hunknown
    have hdeps : plan.dependencies.of? user = some (known ++ d :: rest) := by
      refine Table.get?_eq_some_iff.2 ?_
      rw [hentries]
      simp
    have hd : d ∈ known ++ d :: rest := by simp
    rw [mem_nodes_dependencies, not_or] at hmissing
    rw [of?_dependencies] at hdeps
    cases hr : plan.declaration.resources.get? user with
    | some r =>
      rw [hr] at hdeps
      have hwaits : r.waits = known ++ d :: rest := Option.some.inj hdeps
      rw [← hwaits] at hd
      exact ⟨r, hr, List.mem_of_mem_filter (mem_distinct.1 hd), hmissing⟩
    | none =>
      -- Of what is tracked only known dependencies are in the graph.
      rw [hr] at hdeps
      obtain ⟨t, -, ht⟩ := Option.map_eq_some_iff.1 hdeps
      rw [← ht] at hd
      have hknown := (List.mem_filter.1 (mem_distinct.1 hd)).2
      unfold knows at hknown
      rw [Bool.or_eq_true, Table.contains_iff, Table.contains_iff] at hknown
      exact absurd hknown (not_or.2 hmissing)
  · cases hlevels.symm.trans hcycle
  · cases hlevels.symm.trans hok

/-- **Wherever something is missing, compiling reports an unknown dependency.** -/
theorem unknown_of_misses (h : plan.Misses user d) :
    ∃ user' d', plan.compile = .error (.unknownDependency user' d') := by
  obtain ⟨r, hr, hd, hprior, hdeclared⟩ := h
  have hname : r.name = user := (plan.declaration.declared _ (Table.get?_eq_some_iff.1 hr)).name_eq
  have hne : d ≠ r.name := by
    rintro rfl
    rw [hname] at hdeclared
    exact hdeclared (Table.mem_keys_of_get? hr)
  rcases plan.dependencies.levels_cases with ⟨name, d', hfirst, -⟩ | ⟨_, -, hcomplete, -⟩ |
    ⟨_, -, hcomplete, -⟩
  · refine ⟨name, d', ?_⟩
    unfold compile layout levels
    rw [hfirst]
    rfl
  all_goals
    have hmem := hcomplete user d ⟨r.waits, ?_, waits_of_mentions hd hne⟩
    · rw [mem_nodes_dependencies] at hmem
      exact (hmem.elim hprior hdeclared).elim
    · rw [of?_dependencies, show plan.declaration.resources.get? user = some r from hr]
      rfl

end Plan

/-! ### What is read -/

namespace Compilation

variable {plan : Plan} {W : Type} {c : Compilation plan} {types : Registry W} {w : W} {n : Nat}

theorem Reaches.declared_of_putAside (hd : c.Distinct) {place : Place}
    (h : c.Reaches types w n place) {ra : Resource × Action} (hra : ra ∈ c.actions)
    (hmem : ra.1.did .markDeletable ∈
      c.achieved place ra ((c.after types w n).memory.decisions.get? ra.1.name)) :
    ra.1.name ∈ plan.declaration.resources.keys := by
  obtain ⟨t, -, s, ⟨hreached, hfaces, -, -⟩, hrecord⟩ := h.does_of_mem_achieved hra hmem
  obtain ⟨hop, -⟩ := ResourceOp.record_inj.1 hrecord
  obtain ⟨-, hupdate, -⟩ := putAside_of_faces hd hfaces hreached.stands.2 hop.symm
  exact declared_of_action hra (by rw [hupdate]; nofun)

/-- What is no longer declared is deleted where its level is over, if its deletion is not put
off. -/
theorem confirmed_of_past {k : Nat} {ra gone : Resource × Action} {routine : Routine}
    {before rest : List Instruction} {K : Known} {d : Option Decision}
    (hpast : c.past k gone.1.name = [.start, .check]) (hdelete : gone.2 = .delete)
    (hnow : gone.1.schema.deleteAtEnd = false) :
    ResourceOp.checkDelete.record gone.1.name ∈
      c.achieved (.routine k ra routine before rest K) gone d := by
  refine List.mem_append_left _ ?_
  show _ ∈ (c.past k gone.1.name).flatMap _
  rw [hpast, hdelete]
  simp [Resource.work, hnow, Resource.did]

/-- **Where a declared resource is read, nothing is tracked under the name of what it refers to
and what is no longer declared, unless its deletion is put off.** -/
theorem untracked_of_reads (hd : c.Distinct)
    (htypes : ∀ t ∈ plan.declaration.catalog.keys, t ∈ types.keys) {gone : Resource × Action}
    (hgone : gone ∈ c.actions) (hdelete : gone.2 = .delete)
    (hnow : gone.1.schema.deleteAtEnd = false)
    (haside : ∀ owner ∈ plan.declaration.resources.keys, gone.1.name ≠ deletable owner)
    {user : String} {r : Resource} (hr : plan.declaration.get? user = some r)
    (hrefers : gone.1.name ∈ Expr.mentionsFields r.properties)
    (hreads : Run.Reads c.program (c.after types w n) user) :
    (c.after types w n).memory.remoteIds.get? gone.1.name = none := by
  obtain ⟨k, ra, routine, i, before, rest, K, hreaches, hi, rfl⟩ :=
    routine_of_reads hd htypes hreads
  have hroutine : c.InRoutine k ra routine before (i :: rest) K (c.after types w n).memory :=
    hreaches.stands.1
  obtain ⟨hphase, haction, -⟩ := start_of_reads hroutine hi
  have hdeclared := (c.planned hroutine.planned).declared haction
  obtain rfl : r = ra.1 := Option.some.inj (hr.symm.trans hdeclared)
  have hundeclared : gone.1.name ∉ plan.declaration.resources.keys :=
    Entries.get?_eq_none_iff.1 ((c.planned hgone).undeclared hdelete)
  have hne : gone.1.name ≠ ra.1.name := by
    intro heq
    rw [heq] at hundeclared
    exact hundeclared (Table.mem_keys_of_get? hdeclared)
  -- Its check comes before the start of what refers to it.
  have hpast : c.past k gone.1.name = [.start, .check] := by
    have hearlier : Earlier c.levels gone.1.name ra.1.name :=
      earlier_of_dependsOn (dependsOn_of_waits hr (Plan.waits_of_mentions hrefers hne)) hne
    obtain ⟨j, hj⟩ := List.getElem?_of_mem (mem_schedule.2 (mem_names_of_mem hgone) :
      (gone.1.name, Phase.check) ∈ c.schedule)
    have hscheduled := hroutine.scheduled
    rw [hphase] at hscheduled
    exact past_of_checked (forward_lt hearlier (by decide) (by decide) hj hscheduled) hj
      (by decide) hscheduled
  rcases hreaches.free_or_clears hd htypes hundeclared (hreaches.pos nofun) with
    hfree | ⟨rb, hrb, hahead, ⟨-, hname⟩ | ⟨hputAside, hname⟩⟩
  · exact hfree
  · obtain rfl := eq_of_name_eq hrb hgone hname
    exact absurd (confirmed_of_past hpast hdelete hnow) hahead
  · exact absurd hname.symm (haside _ (hreaches.declared_of_putAside hd hrb hputAside))

end Compilation

/-- **Which references are refused, and what is read of those to what is deleted.**  A plan is
refused for an unknown dependency exactly where a declared resource refers, at any depth, to a
name that is neither declared nor tracked.  Of what the program deletes no output is available
in any state of any run, so nothing that is read comes to one, the identifier apart; and where
keys and labels are distinct and the deletion is not put off, the identifier is read as
`null`. -/
theorem Plan.references_exact (plan : Plan) :
    (∀ user d, plan.compile = .error (.unknownDependency user d) → plan.Misses user d) ∧
    (∀ user d, plan.Misses user d →
      ∃ user' d', plan.compile = .error (.unknownDependency user' d')) ∧
    ∀ p, plan.compile = .ok p → ∃ c : Compilation plan, c.program = p ∧
      ∀ gone ∈ c.actions, gone.2 = .delete →
        ∀ {W : Type} (types : Registry W) (w : W) (n : Nat),
          let r := Run.steps p types n (Run.fresh w)
          (∀ field, field ≠ remoteIdField → r.memory.outputValue ⟨gone.1.name, field⟩ =
            .error (.outputUnavailable gone.1.name field)) ∧
          (∀ a v field, p.tables.rom.resolve r.memory.outputValue a = .ok v →
            p.tables.rom.Holds a ⟨gone.1.name, field⟩ → field = remoteIdField) ∧
          (c.Distinct → (∀ t ∈ plan.declaration.catalog.keys, t ∈ types.keys) →
            gone.1.schema.deleteAtEnd = false →
            (∀ owner ∈ plan.declaration.resources.keys, gone.1.name ≠ deletable owner) →
            ∀ user x, plan.declaration.get? user = some x →
              gone.1.name ∈ Expr.mentionsFields x.properties → Run.Reads p r user →
              r.memory.outputValue ⟨gone.1.name, remoteIdField⟩ = .ok .null) := by
  refine ⟨fun _ _ => misses_of_unknown, fun _ _ => unknown_of_misses, fun p hp => ?_⟩
  obtain ⟨c, rfl⟩ := Compilation.compile_eq_ok.1 hp
  refine ⟨c, rfl, fun gone hgone hdelete W types w n => ?_⟩
  have hnone (field : String) (hfield : field ≠ remoteIdField) :
      (Run.steps c.program types n (Run.fresh w)).memory.outputValue ⟨gone.1.name, field⟩ =
        .error (.outputUnavailable gone.1.name field) := by
    have hstocked := Compilation.stocked_steps c types w n
    have hmissing : gone.1.name ∉
        (Run.steps c.program types n (Run.fresh w)).memory.outputs.keys := fun hmem =>
      Entries.get?_eq_none_iff.1 ((c.planned hgone).undeclared hdelete) (hstocked _ hmem)
    unfold Memory.outputValue
    rw [if_neg hfield, show Table.get? _ gone.1.name = none from
      Entries.get?_eq_none_iff.2 hmissing]
  refine ⟨hnone, fun a v field hv hholds => ?_, ?_⟩
  · by_contra hfield
    obtain ⟨x, hx⟩ := Rom.output_of_resolveWithin_ok hv hholds
    rw [hnone field hfield] at hx
    cases hx
  · intro hd htypes hnow haside user x hx hrefers hreads
    have hget : (Run.steps c.program types n (Run.fresh w)).memory.remoteIds.get? gone.1.name =
        none := Compilation.untracked_of_reads hd htypes hgone hdelete hnow haside hx hrefers hreads
    unfold Memory.outputValue
    rw [if_pos rfl, hget]
    rfl

/-- A resource that refers to the identifier of another one. -/
def leaningResource (late : Bool) : Resource :=
  ⟨"new", "file", plainSchema late, [("name", .output ⟨"old", remoteIdField⟩)]⟩

/-- It is declared, and what it refers to is tracked and no longer declared. -/
def leaningPlan (late : Bool) : Plan where
  declaration := {
    catalog := Table.ofList [("file", plainSchema late)]
    resources := Table.ofList [("new", leaningResource late)]
    declared := by
      intro e he
      obtain rfl := List.mem_singleton.1 (Entries.mem_of_mem_ofList he)
      refine ⟨rfl, rfl, by cases late <;> rfl, ?_⟩
      cases late <;> simp [leaningResource, Entries.keys, plainSchema, Schema.settable] }
  prior := Table.ofList [("old", ⟨.str "old", "file", []⟩)]
  createMissing := false

theorem mem_actions_leaning {late : Bool} (c : Compilation (leaningPlan late)) :
    (Compilation.goneResource (leaningPlan late) ("old", ⟨.str "old", "file", []⟩), .delete) ∈
      c.actions := by
  rw [Compilation.eq_append_of_actions c.actions_eq]
  refine List.mem_append_left _ (List.mem_map.2
    ⟨_, List.mem_filter.2 ⟨List.mem_cons_self, ?_⟩, rfl⟩)
  cases late <;> decide +kernel

/-- The identifier of what was deleted before is read as `null`. -/
theorem references_exact_leaning :
    ∃ p, (leaningPlan false).compile = .ok p ∧
      (Run.steps p (plainTypes false) 24 (Run.fresh ())).memory.outputValue
        ⟨"old", remoteIdField⟩ = .ok .null := by
  obtain ⟨-, -, hrun⟩ := (leaningPlan false).references_exact
  obtain ⟨c, hc, hgone⟩ := hrun _ rfl
  have hdistinct : c.Distinct :=
    Compilation.distinct_of_actions rfl (by decide +kernel) (by decide +kernel)
  obtain ⟨-, -, hnull⟩ := hgone _ (mem_actions_leaning c) rfl (plainTypes false) () 24
  refine ⟨_, rfl, hnull hdistinct ?_ rfl ?_ "new" (leaningResource false) rfl ?_ ?_⟩
  · decide +kernel
  · decide +kernel
  · decide +kernel
  · exact .value (by decide +kernel) (by decide +kernel)

/-- No declared resource refers to what the program deletes. -/
def Compilation.Unleaning {plan : Plan} (c : Compilation plan) : Prop :=
  ∀ user r, plan.declaration.get? user = some r → ∀ gone ∈ c.actions, gone.2 = .delete →
    gone.1.name ∉ Expr.mentionsFields r.properties

/-- A plan is accepted in which a resource refers to what is deleted; if the deletion is put
off, the identifier of what is going to be deleted is read. -/
theorem not_unleaning_leaning :
    ∃ p, (leaningPlan true).compile = .ok p ∧
      (∀ c : Compilation (leaningPlan true), ¬ c.Unleaning) ∧
      let r := Run.steps p (plainTypes true) 14 (Run.fresh ())
      Run.Reads p r "new" ∧ p.tables.rom.Holds "new" ⟨"old", remoteIdField⟩ ∧
        r.memory.outputValue ⟨"old", remoteIdField⟩ = .ok (.str "old") := by
  refine ⟨_, rfl, fun c h => ?_, .value (by decide +kernel) (by decide +kernel),
    ⟨"new.name", .single ⟨_, rfl, by decide +kernel⟩, rfl⟩, by decide +kernel⟩
  exact h "new" (leaningResource true) rfl _ (mem_actions_leaning c) rfl (by decide +kernel)

end Provisioning
