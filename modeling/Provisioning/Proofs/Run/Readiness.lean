/-
Runs that nothing stops.

A run is prepared if its providers refuse nothing but what they may, what it finds in order
stays in order, and what it is going to read is there or is looked for first.  Then each
operation is ready when it comes next: what is created is free, what is read or checked is
there, what is compared can be read, and what is updated was compared.  So no step stops the
run, and as nothing waits it comes to the end of its program, where every declared resource
has an object that is as declared.
-/
import Provisioning.Proofs.Run.Room
import Provisioning.Proofs.Run.Termination

namespace Provisioning

/-! ### Where operations stand in a word -/

namespace Resource

variable {r : Resource} {createMissing : Bool} {action : Action} {d : Option Decision}
  {os : List Operation} {name : String}

theorem read_of_isPrefix
    (h : os ++ [ResourceOp.read.record name] <+: r.word createMissing action d) :
    name = r.name ∧ action = .update ∧ os = r.probing createMissing := by
  cases letter_of_isPrefix h with
  | read => exact ⟨rfl, rfl, rfl⟩

theorem inOrder_of_isPrefix {op : ResourceOp} (hop : op = .checkCreate ∨ op = .checkUpdate)
    (h : os ++ [op.record name] <+: r.word createMissing action d) :
    name = r.name ∧ action ≠ .delete ∧ r.standing os = .inOrder := by
  rcases hop with rfl | rfl
  · cases letter_of_isPrefix h with
    | checkCreate => exact ⟨rfl, nofun, standing_create r []⟩
    | checkMissing | checkReplaced => exact ⟨rfl, nofun, standing_create r _⟩
  · cases letter_of_isPrefix h with
    | checkModify => exact ⟨rfl, nofun, standing_update r _⟩

/-- Where an update looks for the object or reads it, it has not touched it. -/
theorem untouched_of_isPrefix {op : ResourceOp} (hop : op = .checkExist ∨ op = .read)
    (h : os ++ [op.record name] <+: r.word createMissing action d) :
    action = .update ∧ ∀ op' : ResourceOp, op'.touches = true → op'.record r.name ∉ os := by
  rcases hop with rfl | rfl
  · cases letter_of_isPrefix h with
    | probe => exact ⟨rfl, nofun⟩
  · cases letter_of_isPrefix h with
    | read =>
      refine ⟨rfl, fun op' hop' hmem => ?_⟩
      obtain ⟨rfl, -, -⟩ := mem_probing.1 hmem
      cases hop'

theorem filter_notMem_word : ResourceOp.filter.record name ∉ r.word createMissing action d := by
  intro h
  obtain ⟨os, hletter⟩ := exists_letter h
  cases hletter

theorem before_of_read {before rest : List Instruction}
    (h : (r.piece createMissing .update).body = before ++ .resource .read :: rest) :
    before = (.clear :: if createMissing then Emit.probe r else []) ++
      Emit.load r.name r.typeId := by
  have hbody : (r.piece createMissing .update).body =
      ((.clear :: if createMissing then Emit.probe r else []) ++ Emit.load r.name r.typeId) ++
        .resource .read :: (Emit.onResource r .rescmp ++ Emit.branch r .recreate .recreate ++
          Emit.branch r .modify .modify ++ [.ret]) := by
    simp [Resource.piece, Subroutine.body, Resource.script, Emit.reconcile, Emit.onResource]
  rw [hbody] at h
  refine ((List.append_cons_inj_of_notMem ?_ ?_).1 h).1.symm
  · cases createMissing <;> simp [Emit.probe, Emit.onResource, Emit.load]
  · simp [Emit.onResource, Emit.load, Emit.branch]

end Resource

namespace Compilation

variable {plan : Plan} {W : Type} {c : Compilation plan} {types : Registry W} {S : Store W} {w : W}
  {names : String → Prop} {n k : Nat} {place : Place} {ra : Resource × Action} {routine : Routine}
  {before rest : List Instruction} {K : Known} {s : Staged W}

/-- A run that nothing stops: what is read is there or looked for first, and where something is
put aside already, the object is in order. -/
structure Prepared (c : Compilation plan) (types : Registry W) (S : Store W) (w : W)
    (names : String → Prop) : Prop where
  setting : c.Setting types S w
  obliging : S.Obliging types
  steady : c.Steady S (c.after types w 1) names
  there : ∀ ra ∈ c.actions, ra.2 = .update → ra.1.object S (c.after types w 1) ≠ none ∨
    (plan.createMissing = true ∧ ra.1.schema.needsRemoteId = true)
  aside : ∀ ra ∈ c.actions, ra.2 = .update → deletable ra.1.name ∈ plan.prior.keys →
    names ra.1.name

theorem exists_properties {m : Memory} (h : c.Faces types k ra routine before rest K s m)
    (hop : "properties" ∈ s.op.objects) :
    ∃ properties, m.requireObject s.op.name "properties" = .ok properties := by
  cases h.inRoutine.checked with
  | step ht _ =>
    cases ht with
    | operation _ _ _ hobjects => exact h.inRoutine.fits.requireObject (hobjects _ hop) _

section

variable (h : c.Setting types S w)
  (hreaches : c.Reaches types w n (.routine k ra routine before (.resource s.op :: rest) K))
  (hfaces : c.Faces types k ra routine before rest K s (c.after types w n).memory)

include h hreaches

/-- The declared fields that are staged in a start are values. -/
theorem Setting.sound_properties (hop : s.op = .create ∨ s.op = .update)
    (hphase : routine.phase = .start) (haction : ra.2 ≠ .delete) {properties : Properties}
    (hproperties : (c.after types w n).memory.requireObject s.op.name "properties" =
      .ok properties) :
    c.program.tables.rom.resolve (fun o => .ok (plan.actual S (c.after types w n) o)) ra.1.name =
        .ok (.obj properties) ∧ ∀ e ∈ properties, e.2.Sound := by
  have hroutine : c.InRoutine k ra routine before _ K _ := hreaches.stands.1
  have hscheduled := hroutine.scheduled
  rw [hphase] at hscheduled
  exact h.resolve_now hreaches hphase haction
    ((hreaches.faithful h).2 ⟨_, .start, by decide, hscheduled⟩) (hreaches.properties hop hproperties)

include hfaces

theorem Reaches.kept_of_looks (hop : s.op = .checkExist ∨ s.op = .read) :
    ra.1.Kept S (c.after types w 1) (c.after types w n) := by
  have hra := hfaces.inRoutine.planned
  obtain ⟨d, -, -, hprefix⟩ := possible_of_faces h.distinct hfaces hreaches.stands.2
  obtain ⟨hupdate, huntouched⟩ := Resource.untouched_of_isPrefix hop hprefix
  rcases hreaches.kept_or_turned h hra (by rw [hupdate]; nofun) (hreaches.pos nofun) with
    hkept | ⟨_, _, _, _, hplace⟩ | ⟨op', hop', hmem⟩
  · exact hkept
  · have hroutine : routine = .update := by
      have hmem : .resource s.op ∈ (ra.1.piece plan.createMissing routine).body := by
        rw [hfaces.inRoutine.body]
        simp
      exact Resource.update_of_looks (hop.imp_right .inl) hmem
    injection hplace with _ _ hmissing
    cases hroutine.symm.trans hmissing
  · exact absurd hmem (huntouched op' hop')

omit h hreaches in
/-- What is asked about is the object of the resource, where the resource itself is staged. -/
theorem held_of_faces (hname : s.name = ra.1.name) :
    S.held (c.after types w n).world s.typeId ((c.after types w n).memory.remoteId s.name) =
      ra.1.object S (c.after types w n) := by
  rw [hfaces.serves.typeId, hname]
  rfl

end

/-- What a probe behind which a run has gone on was told: the object was there. -/
theorem found_of_probe {K' : Known} (h : c.Setting types S w)
    (hadvances : c.Advances types (c.after types w n) (c.after types w (n + 1))
      (.routine k ra routine before (.resource .checkExist :: rest) K)
      (.routine k ra routine (before ++ [.resource .checkExist]) rest K'))
    (hneeds : ra.1.schema.needsRemoteId = true)
    (hresult : (c.after types w (n + 1)).memory.temp.get? Memory.resultKey = some (.int 1)) :
    ra.1.object S (c.after types w n) ≠ none := by
  obtain ⟨s, m, hop, hfaces, -, hperformed, hmemory⟩ :=
    hadvances.performed h.distinct h.registered
  have hname : s.name = ra.1.name :=
    checkExist_of_faces h.distinct hfaces hadvances.running hop
  have hkeeps := keeps_of_faces h.serves hfaces
  have hschema := schema_of_faces h.covers hfaces
  rw [hmemory] at hresult
  rcases hperformed.of_checkExist hop with ⟨p, found, hp, hask, rfl, -⟩ | ⟨hpresumed, -, -⟩
  · have hflag : (some (Json.int (if found then 1 else 0)) : Option Json) = some (.int 1) :=
      ((Entries.get?_set _ _ _ _).trans (if_pos rfl)).symm.trans hresult
    have hfound := (hkeeps _ hp).found hask
    rw [held_of_faces hfaces hname] at hfound
    cases found with
    | false => exact absurd hflag (by decide)
    | true =>
      intro hnone
      rw [hnone] at hfound
      cases hfound
  · rw [hschema, hneeds] at hpresumed
    cases hpresumed

/-- **Where something is read that was looked for first, it was found.** -/
theorem Reaches.found_of_read (h : c.Setting types S w)
    (hreaches : c.Reaches types w n (.routine k ra routine before (.resource .read :: rest) K))
    (hmissing : plan.createMissing = true) (hneeds : ra.1.schema.needsRemoteId = true) :
    ∃ t < n, ∃ before' rest' K',
      c.Reaches types w t (.routine k ra .update before' (.resource .checkExist :: rest') K') ∧
        ra.1.object S (c.after types w t) ≠ none := by
  have hroutine : c.InRoutine k ra routine before _ K _ := hreaches.stands.1
  have hmem : .resource .read ∈ (ra.1.piece plan.createMissing routine).body := by
    rw [hroutine.body]
    simp
  obtain rfl := Resource.update_of_looks (.inr (.inl rfl)) hmem
  obtain rfl := Resource.before_of_read hroutine.body
  rw [if_pos hmissing] at hreaches
  have hsplit : .clear :: Emit.probe ra.1 =
      (.clear :: Emit.load ra.1.name ra.1.typeId) ++ [.resource .checkExist] ++ [.invert] ++
        [.gotoIf (.label (Routine.missingCreate.label ra.1.name))] := by
    simp [Emit.probe, Emit.onResource]
  rw [hsplit] at hreaches
  -- The run came from the jump that was not made, the test and the probe.
  obtain ⟨t₃, K₃, rfl, hreached₃, -⟩ := hreaches.loaded (by
    rintro op later heq
    obtain rfl := Instruction.resource.inj (List.cons.inj heq).1
    rfl)
  obtain ⟨t₂, K₂, rfl, hreached₂, hadvances₂⟩ := hreached₃.just (by simp [Emit.load])
  obtain ⟨t₁, K₁, rfl, hreached₁, hadvances₁⟩ := hreached₂.just (by simp)
  obtain ⟨t, K₀, rfl, hreached, hadvances⟩ := hreached₁.just (by simp)
  obtain ⟨b, hresult, hresult'⟩ := result_of_invert hreached₁.stands.1 hadvances₁.executes
  have hb : b = true := by
    obtain ⟨-, m, hexecute, -⟩ := hadvances₂.executes.executed
    obtain ⟨start, -, hlabel⟩ := label_eq h.distinct hroutine.planned
      (needed_of_gotoIf hreached₂.stands.1).1
    rw [Resource.execute_gotoIf hresult' hlabel] at hexecute
    cases b with
    | true => rfl
    | false => cases congrArg Outcome.flow hexecute
  subst hb
  exact ⟨t, by omega, _, _, _, hreached, found_of_probe h hadvances hneeds hresult⟩

/-! ### Operations are ready -/

section

variable (h : c.Prepared types S w names)
  (hreaches : c.Reaches types w n (.routine k ra routine before (.resource s.op :: rest) K))
  (hfaces : c.Faces types k ra routine before rest K s (c.after types w n).memory)

include h hreaches hfaces

theorem Prepared.read_there (hop : s.op = .read) : ra.1.object S (c.after types w n) ≠ none := by
  have hkept := hreaches.kept_of_looks h.setting hfaces (.inr hop)
  obtain ⟨d, -, -, hprefix⟩ := possible_of_faces h.setting.distinct hfaces hreaches.stands.2
  obtain ⟨hupdate, -⟩ := Resource.untouched_of_isPrefix (.inr hop) hprefix
  rw [hkept.object]
  rcases h.there ra hfaces.inRoutine.planned hupdate with hthere | ⟨hmissing, hneeds⟩
  · exact hthere
  · rw [hop] at hreaches
    obtain ⟨t, ht, before', rest', K', hreached, hfound⟩ :=
      hreaches.found_of_read h.setting hmissing hneeds
    have hroutine : c.InRoutine k ra .update before' _ K' _ := hreached.stands.1
    cases hroutine.checked with
    | step htyped _ =>
      obtain ⟨s', hop', hfaces', -⟩ := exists_faces h.setting.registered hroutine htyped
      rw [← hop'] at hreached
      rwa [(hreached.kept_of_looks h.setting hfaces' (.inl hop')).object] at hfound

theorem Prepared.free (hop : s.op = .markDeletable) :
    (c.after types w n).memory.remoteId (deletable s.name) = none := by
  have hra := hfaces.inRoutine.planned
  obtain ⟨hname, hupdate, -⟩ :=
    putAside_of_faces h.setting.distinct hfaces hreaches.stands.2 hop
  have hwanted : ra.2 ≠ .delete := by rw [hupdate]; nofun
  have hundeclared : deletable ra.1.name ∉ plan.declaration.resources.keys := fun hmem =>
    h.setting.apart _ hmem _ (declared_of_action hra hwanted) rfl
  rw [hname]
  rcases hreaches.free_or_clears h.setting.distinct h.setting.registered hundeclared
    (hreaches.pos nofun) with hfree | ⟨rb, hrb, hahead, ⟨hdelete, haside⟩ | ⟨hmem, haside⟩⟩
  · unfold Memory.remoteId
    rw [hfree]
    rfl
  · -- What is tracked there is left from before, so the object itself is in order.
    have htracked : deletable ra.1.name ∈ plan.prior.keys := by
      rw [← haside]
      exact Table.contains_iff.1 ((c.planned hrb).tracked.2 (by rw [hdelete]; nofun))
    have hpeeks := h.steady.peeks_of_faces h.setting hreaches hfaces hwanted
      (h.aside ra hra hupdate htracked) (h.steady.kept_before h.setting hreaches)
    rw [hop] at hpeeks
    cases hpeeks
  · -- Nothing is put aside twice.
    obtain rfl := eq_of_name_eq hrb hra (deletable_inj haside)
    have hnodup := (possible_of_faces h.setting.distinct hfaces hreaches.stands.2).nodup
    rw [hop, hname] at hnodup
    rw [hop] at hmem
    exact absurd rfl ((List.nodup_append.1 hnodup).2.2 _ hmem _ List.mem_cons_self)

/-- What is written was compared before, so nothing immutable would change. -/
theorem Prepared.ready_update (hop : s.op = .update) : s.Ready S c.program.tables.rom
    (c.after types w n).memory (c.after types w n).world := by
  have hsetting := h.setting
  obtain ⟨d, -, hwork⟩ := mem_work_of_faces hfaces
    (running_of_stands hsetting.distinct hreaches.stands.1 nofun hreaches.stands.2)
  obtain ⟨hname, hupdate, object, fields, hobject, hfields, hcompare⟩ :=
    judged_of_update hsetting.distinct hfaces hreaches.stands.2 hop
      ((hreaches.faithful hsetting).1 ra hfaces.inRoutine.planned)
  have haction : ra.2 ≠ .delete := by rw [hupdate]; nofun
  rw [hop, hname] at hwork
  obtain ⟨properties, hproperties⟩ := exists_properties hfaces (by rw [hop]; decide)
  obtain ⟨hnow, hsound⟩ := hsetting.sound_properties hreaches (.inr hop)
    (Resource.start_of_touches haction hwork rfl) haction hproperties
  obtain rfl : properties = fields := Json.obj.inj (Except.ok.inj (hnow.symm.trans hfields))
  refine .update hop hproperties hsound ((held_of_faces hfaces hname).trans hobject) ?_
  rw [schema_of_faces hsetting.covers hfaces]
  exact fun f hf want hwant => Schema.same_of_compare (by rw [hcompare]; nofun) hf hwant

/-- **Each operation is ready when it comes next.** -/
theorem Prepared.ready : s.Ready S c.program.tables.rom (c.after types w n).memory
    (c.after types w n).world := by
  have hsetting := h.setting
  have hra := hfaces.inRoutine.planned
  have hrunning : (c.after types w n).memory.halted c.program.size = false :=
    running_of_stands hsetting.distinct hreaches.stands.1 nofun hreaches.stands.2
  obtain ⟨d, -, hvd, hprefix⟩ := possible_of_faces hsetting.distinct hfaces hreaches.stands.2
  obtain ⟨d', -, hwork⟩ := mem_work_of_faces hfaces hrunning
  have hheld := fun hname => held_of_faces (S := S) hfaces hname
  cases hop : s.op with
  | create =>
    obtain ⟨hname, haction, -⟩ :=
      create_of_faces hsetting.distinct hfaces hreaches.stands.2 hop
    obtain ⟨properties, hproperties⟩ := exists_properties hfaces (by rw [hop]; decide)
    rw [hop] at hwork
    obtain ⟨-, hsound⟩ := hsetting.sound_properties hreaches (.inl hop)
      (Resource.start_of_mem_work hwork) haction hproperties
    refine .create hop hproperties hsound fun _ => ?_
    unfold Memory.remoteId
    rw [hname, hreaches.unset hsetting hfaces hop]
    rfl
  | read =>
    rw [hop] at hprefix
    obtain ⟨hname, -⟩ := Resource.read_of_isPrefix hprefix
    exact .look (.inl hop) (hheld hname ▸ h.read_there hreaches hfaces hop)
  | checkCreate | checkUpdate =>
    obtain ⟨hname, haction, hstanding⟩ :=
      Resource.inOrder_of_isPrefix (by rw [hop]; simp) hprefix
    obtain ⟨object, hobject⟩ := ((hreaches.faithful hsetting).1 ra hra haction).exists_object
      (by rw [hstanding]; nofun)
    refine .look (by rw [hop]; simp) ?_
    rw [hheld hname, hobject]
    nofun
  | update => exact h.ready_update hreaches hfaces hop
  | markDeletable => exact .putAside hop (h.free hreaches hfaces hop)
  | rescmp =>
    have hname := hfaces.rescmp hop
    rw [hop] at hreaches
    obtain ⟨fields, hresolve⟩ := resolve_of_reads hsetting.distinct hsetting.covers
      hsetting.selfContained hreaches rfl
    obtain ⟨object, -, hcurrent⟩ :=
      hreaches.current (S := S) hsetting.distinct hsetting.covers hsetting.serves
    refine .compare hop (d := compare s.kind.schema (ra.1.schema.current object) fields) ?_
    unfold Staged.decide Memory.requireObject Memory.require
    rw [hname, hresolve, hcurrent]
    rfl
  | delete => exact .always (.inl hop)
  | checkDelete => exact .always (.inr (.inl hop))
  | checkExist => exact .always (.inr (.inr hop))
  | filter =>
    have hmem := hprefix.subset (List.mem_append_right _ List.mem_cons_self)
    rw [hop] at hmem
    exact absurd hmem Resource.filter_notMem_word

end

/-! ### To the end -/

theorem not_stays (h : c.Setting types S w) (n : Nat) :
    (c.after types w n).stays c.program types = false := by
  by_contra hstays
  rw [Bool.not_eq_false] at hstays
  obtain ⟨s, hi, hstaged, hawaits, -⟩ := awaits_of_stays h.distinct h.registered hstays
  have hrunning := Run.running_of_stays hstays
  obtain ⟨place, hreaches⟩ := exists_reaches h.distinct h.registered hrunning
  obtain ⟨k, ra, routine, before, rest, K, s', hop, rfl, hfaces⟩ :=
    faces_of_instruction h.distinct h.registered hreaches.stands.1 hrunning hi
  have hstaged' := hfaces.staged
  rw [hop, hstaged] at hstaged'
  obtain rfl : s = s' := Except.ok.inj hstaged'
  have hkeeps := keeps_of_faces h.serves hfaces
  generalize Run.exchanges c.program types (c.after types w n) = es at hawaits
  cases hawaits with
  | change _ hp hask => cases (hkeeps _ hp).complete hask
  | delete _ hp hask => cases (hkeeps _ hp).deleteComplete hask

section

variable (h : c.Prepared types S w names)

include h

/-- **No step stops a run that is prepared.** -/
theorem Prepared.not_stops {r : Run W} (hreaches : c.Reaches types w n place) :
    ¬ c.Stops types (c.after types w n) place r := by
  intro hstops
  have hsetting := h.setting
  cases hstops with
  | @fault k ra routine i before rest K K' f temp w' hroutine htyped hfoils hexecute =>
    cases hop : i.isResourceOp with
    | false =>
      rcases hfoils with ⟨hi, -⟩ | ⟨hreads, -, herror⟩
      · rw [hop] at hi
        cases hi
      · obtain ⟨fields, hok⟩ := resolve_of_reads hsetting.distinct hsetting.covers
          hsetting.selfContained hreaches hreads
        cases hok.symm.trans herror
    | true =>
      cases i with
      | resource op =>
        obtain ⟨s, rfl, hfaces, -⟩ := exists_faces hsetting.registered hroutine htyped
        rw [execute_of_faces hfaces] at hexecute
        have hready := h.ready hreaches hfaces
        obtain ⟨p, hp, hkeeps⟩ := hsetting.serves _ _ hfaces.serves.kind
        have hprovider : s.provider = .ok p := by
          unfold Staged.provider Kind.provides
          rw [hp]
        have hobliges := h.obliging _ _ _ hfaces.serves.kind hp
        rw [← hfaces.serves.typeId] at hobliges
        exact hready.ne_fault hprovider (keeps_of_faces hsetting.serves hfaces _ hprovider)
          hobliges (congrArg Outcome.flow hexecute)
      | _ => cases hop

theorem Prepared.reaches_halted : ∃ n, c.Reaches types w n .halted := by
  have hsetting := h.setting
  have hsettles : Settles c.program types w := fun t _ hstays _ =>
    absurd ((not_stays hsetting t).symm.trans hstays) Bool.false_ne_true
  obtain ⟨n, hended⟩ := ends_of_settles hsetting.distinct hsetting.registered hsettles
  have hstage : c.Stage types w n := stage_steps hsetting.distinct hsetting.registered w n
  cases hstage with
  | @running place hreaches =>
    by_cases hplace : place = .halted
    · exact ⟨n, hplace ▸ hreaches⟩
    · have hrunning : (c.after types w n).ended c.program = false :=
        running_of_stands hsetting.distinct hreaches.stands.1 hplace hreaches.stands.2
      cases hrunning.symm.trans hended
  | halted _ hreaches => exact ⟨_, hreaches⟩
  | stopped _ hreaches hstops => exact absurd hstops (h.not_stops hreaches)

end

/-! ### What is as declared -/

/-- A declared resource is settled: its object is known to be as declared. -/
def Settled (c : Compilation plan) (place : Place) (ra : Resource × Action)
    (d : Option Decision) : Prop :=
  ra.1.standing (c.achieved place ra d) = .inOrder ∨
    (ra.1.standing (c.achieved place ra d) = .compared ∧ d = some .noChange)

theorem Settled.judged {r : Run W} (hstood : c.Stood S r place ra)
    (h : c.Settled place ra (r.memory.decisions.get? ra.1.name)) : c.Judged S r ra.1 .noChange := by
  rcases h with hinOrder | ⟨hcompared, hdecided⟩
  · cases hstood with
    | inOrder _ hjudged => exact hjudged
    | unknown heq | there heq | compared heq => exact absurd (heq.symm.trans hinOrder) nofun
  · cases hstood with
    | compared _ hdecided' hjudged =>
      obtain rfl := Option.some.inj (hdecided'.symm.trans hdecided)
      exact hjudged
    | unknown heq | there heq | inOrder heq => exact absurd (heq.symm.trans hcompared) nofun

/-- **At the end, every declared resource has an object that is as declared.** -/
theorem Reaches.judged_of_halted (h : c.Setting types S w) (hreaches : c.Reaches types w n .halted)
    (hra : ra ∈ c.actions) (haction : ra.2 ≠ .delete) :
    c.Judged S (c.after types w n) ra.1 .noChange := by
  refine Settled.judged ((hreaches.faithful h).1 ra hra haction) ?_
  unfold Settled
  rw [achieved_halted hra]
  exact Resource.standing_word ra.1 haction (hreaches.settled_of_halted hra)

end Compilation

end Provisioning
