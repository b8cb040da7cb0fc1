/-
Deletions that are put off.

The driver makes its calls in the order of the schedule and waits for each to return, so where
a routine of a late phase runs, every call of an earlier entry of the schedule has returned.  An
object of a type whose deletion is put off is deleted in the commit, and that lies behind the
forward part: by then every resource is started and checked, and a replacement is created and
its creation confirmed.

The backward part goes from later levels to earlier ones.  So what depends on a resource has
been through its commit and its finish before the commit of the resource begins, and in the
backward part nothing happens to an identifier but that its deletion is confirmed: the one that
was deleted is the one that is confirmed to be gone.
-/
import Provisioning.Proofs.Run.Custody
import Provisioning.Proofs.Run.Law

namespace Provisioning

namespace Compilation

variable {plan : Plan} {W : Type} {c : Compilation plan} {types : Registry W} {w : W}

/-- In step `t`, a routine of `owner` has an object deleted whose type puts that off. -/
structure DeletesLate (c : Compilation plan) (types : Registry W) (w : W) (t : Nat)
    (owner : String) (o : Operation) (e : Exchange) : Prop where
  owned : c.layout.owner? (Run.steps c.program types t (Run.fresh w)).memory.programCounter =
    some owner
  hears : Run.Hears c.program types (Run.steps c.program types t (Run.fresh w)) o e
  request : e.request = .delete
  late : ∃ schema, plan.declaration.catalog.get? e.typeId = some schema ∧
    schema.deleteAtEnd = true

/-! ### Deletions that are put off -/

section

variable {t : Nat} {owner : String} {o : Operation} {e : Exchange}

/-- Where a deletion that was put off is made. -/
structure Commits (c : Compilation plan) (types : Registry W) (w : W) (t k : Nat)
    (ra : Resource × Action) (routine : Routine) (before rest : List Instruction) (K : Known)
    (s : Staged W) : Prop where
  reaches : c.Reaches types w t (.routine k ra routine before (.resource s.op :: rest) K)
  faces : c.Faces types k ra routine before rest K s (c.after types w t).memory
  op_eq : s.op = .delete
  scheduled : c.schedule[k]? = some (ra.1.name, .commit)
  late : ra.1.schema.deleteAtEnd = true
  /-- The resource itself is deleted, or what it has put aside for its replacement. -/
  staged : (s.name = ra.1.name ∧ ra.2 = .delete) ∨
    (s.name = deletable ra.1.name ∧ ra.2 = .update ∧
      (c.after types w t).memory.decisions.get? ra.1.name = some .recreate)

/-- **A deletion that is put off is made in the commit.** -/
theorem DeletesLate.commits (hd : c.Distinct)
    (htypes : ∀ t ∈ plan.declaration.catalog.keys, t ∈ types.keys)
    (h : c.DeletesLate types w t owner o e) :
    ∃ k ra routine before rest K, ∃ s : Staged W,
      c.Commits types w t k ra routine before rest K s ∧ ra.1.name = owner ∧
        o = ResourceOp.delete.record s.name ∧ e.typeId = ra.1.typeId ∧
        e.id = (c.after types w t).memory.remoteId s.name := by
  obtain ⟨howned, hhears, hrequest, schema, htype, hlate⟩ := h
  obtain ⟨k, ra, routine, before, rest, K, s, hreaches, hfaces, hspeaks, ho⟩ :=
    faces_of_hears hd htypes hhears
  obtain ⟨hstands, herror⟩ := hreaches.stands
  have hrunning := running_of_stands hd hstands nofun herror
  have howner : ra.1.name = owner := by
    have heq := owner_of_stands hd hstands nofun
    exact Option.some.inj (heq.symm.trans howned)
  have hop : s.op = .delete := by
    have hasks := hspeaks.request
    rw [hrequest] at hasks
    revert hasks
    cases s.op <;> first | exact fun _ => rfl | exact fun hasks => nomatch hasks
  have hschema : ra.1.schema.deleteAtEnd = true := by
    have htyped := (c.planned hfaces.inRoutine.planned).typed
    rw [← hfaces.serves.typeId, ← hspeaks.typeId, htype] at htyped
    rw [← Option.some.inj htyped]
    exact hlate
  obtain ⟨d, hvd, hwork⟩ := mem_work_of_faces hfaces hrunning
  rw [hop] at hwork
  obtain ⟨hphase, hstaged⟩ := Resource.commit_of_mem_work hschema hwork
  have hid : e.id = (c.after types w t).memory.remoteId s.name := by
    rw [hspeaks.id, Staged.handle_of_ne (by rw [hop]; nofun)]
  refine ⟨k, ra, routine, before, rest, K, s, ⟨hreaches, hfaces, hop, ?_, hschema, ?_⟩, howner,
    hop ▸ ho, hspeaks.typeId.trans hfaces.serves.typeId, hid⟩
  · rw [← hphase]
    exact hfaces.inRoutine.scheduled
  · refine hstaged.imp id fun ⟨hname, hupdate, hrecreate⟩ => ⟨hname, hupdate, ?_⟩
    -- Behind the start the decision is made.
    have hdecided := hfaces.inRoutine.decided (by rw [hphase]; nofun) hupdate
    exact (hvd.resolve_left hdecided).trans hrecreate

theorem deletesLate_of_asked {l : Layout} (hl : plan.layout = .ok l) {typeId : String}
    {id : Option Json}
    (howned : l.owner? (Run.steps c.program types t (Run.fresh w)).memory.programCounter =
      some owner)
    (hlogged : Run.upcoming c.program (Run.steps c.program types t (Run.fresh w)).memory = [o])
    (hasked : (Run.exchanges c.program types (Run.steps c.program types t (Run.fresh w))).map
      (fun e => (e.typeId, e.id, e.request)) = [(typeId, id, .delete)])
    (hlate : ∃ schema, plan.declaration.catalog.get? typeId = some schema ∧
      schema.deleteAtEnd = true) :
    ∃ e, c.DeletesLate types w t owner o e ∧ e.typeId = typeId ∧ e.id = id := by
  obtain ⟨e, he, heq⟩ := List.map_eq_singleton_iff.1 hasked
  obtain ⟨rfl, rfl, hrequest⟩ : e.typeId = typeId ∧ e.id = id ∧ e.request = .delete := by
    simpa using heq
  refine ⟨e, ⟨?_, ⟨hlogged, ?_⟩, hrequest, hlate⟩, rfl, rfl⟩
  · rw [Except.ok.inj (c.layout_eq.symm.trans hl)]
    exact howned
  · rw [he]
    exact List.mem_cons_self

variable {k : Nat} {ra : Resource × Action} {routine : Routine} {before rest : List Instruction}
  {K : Known} {s : Staged W}

theorem Commits.returned (hd : c.Distinct)
    (h : c.Commits types w t k ra routine before rest K s) {rb : Resource × Action}
    (hrb : rb ∈ c.actions) {phase : Phase} (hphase : phase ∈ Phase.forward) :
    Returned c.program types w t ((Routine.forPhase rb.2 phase).label rb.1.name) := by
  obtain ⟨j, hj⟩ := List.getElem?_of_mem (mem_schedule.2 (mem_names_of_mem hrb) :
    (rb.1.name, phase) ∈ c.schedule)
  exact h.reaches.returned_of_lt hd nofun hrb hj
    (forward_lt_backward hphase (by decide) hj h.scheduled)

theorem Does.exists_place (hd : c.Distinct) {n : Nat} {s : Staged W} (h : c.Does types w n ra s) :
    ∃ place d phase, c.Reaches types w n place ∧
      c.schedule[c.calls place]? = some (ra.1.name, phase) ∧
      s.op.record s.name ∈ ra.1.work plan.createMissing ra.2 phase d := by
  cases h with
  | intro hreaches hfaces =>
    obtain ⟨hstands, herror⟩ := hreaches.stands
    obtain ⟨d, -, hwork⟩ :=
      mem_work_of_faces hfaces (running_of_stands hd hstands nofun herror)
    exact ⟨_, d, _, hreaches, hfaces.inRoutine.scheduled, hwork⟩

theorem Does.hears_create (hd : c.Distinct) {n : Nat} {s : Staged W} (h : c.Does types w n ra s)
    (hop : s.op = .create) :
    ∃ properties id, Run.Hears c.program types (c.after types w n) (s.op.record s.name)
      ⟨s.typeId, none, .create properties, .ok id⟩ := by
  have hhears := fun e => h.hears (e := e) hd
  cases h with
  | intro _ _ hperformed =>
    obtain ⟨properties, id, -, hexchanges⟩ := hperformed.of_create hop
    rw [hexchanges] at hhears
    exact ⟨properties, id, hhears _ List.mem_cons_self⟩

theorem Does.hears_check (hd : c.Distinct) (change : Change) {n : Nat} {s : Staged W}
    (h : c.Does types w n ra s) (hop : s.op = .check change) :
    Run.Hears c.program types (c.after types w n) (s.op.record s.name)
      ⟨s.typeId, (c.after types w n).memory.remoteId s.name, .complete change, .ok true⟩ := by
  have hhears := fun e => h.hears (e := e) hd
  cases h with
  | intro _ _ hperformed =>
    obtain ⟨fields, -, hexchanges⟩ := hperformed.of_check hop
    rw [hexchanges] at hhears
    exact hhears _ List.mem_cons_self

theorem Does.hears_checkDelete (hd : c.Distinct) {n : Nat} {s : Staged W}
    (h : c.Does types w n ra s) (hop : s.op = .checkDelete) :
    Run.Hears c.program types (c.after types w n) (s.op.record s.name)
      ⟨s.typeId, (c.after types w n).memory.remoteId s.name, .deleteComplete, .ok true⟩ := by
  have hhears := fun e => h.hears (e := e) hd
  cases h with
  | intro _ _ hperformed =>
    obtain ⟨-, hexchanges⟩ := hperformed.of_checkDelete hop
    rw [hexchanges] at hhears
    exact hhears _ List.mem_cons_self

theorem Does.typeId_eq {n : Nat} {s : Staged W} (h : c.Does types w n ra s) :
    s.typeId = ra.1.typeId := by
  cases h with
  | intro _ hfaces => exact hfaces.serves.typeId

/-- What is put aside for a replacement is only deleted when the replacement is created and
its creation is confirmed. -/
theorem Commits.replaced (hd : c.Distinct)
    (htypes : ∀ t ∈ plan.declaration.catalog.keys, t ∈ types.keys)
    (h : c.Commits types w t k ra routine before rest K s) (haside : s.name = deletable ra.1.name) :
    ∃ t₁ t₂ properties id handle, t₁ < t₂ ∧ t₂ < t ∧
      Run.Hears c.program types (c.after types w t₁) (ResourceOp.create.record ra.1.name)
        ⟨ra.1.typeId, none, .create properties, .ok id⟩ ∧
      Run.Hears c.program types (c.after types w t₂) (ResourceOp.checkCreate.record ra.1.name)
        ⟨ra.1.typeId, handle, .complete .create, .ok true⟩ ∧
      ∀ v, id = some v → v ≠ .null → handle = some v := by
  have hra := h.faces.inRoutine.planned
  obtain ⟨hupdate, hdecided⟩ : ra.2 = .update ∧ _ := by
    rcases h.staged with ⟨hname, -⟩ | ⟨-, hupdate, hdecided⟩
    · exact absurd (hname.symm.trans haside) (ne_deletable _)
    · exact ⟨hupdate, hdecided⟩
  have hpast : c.past k ra.1.name = [.start, .check] := by
    have hprefix := past_append_isPrefix h.scheduled
    simpa [Phase.all, Phase.forward, Phase.backward, concat_isPrefix_cons] using hprefix
  have hachieved : ∀ op, op = .create ∨ op = .checkCreate → ra.1.did op ∈
      c.achieved (.routine k ra routine before (.resource s.op :: rest) K) ra
        ((c.after types w t).memory.decisions.get? ra.1.name) := by
    intro op hop
    refine List.mem_append_left _ ?_
    show ra.1.did op ∈ (c.past k ra.1.name).flatMap _
    rw [hpast, hdecided, hupdate]
    rcases hop with rfl | rfl <;> simp [Resource.work]
  obtain ⟨t₁, ht₁, s₁, hdoes₁, hrecord₁⟩ :=
    h.reaches.does_of_mem_achieved hra (hachieved _ (.inl rfl))
  obtain ⟨t₂, ht₂, s₂, hdoes₂, hrecord₂⟩ :=
    h.reaches.does_of_mem_achieved hra (hachieved _ (.inr rfl))
  -- The creation is done in the start, and confirmed in the check.
  obtain ⟨place₁, d₁, phase₁, hreached₁, hk₁, hwork₁⟩ := hdoes₁.exists_place hd
  obtain ⟨place₂, d₂, phase₂, hreached₂, hk₂, hwork₂⟩ := hdoes₂.exists_place hd
  rw [← hrecord₁] at hwork₁
  rw [← hrecord₂] at hwork₂
  obtain rfl := Resource.start_of_mem_work hwork₁
  obtain rfl := Resource.check_of_mem_work hwork₂
  have hlt : t₁ < t₂ := lt_of_calls_lt hreached₁ hreached₂ (lt_of_rank_lt hk₁ hk₂ (by decide))
  obtain ⟨properties, id, hhears₁⟩ :=
    hdoes₁.hears_create hd (ResourceOp.record_inj.1 hrecord₁).1.symm
  have hhears₂ := hdoes₂.hears_check hd .create
    (ResourceOp.record_inj.1 hrecord₂).1.symm
  rw [← hrecord₁, hdoes₁.typeId_eq] at hhears₁
  rw [← hrecord₂, hdoes₂.typeId_eq, ← (ResourceOp.record_inj.1 hrecord₂).2] at hhears₂
  refine ⟨t₁, t₂, properties, id, _, hlt, ht₂, hhears₁, hhears₂, ?_⟩
  rintro v rfl hv
  obtain ⟨rb, hcreated⟩ := hreached₂.keeps hd htypes hlt hhears₁ fun n hn p hp _ _ _ _ _ =>
    ⟨hv, forward_of_reaches hp hreached₂ hn.le (by decide) hk₂⟩
  exact Memory.remoteId_of_get? hv hcreated.tracked

/-! ### Dependents first -/

/-- In the backward part an identifier stays where it is until its object is confirmed to be
deleted. -/
theorem Reaches.kept_or_confirmed (hd : c.Distinct) {n : Nat} {place place' : Place}
    (h : c.Reaches types w t place) {phase : Phase} (hphase : phase ∈ Phase.backward)
    {owner : String} (hk : c.schedule[c.calls place]? = some (owner, phase))
    (hplace : place ≠ .start) (h' : c.Reaches types w n place') (hn : t ≤ n) (name : String) :
    (c.after types w n).memory.remoteIds.get? name = (c.after types w t).memory.remoteIds.get? name ∨
      ∃ n' typeId, t ≤ n' ∧ n' < n ∧
        Run.Hears c.program types (c.after types w n') (ResourceOp.checkDelete.record name)
          ⟨typeId, (c.after types w t).memory.remoteId name, .deleteComplete, .ok true⟩ := by
  induction h' with
  | start =>
    obtain rfl : t = 0 := Nat.le_zero.1 hn
    exact .inl rfl
  | @step n p _ hreaches hadvances ih =>
    rcases Nat.lt_or_eq_of_le hn with hlt | rfl
    · have hle : t ≤ n := Nat.le_of_lt_succ hlt
      rcases ih hle with hsame | ⟨n', typeId, htn, hn', hhears⟩
      · have hlate : ∀ {k' rb routine before rest K},
            p = .routine k' rb routine before rest K → routine.phase ∈ Phase.backward := by
          rintro k' rb routine before rest K rfl
          exact backward_of_reaches h hreaches hle hphase hk
        have honly : ∀ {k' rb routine before rest K} {s' : Staged W},
            c.Faces types k' rb routine before rest K s' (c.after types w n).memory →
            p = .routine k' rb routine before (.resource s'.op :: rest) K →
              s'.op = .delete ∨ s'.op = .checkDelete := by
          intro k' rb routine before rest K s' hfaces hp
          obtain ⟨d, -, hwork⟩ := mem_work_of_faces hfaces (hadvances.not_ended hd)
          exact (Resource.late_of_mem_work hwork (hlate hp)).imp And.left And.left
        cases hadvances.turns (hreaches.ne_start ((h.pos hplace).trans_le hle)) name with
        | kept hkept => exact .inl (hkept.trans hsame)
        | forgotten hp => exact absurd (hlate hp) (by decide)
        | created hp hfaces hop => rcases honly hfaces hp with h | h <;> rw [hop] at h <;> cases h
        | putAside hp hfaces hop => rcases honly hfaces hp with h | h <;> rw [hop] at h <;> cases h
        | received hp hfaces hop => rcases honly hfaces hp with h | h <;> rw [hop] at h <;> cases h
        | @deleted _ _ _ _ _ _ s' hp hfaces hop hstaged hexchanges =>
          have hhears := hears_of_faces hd hfaces hadvances
            (by rw [hexchanges]; exact List.mem_singleton.2 rfl)
          have hid : (c.after types w n).memory.remoteId name =
              (c.after types w t).memory.remoteId name := by
            unfold Memory.remoteId
            rw [hsame]
          rw [hop, hstaged, hid] at hhears
          exact .inr ⟨n, s'.typeId, hle, Nat.lt_succ_self n, hhears⟩
      · exact .inr ⟨n', typeId, htn, hn'.trans (Nat.lt_succ_self n), hhears⟩
    · exact .inl rfl

/-- What is deleted late is confirmed to be gone before the finish of its resource returns. -/
theorem Commits.confirmed (hd : c.Distinct)
    (htypes : ∀ t ∈ plan.declaration.catalog.keys, t ∈ types.keys)
    (h : c.Commits types w t k ra routine before rest K s) {n : Nat} {place : Place}
    (hreaches : c.Reaches types w n place) (hn : t ≤ n) {j : Nat}
    (hj : c.schedule[j]? = some (ra.1.name, .finish)) (hlt : j < c.calls place) :
    ∃ t' typeId, t < t' ∧ t' < n ∧
      Run.Hears c.program types (c.after types w t') (ResourceOp.checkDelete.record s.name)
        ⟨typeId, (c.after types w t).memory.remoteId s.name, .deleteComplete, .ok true⟩ := by
  have hra := h.faces.inRoutine.planned
  have hpast : Phase.finish ∈ c.past (c.calls place) ra.1.name := by
    refine List.mem_map.2 ⟨(ra.1.name, .finish), List.mem_filter.2 ⟨?_, by simp⟩, rfl⟩
    have htake : (c.schedule.take (c.calls place))[j]? = some (ra.1.name, .finish) := by
      rw [List.getElem?_take_of_lt hlt]
      exact hj
    exact List.mem_of_getElem? htake
  have hwork : ResourceOp.checkDelete.record s.name ∈ ra.1.work plan.createMissing ra.2 .finish
      ((c.after types w n).memory.decisions.get? ra.1.name) := by
    rcases h.staged with ⟨hname, haction⟩ | ⟨hname, haction, hdecided⟩
    · rw [hname, haction]
      simp [Resource.work, h.late, Resource.did]
    · have hkept : (c.after types w n).memory.decisions.get? ra.1.name = some .recreate :=
        kept_steps hd htypes w hn hdecided
      rw [hname, haction, hkept]
      simp [Resource.work, h.late, Resource.didAside]
  obtain ⟨t', ht', s', hdoes, hrecord⟩ := hreaches.does_of_mem_achieved hra
    (List.mem_append_left _ (List.mem_flatMap.2 ⟨.finish, hpast, hwork⟩))
  obtain ⟨place', d, phase, hreached, hk, hmem⟩ := hdoes.exists_place hd
  rw [← hrecord] at hmem
  obtain rfl := Resource.finish_of_mem_work hmem (.inl h.late)
  have htt' : t < t' :=
    lt_of_calls_lt h.reaches hreached (lt_of_rank_lt h.scheduled hk (by decide))
  obtain ⟨hop, hname⟩ := ResourceOp.record_inj.1 hrecord
  have hhears := hdoes.hears_checkDelete hd hop.symm
  rw [← hrecord, ← hname] at hhears
  rcases h.reaches.kept_or_confirmed hd (by decide) h.scheduled (by simp) hreached htt'.le
    s.name with hsame | ⟨n', typeId, htn', hn', hhears'⟩
  · have hid : (c.after types w t').memory.remoteId s.name =
        (c.after types w t).memory.remoteId s.name := by
      unfold Memory.remoteId
      rw [hsame]
    rw [hid] at hhears
    exact ⟨t', s'.typeId, htt', ht', hhears⟩
  · rcases Nat.lt_or_eq_of_le htn' with hlt | rfl
    · exact ⟨n', typeId, hlt, hn'.trans ht', hhears'⟩
    · -- At that step it is deleted, not confirmed to be gone.
      have hlogged := upcoming_of_faces h.faces
        (running_of_stands hd h.reaches.stands.1 (by simp) h.reaches.stands.2)
      rw [hhears'.logged] at hlogged
      have hop' := (ResourceOp.record_inj.1 (List.cons.inj hlogged).1).1
      rw [h.op_eq] at hop'
      cases hop'

end

/-- **Deletions that are put off leave no gap, and go from dependents to what they depend on.**
When an object is deleted whose type puts that off, every start and every check has returned,
and a replacement was created and its creation confirmed; and what depends on its resource, and
has an object deleted late as well, has had it deleted and confirmed to be gone before. -/
theorem defers_of_steps {p : Program} (h : plan.compile = .ok p) :
    ∃ c : Compilation plan, c.program = p ∧ (c.Distinct → ∀ {W : Type} (types : Registry W),
      (∀ t ∈ plan.declaration.catalog.keys, t ∈ types.keys) → ∀ (w : W) t owner o e,
        c.DeletesLate types w t owner o e →
          (∀ ra ∈ c.actions, ∀ phase ∈ Phase.forward,
            Returned p types w t ((Routine.forPhase ra.2 phase).label ra.1.name)) ∧
          (o.resource = deletable owner →
            ∃ t₁ t₂ properties id handle, t₁ < t₂ ∧ t₂ < t ∧
              Run.Hears p types (Run.steps p types t₁ (Run.fresh w))
                (ResourceOp.create.record owner) ⟨e.typeId, none, .create properties, .ok id⟩ ∧
              Run.Hears p types (Run.steps p types t₂ (Run.fresh w))
                (ResourceOp.checkCreate.record owner)
                ⟨e.typeId, handle, .complete .create, .ok true⟩ ∧
              ∀ v, id = some v → v ≠ .null → handle = some v) ∧
          ∀ t' owner' o' e', c.DeletesLate types w t' owner' o' e' →
            Relation.TransGen plan.DependsOn owner' owner → owner' ≠ owner →
              t' < t ∧ ∃ n typeId, t' < n ∧ n < t ∧
                Run.Hears p types (Run.steps p types n (Run.fresh w))
                  (ResourceOp.checkDelete.record o'.resource)
                  ⟨typeId, e'.id, .deleteComplete, .ok true⟩) := by
  obtain ⟨c, rfl⟩ := compile_eq_ok.1 h
  refine ⟨c, rfl, fun hd W types htypes w t owner o e hdeletes => ?_⟩
  obtain ⟨k, ra, routine, before, rest, K, s, hcommits, rfl, rfl, htype, -⟩ :=
    hdeletes.commits hd htypes
  refine ⟨fun rb hrb phase hphase => hcommits.returned hd hrb hphase, ?_, ?_⟩
  · intro haside
    rw [htype]
    exact hcommits.replaced hd htypes haside
  · intro t' owner' o' e' hdeletes' hdepends hne
    obtain ⟨k', rb, routine', before', rest', K', s', hcommits', rfl, rfl, -, hid'⟩ :=
      hdeletes'.commits hd htypes
    have hearlier := (earlier_of_transGen (c := c) hdepends).resolve_left (Ne.symm hne)
    obtain ⟨j, hj⟩ := List.getElem?_of_mem (mem_schedule.2 (mem_names_of_mem
      hcommits'.faces.inRoutine.planned) : (rb.1.name, Phase.finish) ∈ c.schedule)
    have hcommit : k' < k :=
      backward_lt hearlier (by decide) (by decide) hcommits'.scheduled hcommits.scheduled
    have hfinish : j < k := backward_lt hearlier (by decide) (by decide) hj hcommits.scheduled
    have htt : t' < t := lt_of_calls_lt hcommits'.reaches hcommits.reaches hcommit
    rw [hid']
    exact ⟨htt, hcommits'.confirmed hd htypes hcommits.reaches htt.le hj hfinish⟩

/-- Two tracked resources, of which `x` was created to wait for `y`; only `y` is still
declared. -/
def tiedPlan : Plan :=
  { plainPlan true ["x", "y"] ["y"] true with
    prior := Table.ofList [("x", ⟨.str "x", "file", ["y"]⟩), ("y", ⟨.str "y", "file", []⟩)] }

/-- The old object of `y` is deleted after a new one was created and confirmed, and after the
object of `x` is gone. -/
theorem defers_of_steps_tied :
    ∃ p, tiedPlan.compile = .ok p ∧
      (∃ t₁ t₂ properties id handle, t₁ < t₂ ∧ t₂ < 84 ∧
        Run.Hears p (plainTypes true) (Run.steps p (plainTypes true) t₁ (Run.fresh ()))
          (ResourceOp.create.record "y") ⟨"file", none, .create properties, .ok id⟩ ∧
        Run.Hears p (plainTypes true) (Run.steps p (plainTypes true) t₂ (Run.fresh ()))
          (ResourceOp.checkCreate.record "y") ⟨"file", handle, .complete .create, .ok true⟩) ∧
      ∃ n typeId, 64 < n ∧ n < 84 ∧
        Run.Hears p (plainTypes true) (Run.steps p (plainTypes true) n (Run.fresh ()))
          (ResourceOp.checkDelete.record "x")
          ⟨typeId, some (.str "x"), .deleteComplete, .ok true⟩ := by
  obtain ⟨c, hc, hdefers⟩ := defers_of_steps (rfl : tiedPlan.compile = .ok _)
  have htypes : ∀ t ∈ tiedPlan.declaration.catalog.keys, t ∈ (plainTypes true).keys := by decide
  have hdistinct : c.Distinct := distinct_of_actions rfl (by decide +kernel) (by decide +kernel)
  have hlate : ∃ schema, tiedPlan.declaration.catalog.get? "file" = some schema ∧
      schema.deleteAtEnd = true := ⟨_, rfl, rfl⟩
  obtain ⟨e, hx, htype, hid⟩ : ∃ e, c.DeletesLate (plainTypes true) () 64 "x"
      (ResourceOp.delete.record "x") e ∧ e.typeId = "file" ∧ e.id = some (.str "x") :=
    deletesLate_of_asked rfl (by rw [hc]; decide +kernel) (by rw [hc]; decide +kernel)
      (by rw [hc]; decide +kernel) hlate
  obtain ⟨e', hy, htype', -⟩ : ∃ e, c.DeletesLate (plainTypes true) () 84 "y"
      (ResourceOp.delete.record "_deletable_y") e ∧ e.typeId = "file" ∧
        e.id = some (.str "y") :=
    deletesLate_of_asked rfl (by rw [hc]; decide +kernel) (by rw [hc]; decide +kernel)
      (by rw [hc]; decide +kernel) hlate
  obtain ⟨-, hreplaced, hafter⟩ := hdefers hdistinct (plainTypes true) htypes () 84 "y" _ e' hy
  have hdepends : tiedPlan.DependsOn "x" "y" := ⟨_, rfl, List.mem_cons_self⟩
  refine ⟨_, rfl, ?_, ?_⟩
  · obtain ⟨t₁, t₂, properties, id, handle, hlt, hlt', hcreate, hcheck, -⟩ := hreplaced rfl
    rw [htype'] at hcreate hcheck
    exact ⟨t₁, t₂, properties, id, handle, hlt, hlt', hcreate, hcheck⟩
  · obtain ⟨-, n, typeId, hn, hn', hhears⟩ :=
      hafter 64 "x" _ e hx (.single hdepends) (by decide)
    rw [hid] at hhears
    exact ⟨n, typeId, hn, hn', hhears⟩

end Compilation

end Provisioning
