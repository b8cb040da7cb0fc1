/-
Recovery.

A run may be stopped between any two of its steps, or by a request that is refused.  The
snapshot it leaves is enough for a new run to bring everything about: what was settled is found
in order and is not touched, what was put aside is deleted, and whatever is half done is looked
at and dealt with as if it had always been like that.

There is one state from which this need not succeed.  An object that is replaced at once is
deleted first, and until its deletion is confirmed the snapshot still has its identifier.  A
run that does not look for it will read an object that is not there: `not_recovered_cutOff`.
If it may look, the object is found missing, and created.
-/
import Provisioning.Proofs.Run.Idempotence
import Provisioning.Proofs.Run.Presence

namespace Provisioning

/-- All that is tracked is there. -/
def Store.Finds {W : Type} (S : Store W) (plan : Plan) (w : W) : Prop :=
  ∀ name tracked, plan.prior.get? name = some tracked →
    tracked.remoteId ≠ .null ∧ S.object w tracked.typeId tracked.remoteId ≠ none

/-- A run is cut off from a replacement: the old object was to be deleted at once and is gone,
and its identifier still stands. -/
structure Resource.CutOff {W : Type} (x : Resource) (S : Store W) (r : Run W) : Prop where
  replaced : r.memory.decisions.get? x.name = some .recreate
  atOnce : x.schema.deleteAtEnd = false
  tracked : r.memory.remoteIds.get? x.name ≠ none
  gone : x.object S r = none

/-- A declared resource is in place: it is tracked as declared, and its object has the declared
fields. -/
def Engine.Places {W : Type} (e : Engine W) (plan : Plan) (S : Store W) (r : Run W)
    (x : Resource) : Prop :=
  ∃ (id : Json) (object : String → Option Json) (fields : Properties),
    (e.state r.memory).get? x.name = some ⟨id, x.typeId, x.waits⟩ ∧
    S.object r.world x.typeId id = some object ∧
    e.program.tables.rom.resolve (fun o => .ok (plan.actual S r o)) x.name = .ok (.obj fields) ∧
    (∀ f, f ∈ fields.keys ↔ f ∈ x.properties.keys) ∧
    ∀ f want, (f, want) ∈ fields → ((object f).getD .null).same want = true

/-- What a run has come to that has brought everything about. -/
structure Engine.Recovered {W : Type} (e : Engine W) (plan : Plan) (S : Store W) (g : Progress W) :
    Prop where
  completed : g.summary.outcome = .completed
  /-- The declared names are tracked, and no others. -/
  names : (e.state g.run.memory).keys.Perm plan.declaration.resources.keys
  placed : ∀ x, plan.declaration.get? x.name = some x → e.Places plan S g.run x

namespace Compilation

variable {plan : Plan} {W : Type} {c : Compilation plan} {types types' : Registry W} {S : Store W}
  {w : W} {n : Nat} {place : Place} {ra : Resource × Action} {e : Engine W} {r : Run W}
  {createMissing : Bool}

/-! ### Where a run is stopped -/

theorem Stops.unchanged {r' : Run W} (htypes : ∀ t ∈ plan.declaration.catalog.keys, t ∈ types.keys)
    (hserves : S.Serves types) (h : c.Stops types r place r') :
    place ≠ .start ∧ r.memory.SameTables r'.memory ∧ S.Unchanged r.world r'.world := by
  cases h with
  | @fault k ra routine i before rest K K' f temp w' hroutine htyped hfoils hexecute =>
    refine ⟨nofun, ⟨rfl, rfl, rfl, rfl⟩, ?_⟩
    have hworld : (execute c.program types i r.memory r.world).world = w' :=
      congrArg Outcome.world hexecute
    cases hop : i.isResourceOp with
    | false =>
      rw [world_execute hop] at hworld
      exact hworld ▸ .refl S r.world
    | true =>
      cases i with
      | resource op =>
        obtain ⟨s, rfl, hfaces, -⟩ := exists_faces htypes hroutine htyped
        rw [execute_of_faces hfaces] at hexecute hworld
        exact hworld ▸ Staged.unchanged_of_fault (keeps_of_faces hserves hfaces)
          (congrArg Outcome.flow hexecute)
      | _ => cases hop

/-- However a run is stopped, it leaves what it had at the last place that it reached. -/
theorem exists_stop (h : c.Setting types S w) (hn : 0 < n) :
    ∃ t place, 0 < t ∧ c.Reaches types w t place ∧
      (c.after types w t).memory.SameTables (c.after types w n).memory ∧
      S.Unchanged (c.after types w t).world (c.after types w n).world := by
  have hstage : c.Stage types w n := stage_steps h.distinct h.registered w n
  cases hstage with
  | running hreaches => exact ⟨n, _, hn, hreaches, ⟨rfl, rfl, rfl, rfl⟩, .refl S _⟩
  | @halted t _ hreaches heq =>
    exact ⟨t, _, hreaches.pos nofun, hreaches, heq ▸ ⟨rfl, rfl, rfl, rfl⟩, heq ▸ .refl S _⟩
  | @stopped t place _ hreaches hstops heq =>
    obtain ⟨hplace, htables, hunchanged⟩ := hstops.unchanged h.registered h.serves
    exact ⟨t, place, hreaches.pos hplace, hreaches, heq ▸ htables, heq ▸ hunchanged⟩

/-- What the next run relies on where a run was stopped. -/
structure Halfway (c : Compilation plan) (S : Store W) (r : Run W) (names : String → Prop) :
    Prop where
  steady : c.Steady S r names
  present : ∀ ra ∈ c.actions, ra.2 ≠ .delete → r.memory.remoteIds.get? ra.1.name = none ∨
    ra.1.object S r ≠ none ∨ ra.1.CutOff S r
  aside : ∀ ra ∈ c.actions, ra.2 ≠ .delete →
    r.memory.remoteIds.get? (deletable ra.1.name) ≠ none →
    r.memory.remoteIds.get? ra.1.name ≠ none → names ra.1.name

theorem Halfway.congr {names : String → Prop} {r' : Run W} (h : c.Halfway S r names)
    (htables : r.memory.SameTables r'.memory) (hworld : S.Unchanged r.world r'.world) :
    c.Halfway S r' names := by
  have hresumes : c.Resumes c S r r' := ⟨rfl, rfl, htables.remoteIds, hworld⟩
  refine ⟨⟨fun ra hra haction hname => ?_, h.steady.closed⟩, fun ra hra haction => ?_,
    fun ra hra haction haside htracked => ?_⟩
  · exact hresumes.judged (h.steady.judged ra hra haction hname)
  · rcases h.present ra hra haction with hnone | hthere | ⟨hreplaced, hatOnce, htracked, hgone⟩
    · exact .inl (htables.remoteIds ▸ hnone)
    · exact .inr (.inl (hresumes.object ra.1 ▸ hthere))
    · exact .inr (.inr ⟨htables.decisions ▸ hreplaced, hatOnce, htables.remoteIds ▸ htracked,
        (hresumes.object ra.1).trans hgone⟩)
  · rw [htables.remoteIds] at haside htracked
    exact h.aside ra hra haction haside htracked

theorem halfway_of_fresh (c : Compilation plan) (S : Store W) (w : W) :
    c.Halfway S (Run.fresh w) fun _ => False :=
  ⟨⟨fun _ _ _ h => h.elim, fun _ _ _ h => h.elim⟩, fun _ _ _ => .inl rfl, fun _ _ _ h => absurd rfl h⟩

section

variable (h : c.Setting types S w) (hfinds : S.Finds plan w)

include h hfinds

theorem object_of_finds (hra : ra ∈ c.actions) (hupdate : ra.2 = .update) :
    ra.1.object S (c.after types w 1) ≠ none := by
  have hplanned := c.planned hra
  have hkey := Table.contains_iff.1 (hplanned.tracked.2 (by rw [hupdate]; nofun))
  obtain ⟨tracked, htracked⟩ : ∃ tracked, plan.prior.get? ra.1.name = some tracked :=
    Option.ne_none_iff_exists'.1 fun hnone => Entries.get?_eq_none_iff.1 hnone hkey
  obtain ⟨hid, hobject⟩ := hfinds _ _ htracked
  obtain ⟨-, hids, hworld⟩ := begun (c := c) h.distinct h.registered w
  have hslot : (c.after types w 1).memory.remoteId ra.1.name = some tracked.remoteId := by
    refine Memory.remoteId_of_get? hid ?_
    rw [hids, Table.get?_mapValues, htracked]
    rfl
  rw [h.tracks.typed _ _ _ htracked (hplanned.declared (by rw [hupdate]; nofun)) (.inl rfl)] at hobject
  unfold Resource.object
  rw [hslot, hworld]
  exact hobject

/-- **Wherever a run is stopped, what was half done can be gone on with.** -/
theorem Reaches.halfway (hprior : ∀ name ∈ plan.declaration.resources.keys,
      deletable name ∉ plan.prior.keys)
    (hreaches : c.Reaches types w n place) (hn : 0 < n) :
    ∃ names, c.Halfway S (c.after types w n) names := by
  have hsettled : ∀ {name}, (∃ ra ∈ c.actions, ra.2 ≠ .delete ∧ ra.1.name = name ∧
      c.Settled place ra ((c.after types w n).memory.decisions.get? ra.1.name)) →
      ∀ rb ∈ c.actions, rb.1.name = name →
        c.Settled place rb ((c.after types w n).memory.decisions.get? rb.1.name) := by
    rintro _ ⟨ra, hra, -, rfl, hsettled⟩ rb hrb hname
    rwa [eq_of_name_eq hrb hra hname]
  refine ⟨fun name => ∃ ra ∈ c.actions, ra.2 ≠ .delete ∧ ra.1.name = name ∧
    c.Settled place ra ((c.after types w n).memory.decisions.get? ra.1.name), ⟨?_, ?_⟩, ?_, ?_⟩
  · intro ra hra haction hname
    exact Settled.judged ((hreaches.faithful h).1 ra hra haction) (hsettled hname ra hra rfl)
  · intro ra hra haction hname o ho
    exact Settled.closed h hreaches hra haction (hsettled hname ra hra rfl) ho
  · intro ra hra haction
    by_cases htracked : (c.after types w n).memory.remoteIds.get? ra.1.name = none
    · exact .inl htracked
    · rcases hreaches.present h hn hra haction fun hupdate => object_of_finds h hfinds hra hupdate
        with hnone | hthere | hlost
      · exact .inl hnone
      · exact .inr (.inl hthere)
      · obtain ⟨hreplaced, hatOnce⟩ := Lost.replaced h hreaches hra haction hlost
        by_cases hgone : ra.1.object S (c.after types w n) = none
        · exact .inr (.inr ⟨hreplaced, hatOnce, htracked, hgone⟩)
        · exact .inr (.inl hgone)
  · intro ra hra haction haside htracked
    exact ⟨ra, hra, haction, rfl, hreaches.settled_of_aside h hn hra haction
      (hprior _ (declared_of_action hra haction)) haside htracked⟩

end

/-! ### The run after a run that was stopped -/

/-- **The next run is prepared for what was half done.** -/
theorem Halfway.prepared {names : String → Prop} (hhalfway : c.Halfway S r names)
    (hleaves : e.Leaves plan S r.memory r.world)
    {c' : Compilation (plan.resume (e.state r.memory) createMissing)}
    (h' : c'.Setting types' S r.world) (hrom : c'.rom = c.rom) (hobliging : S.Obliging types')
    (hcutOff : ∀ x, plan.declaration.get? x.name = some x → x.CutOff S r →
      createMissing = true ∧ x.schema.needsRemoteId = true) :
    c'.Prepared types' S r.world names := by
  have hresumes := resumes_of_leaves hleaves h' hrom rfl (.refl S r.world)
  have hdeclared : ∀ rb ∈ c'.actions, rb.2 ≠ .delete → ∃ action, (rb.1, action) ∈ c.actions ∧
      action ≠ .delete := by
    intro rb hrb hwanted
    obtain ⟨action, hra, -, haction⟩ := c.exists_declared ((c'.planned hrb).declared hwanted)
    exact ⟨action, hra, haction⟩
  have htracked : ∀ {name}, name ∈ (e.state r.memory).keys →
      r.memory.remoteIds.get? name ≠ none := by
    intro name hmem hnone
    refine Entries.get?_eq_none_iff.1 ?_ hmem
    refine (Engine.get?_state e r.memory name).trans ?_
    rw [hnone]
    rfl
  have hupdated : ∀ rb ∈ c'.actions, rb.2 = .update →
      r.memory.remoteIds.get? rb.1.name ≠ none := fun rb hrb hupdate =>
    htracked (Table.contains_iff.1 ((c'.planned hrb).tracked.2 (by rw [hupdate]; nofun)))
  refine ⟨h', hobliging, ⟨?_, ?_⟩, ?_, ?_⟩
  · intro rb hrb hwanted hname
    obtain ⟨action, hra, haction⟩ := hdeclared rb hrb hwanted
    exact hresumes.judged (hhalfway.steady.judged (rb.1, action) hra haction hname)
  · intro rb hrb hwanted hname o ho
    obtain ⟨action, hra, haction⟩ := hdeclared rb hrb hwanted
    have hrom' : c'.program.tables.rom = c.program.tables.rom := hrom
    rw [hrom'] at ho
    exact hhalfway.steady.closed (rb.1, action) hra haction hname o ho
  · intro rb hrb hupdate
    obtain ⟨action, hra, haction⟩ := hdeclared rb hrb (by rw [hupdate]; nofun)
    rw [hresumes.object]
    rcases hhalfway.present (rb.1, action) hra haction with hnone | hthere | hcut
    · exact absurd hnone (hupdated rb hrb hupdate)
    · exact .inl hthere
    · exact .inr (hcutOff _ ((c.planned hra).declared haction) hcut)
  · intro rb hrb hupdate haside
    obtain ⟨action, hra, haction⟩ := hdeclared rb hrb (by rw [hupdate]; nofun)
    exact hhalfway.aside (rb.1, action) hra haction (htracked haside) (hupdated rb hrb hupdate)

/-- **However a run is stopped, what it leaves can be gone on with.** -/
theorem exists_halfway (h : c.Setting types S w) (he : Engine.compile types plan = .ok e)
    (hfinds : S.Finds plan w)
    (hprior : ∀ name ∈ plan.declaration.resources.keys, deletable name ∉ plan.prior.keys)
    (n : Nat) : e.Leaves plan S (c.after types w n).memory (c.after types w n).world ∧
      ∃ names, c.Halfway S (c.after types w n) names := by
  rcases Nat.eq_zero_or_pos n with rfl | hn
  · exact ⟨leaves_of_fresh e plan S w, _, halfway_of_fresh c S w⟩
  · obtain ⟨t, place, hpos, hreaches, htables, hunchanged⟩ := exists_stop h hn
    obtain ⟨names, hhalfway⟩ := hreaches.halfway h hfinds hprior hpos
    exact ⟨hreaches.leaves h he hpos htables.remoteIds hunchanged, names,
      hhalfway.congr htables hunchanged⟩

theorem Reaches.places (h : c.Setting types S w) (he : Engine.compile types plan = .ok e)
    (hprogram : c.program = e.program) (hreaches : c.Reaches types w n .halted) {x : Resource}
    (hx : plan.declaration.get? x.name = some x) : e.Places plan S (c.after types w n) x := by
  obtain ⟨action, hra, -, haction⟩ := c.exists_declared hx
  obtain ⟨object, fields, hobject, hresolve, hcompare⟩ :=
    Reaches.judged_of_halted h hreaches hra haction
  obtain ⟨id, hid, hheld⟩ := Option.bind_eq_some_iff.1 hobject
  obtain ⟨hslot, -⟩ := Memory.get?_of_remoteId hid
  obtain ⟨hnodup, hkeys⟩ := Plan.keys_of_resolve c.rom_eq hx hresolve
  refine ⟨id, object, fields, ?_, hheld, hprogram ▸ hresolve, hkeys, fun f want hmem => ?_⟩
  · rw [Engine.get?_state, hslot]
    exact Engine.tracked?_declared he hx id
  · have hbound := (plan.declaration.declared _ (Table.get?_eq_some_iff.1 hx)).settable f
      ((hkeys f).1 (Entries.mem_keys_of_get? (Entries.get?_of_mem hnodup hmem)))
    exact Schema.same_of_noChange hcompare (Schema.mem_readable.2 hbound)
      (Entries.get?_of_mem hnodup hmem)

/-- **A run that is prepared brings everything about.** -/
theorem Prepared.recovers {names : String → Prop} (h : c.Prepared types S w names)
    (he : Engine.compile types plan = .ok e) (hprogram : c.program = e.program) :
    ∃ N, ∀ budget ≥ N, e.Recovered plan S (e.run budget (Run.fresh w)) := by
  have hsetting := h.setting
  obtain ⟨N, hend⟩ := h.reaches_halted
  refine ⟨N, fun budget hbudget => ?_⟩
  have hrun : (e.run budget (Run.fresh w)).run = c.after types w N :=
    hend.run_eq hprogram (Engine.compile_eq_ok he).2.1 hbudget
  refine ⟨?_, ?_, fun x hx => ?_⟩
  · show e.outcome (e.run budget (Run.fresh w)).run = .completed
    rw [hrun]
    exact hend.completed hprogram
  · rw [hrun]
    exact (List.perm_ext_iff_of_nodup (Table.nodup _) plan.declaration.resources.nodup).2
      (hend.state_of_halted hsetting.distinct hsetting.registered hsetting.apart he)
  · rw [hrun]
    exact hend.places hsetting he hprogram hx

/-- **A run that was stopped is recovered from: after any number of steps, and whatever was
refused, the snapshot compiles with the same declaration, and where keys and labels are distinct
again, the next run completes, tracks what is declared and nothing else, and has all declared
fields in place.  Where the first run was cut off from a replacement, the next one has to be able
to find out that the object is missing.** -/
theorem recovered_of_steps {e : Engine W} (he : Engine.compile types plan = .ok e)
    (hself : plan.declaration.SelfContained) (hcovers : types.Covers plan.declaration.catalog)
    (hserves : S.Serves types) (hcovers' : types'.Covers plan.declaration.catalog)
    (hserves' : S.Serves types') (hobliging : S.Obliging types')
    (hprior : ∀ name ∈ plan.declaration.resources.keys, deletable name ∉ plan.prior.keys) :
    ∃ c : Compilation plan, c.program = e.program ∧ (c.Distinct → plan.Apart →
      ∀ w, S.Tracks plan w → S.Finds plan w → ∀ n createMissing,
        let r := Run.steps e.program e.registry n (Run.fresh w)
        let again := plan.resume (e.state r.memory) createMissing
        (∀ x, plan.declaration.get? x.name = some x → x.CutOff S r →
          createMissing = true ∧ x.schema.needsRemoteId = true) →
          ∃ e', Engine.compile types' again = .ok e' ∧
            ∃ c' : Compilation again, c'.program = e'.program ∧ (c'.Distinct → ∃ N, ∀ budget ≥ N,
              e'.Recovered again S (e'.run budget (Run.fresh r.world)))) := by
  obtain ⟨hcompile, hregistry, -⟩ := Engine.compile_eq_ok he
  obtain ⟨c, hc⟩ := compile_eq_ok.1 hcompile
  refine ⟨c, hc, fun hd hapart w htracks hfinds n createMissing => ?_⟩
  have h : c.Setting types S w := ⟨hd, hcovers, hself, hapart, hserves, htracks⟩
  obtain ⟨hleaves, names, hhalfway⟩ := exists_halfway h he hfinds hprior n
  rw [← hc, hregistry]
  intro r again hcutOff
  obtain ⟨e', he', c', hprogram, hrom⟩ := exists_engine h hleaves types' createMissing
  refine ⟨e', he', c', hprogram, fun hd' => ?_⟩
  have h' := setting_of_leaves h hleaves hd' hcovers' hserves'
  exact (hhalfway.prepared hleaves h' hrom hobliging hcutOff).recovers he' hprogram

/-! ### Cut off from a replacement -/

theorem finds_old : Shelf.store.Finds trackedPlan oldShelf := by
  intro name tracked h
  rw [(eq_of_trackedPlan h).2]
  refine ⟨nofun, fun hnone => ?_⟩
  have hfind : oldShelf.find "file" (some (.nat 0)) = none := Option.map_eq_none_iff.1 hnone
  exact absurd hfind (by decide +kernel)

/-- The confirmation that the old file is deleted fails, and the first run stops. -/
theorem recovered_of_steps_cutOff :
    ∃ e, Engine.compile (Shelf.failing (plainSchema false) (· == .deleteComplete)) trackedPlan =
        .ok e ∧
      let r := Run.steps e.program e.registry 200 (Run.fresh oldShelf)
      let again := trackedPlan.resume (e.state r.memory) true
      e.outcome r = .failed ∧ firstFile.CutOff Shelf.store r ∧
        ∃ e', Engine.compile (Shelf.types (plainSchema false)) again = .ok e' ∧ ∃ N, ∀ budget ≥ N,
          e'.Recovered again Shelf.store (e'.run budget (Run.fresh r.world)) := by
  obtain ⟨c, -, hrecovered⟩ := recovered_of_steps
    (rfl : Engine.compile (Shelf.failing (plainSchema false) (· == .deleteComplete)) trackedPlan =
      .ok _)
    selfContained_linked (Shelf.covers_failing _ _) (Shelf.serves_failing _ _)
    (Shelf.covers_types _) (Shelf.serves_types _) (Shelf.obliging_types _) (by decide +kernel)
  have hd : c.Distinct := distinct_of_actions rfl (by decide +kernel) (by decide +kernel)
  have hneeds : ∀ x : Resource, trackedPlan.declaration.get? x.name = some x →
      x.schema.needsRemoteId = true := by
    intro x hx
    rcases List.mem_pair.1 (Table.get?_eq_some_iff.1 hx) with heq | heq <;>
      rw [(Prod.mk.inj heq).2] <;> rfl
  obtain ⟨e', he', c', -, hplaced⟩ := hrecovered hd apart_tracked oldShelf tracks_old finds_old 200
    true fun x hx _ => ⟨rfl, hneeds x hx⟩
  have hd' : ∀ {prior : Snapshot}, prior = trackedPlan.prior →
      ∀ c' : Compilation (trackedPlan.resume prior true), c'.Distinct := by
    rintro _ rfl c'
    exact distinct_of_actions rfl (by decide +kernel) (by decide +kernel)
  refine ⟨_, rfl, by decide +kernel, ⟨by decide +kernel, rfl, by decide +kernel, ?_⟩, e', he',
    hplaced (hd' (by decide +kernel) c')⟩
  refine (Shelf.held_eq _ _ _).trans (Option.map_eq_none_iff.2 ?_)
  decide +kernel

/-- **A run that was cut off from a replacement need not be recovered from.**  Here the first run
is stopped after the old file is deleted, nothing is refused, and the second run, which does
not look for missing objects, fails to read it. -/
theorem not_recovered_cutOff :
    ∃ e, Engine.compile (Shelf.types (plainSchema false)) trackedPlan = .ok e ∧
      (∃ c : Compilation trackedPlan, c.program = e.program ∧ c.Distinct) ∧
      trackedPlan.declaration.SelfContained ∧ trackedPlan.Apart ∧
      Shelf.store.Tracks trackedPlan oldShelf ∧ Shelf.store.Finds trackedPlan oldShelf ∧
      let r := Run.steps e.program e.registry 22 (Run.fresh oldShelf)
      let again := trackedPlan.resume (e.state r.memory) false
      e.outcome r = .paused ∧ ∃ e', Engine.compile (Shelf.types (plainSchema false)) again = .ok e' ∧
        (∃ c' : Compilation again, c'.program = e'.program ∧ c'.Distinct) ∧
        (e'.run 200 (Run.fresh r.world)).summary.outcome = .failed ∧
        ¬ ∃ N, ∀ budget ≥ N,
          e'.Recovered again Shelf.store (e'.run budget (Run.fresh r.world)) := by
  obtain ⟨e, he⟩ : ∃ e, Engine.compile (Shelf.types (plainSchema false)) trackedPlan = .ok e :=
    ⟨_, rfl⟩
  obtain ⟨c, hc⟩ := compile_eq_ok.1 (Engine.compile_eq_ok he).1
  generalize hr : Run.steps e.program e.registry 22 (Run.fresh oldShelf) = r
  have hfirst : e.outcome r = .paused ∧ e.state r.memory = trackedPlan.prior := by
    obtain rfl : _ = e := Except.ok.inj he
    subst hr
    exact ⟨by decide +kernel, by decide +kernel⟩
  refine ⟨e, he, ⟨c, hc, distinct_of_actions rfl (by decide +kernel) (by decide +kernel)⟩,
    selfContained_linked, apart_tracked, tracks_old, finds_old, ?_⟩
  rw [hr]
  refine ⟨hfirst.1, ?_⟩
  rw [hfirst.2]
  obtain ⟨e', he'⟩ : ∃ e', Engine.compile (Shelf.types (plainSchema false))
      (trackedPlan.resume trackedPlan.prior false) = .ok e' := ⟨_, rfl⟩
  obtain ⟨c', hc'⟩ := compile_eq_ok.1 (Engine.compile_eq_ok he').1
  have hsecond : (e'.run 200 (Run.fresh r.world)).summary.outcome = .failed ∧
      (Run.steps e'.program e'.registry 200 (Run.fresh r.world)).ended e'.program = true ∧
      e'.outcome (Run.steps e'.program e'.registry 200 (Run.fresh r.world)) = .failed := by
    obtain rfl : _ = e := Except.ok.inj he
    obtain rfl : _ = e' := Except.ok.inj he'
    subst hr
    exact ⟨by decide +kernel, by decide +kernel, by decide +kernel⟩
  refine ⟨e', he', ⟨c', hc', distinct_of_actions rfl (by decide +kernel) (by decide +kernel)⟩,
    hsecond.1, ?_⟩
  rintro ⟨N, hrecovered⟩
  have hcompleted : e'.outcome (e'.run (max N 200) (Run.fresh r.world)).run = .completed :=
    (hrecovered (max N 200) (le_max_left N 200)).completed
  rw [Engine.run_run, Run.steps_of_ended_le hsecond.2.1 (le_max_right N 200), hsecond.2.2]
    at hcompleted
  cases hcompleted

end Compilation

end Provisioning
