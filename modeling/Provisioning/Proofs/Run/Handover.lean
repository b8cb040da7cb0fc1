/-
What a run hands over to the next one.

A snapshot holds the identifiers that are tracked, each with a type and with dependencies.
Every name that a run tracks is that of a planned resource, or the name under which a declared
one has put its old object aside, and for both the engine knows what to record.  So the
snapshot loses no identifier, it compiles with the same declaration, and the objects are
tracked by the next plan as they were by the first.

The next run starts with the same identifiers in the same world, and with the same table of
declared values.  Whatever was found about an object before is found about it again.
-/
import Provisioning.Proofs.Plan.Recompile
import Provisioning.Proofs.Run.Readiness

namespace Provisioning

namespace Engine

variable {W : Type} {types : Registry W} {plan : Plan} {e : Engine W} {name : String}

/-! ### What is recorded about a name -/

theorem get?_overlay_undeclared {α : Type} (t : Table α) (f : Resource → α)
    (h : plan.declaration.get? name = none) :
    (t.overlay (plan.declaration.resources.entries.map fun e => (e.1, f e.2))).get? name =
      t.get? name := by
  have hnodup : Entries.keys (plan.declaration.resources.entries.map fun e => (e.1, f e.2))
      |>.Nodup := by
    rw [Entries.keys_mapValues _ fun _ => f]
    exact plan.declaration.resources.nodup
  have hfound : Entries.get? plan.declaration.resources.entries name = none := h
  rw [Table.get?_overlay _ hnodup, Entries.get?_map _ fun _ => f, hfound]
  rfl

theorem tracked?_eq {typeId : String} {dependencies : List String}
    (htype : e.typeIds.get? (e.typeKey name) = some typeId)
    (hdependencies : e.dependencies.get? (e.typeKey name) = some dependencies) (id : Json) :
    e.tracked? name id = some ⟨id, typeId, dependencies⟩ := by
  unfold tracked?
  simp only [htype, hdependencies]
  rfl

section

variable (he : Engine.compile types plan = .ok e)

include he

theorem tracked?_kept {old : Tracked} (hname : plan.declaration.get? name = none)
    (hold : plan.prior.get? name = some old) (id : Json) :
    e.tracked? name id = some ⟨id, old.typeId, old.dependencies⟩ := by
  obtain ⟨-, -, htypeIds, hdependencies⟩ := compile_eq_ok he
  have htype : e.typeIds.get? name = some old.typeId := by
    rw [htypeIds, get?_overlay_undeclared _ Resource.typeId hname, Table.get?_mapValues, hold]
    rfl
  have hkey : e.typeKey name = name := if_pos (Table.contains_iff.2 (Table.mem_keys_of_get? htype))
  refine tracked?_eq (by rw [hkey, htype]) ?_ id
  rw [hkey, hdependencies, get?_overlay_undeclared _ Resource.waits hname, Table.get?_mapValues,
    hold]
  rfl

theorem tracked?_aside {r : Resource} (hr : plan.declaration.get? r.name = some r)
    (hname : plan.declaration.get? (deletable r.name) = none)
    (hprior : plan.prior.get? (deletable r.name) = none) (id : Json) :
    e.tracked? (deletable r.name) id = some ⟨id, r.typeId, r.waits⟩ := by
  obtain ⟨-, -, htypeIds, hdependencies⟩ := compile_eq_ok he
  have hnone : e.typeIds.get? (deletable r.name) = none := by
    rw [htypeIds, get?_overlay_undeclared _ Resource.typeId hname, Table.get?_mapValues, hprior]
    rfl
  have hkey : e.typeKey (deletable r.name) = r.name := by
    unfold typeKey
    rw [if_neg fun hmem => Entries.get?_eq_none_iff.1 hnone (Table.contains_iff.1 hmem),
      undeletable_deletable]
  refine tracked?_eq ?_ ?_ id
  · rw [hkey, htypeIds]
    exact get?_overlay_declared _ Resource.typeId hr
  · rw [hkey, hdependencies]
    exact get?_overlay_declared _ Resource.waits hr

end

section

variable {m : Memory} (hstems : ∀ name id, m.remoteIds.get? name = some id →
  ∃ tracked, e.tracked? name id = some tracked ∧ tracked.remoteId = id ∧ plan.Stems name tracked)

include hstems

theorem stems_of_get? {tracked : Tracked} (h : (e.state m).get? name = some tracked) :
    plan.Stems name tracked := by
  rw [get?_state, Option.bind_eq_some_iff] at h
  obtain ⟨id, hid, hrecorded⟩ := h
  obtain ⟨tracked', hrecorded', -, hstem⟩ := hstems name id hid
  obtain rfl := Option.some.inj (hrecorded.symm.trans hrecorded')
  exact hstem

/-- If something is recorded about every name, no identifier is lost. -/
theorem mapValues_state : (e.state m).mapValues (fun _ t => t.remoteId) = m.remoteIds := by
  refine Table.eq_of_entries ?_
  show (e.state m).entries.map _ = _
  rw [entries_state, List.map_filterMap]
  refine (List.filterMap_congr fun entry hentry => ?_).trans List.filterMap_some
  obtain ⟨tracked, htracked, hid, -⟩ := hstems entry.1 entry.2 (Table.get?_eq_some_iff.2 hentry)
  rw [htracked]
  exact congrArg (fun id => some (entry.1, id)) hid

end

/-- What a run has left when it ends in a memory and a world: the snapshot has all identifiers,
and they are those of objects as the next plan wants them. -/
structure Leaves (e : Engine W) (plan : Plan) (S : Store W) (m : Memory) (w : W) : Prop where
  stems : ∀ name id, m.remoteIds.get? name = some id →
    ∃ tracked, e.tracked? name id = some tracked ∧ tracked.remoteId = id ∧ plan.Stems name tracked
  tracks : ∀ createMissing, S.Tracks (plan.resume (e.state m) createMissing) w

namespace Leaves

variable {S : Store W} {m : Memory} {w : W}

theorem stems_of_state (h : e.Leaves plan S m w) (name : String) (tracked : Tracked)
    (htracked : (e.state m).get? name = some tracked) : plan.Stems name tracked :=
  stems_of_get? h.stems htracked

/-- **The snapshot loses no identifier.** -/
theorem remoteIds_state (h : e.Leaves plan S m w) :
    (e.state m).mapValues (fun _ t => t.remoteId) = m.remoteIds :=
  mapValues_state h.stems

end Leaves

end Engine

namespace Compilation

variable {plan : Plan} {W : Type} {c : Compilation plan} {types types' : Registry W}
  {S : Store W} {w w' : W} {n : Nat} {place : Place} {e : Engine W} {name : String} {m : Memory}
  {createMissing : Bool}

/-! ### What a run has left -/

/-- What is recorded about a name that is borne in a run. -/
theorem stems_of_bears (he : Engine.compile types plan = .ok e) (hapart : plan.Apart)
    (htracks : S.Tracks plan w) {typeId : String} (h : c.Bears name typeId) (id : Json) :
    ∃ tracked, e.tracked? name id = some tracked ∧ tracked.remoteId = id ∧
      tracked.typeId = typeId ∧ plan.Stems name tracked := by
  cases hdeclared : plan.declaration.get? name with
  | some r =>
    obtain ⟨action, hra, rfl, -⟩ := c.exists_declared hdeclared
    exact ⟨_, Engine.tracked?_declared he hdeclared id, rfl,
      bears_unique hapart htracks (bears_of_mem hra) h, .declared hdeclared rfl rfl⟩
  | none =>
    cases hprior : plan.prior.get? name with
    | some old =>
      have htype : old.typeId = typeId := typeId_of_bears htracks h hprior
      exact ⟨_, Engine.tracked?_kept he hdeclared hprior id, rfl, htype,
        .kept hdeclared hprior rfl rfl⟩
    | none =>
      obtain ⟨ra, hra, rfl, rfl | ⟨hupdate, rfl⟩⟩ := h
      · rcases c.mem_names.1 (mem_names_of_mem hra) with hmem | hmem
        · exact absurd hmem (Entries.get?_eq_none_iff.1 hprior)
        · exact absurd hmem (Entries.get?_eq_none_iff.1 hdeclared)
      · have hr := (c.planned hra).declared (by rw [hupdate]; nofun)
        exact ⟨_, Engine.tracked?_aside he hr hdeclared hprior id, rfl, rfl,
          .aside hdeclared hprior hr rfl rfl rfl⟩

theorem Reaches.borne (hd : c.Distinct)
    (htypes : ∀ t ∈ plan.declaration.catalog.keys, t ∈ types.keys) (hserves : S.Serves types)
    (h : c.Reaches types w n place) (hn : 0 < n) {id : Json}
    (hid : (c.after types w n).memory.remoteIds.get? name = some id) :
    ∃ typeId, c.Bears name typeId := by
  induction h, hn using Reaches.begun_induction generalizing name id with
  | loaded hadvances =>
    obtain ⟨hids, -⟩ := hadvances.loaded
    rw [hids, Table.get?_mapValues] at hid
    obtain ⟨tracked, htracked, -⟩ := Option.map_eq_some_iff.1 hid
    obtain ⟨ra, hra, rfl⟩ :=
      List.mem_map.1 (c.mem_names.2 (.inl (Table.mem_keys_of_get? htracked)))
    exact ⟨_, bears_of_mem hra⟩
  | step hreaches hpos hadvances ih =>
    have herror := hreaches.stands.2
    cases hadvances.alters htypes hserves (hreaches.ne_start hpos) with
    | quiet hids => exact ih (hids ▸ hid)
    | forgotten _ _ hids => exact ih (get?_of_erase (hids ▸ hid)).2
    | changed _ _ hids => exact ih (hids ▸ hid)
    | dropped _ _ hids => exact ih (get?_of_erase (hids ▸ hid)).2
    | created hfacing _ hids =>
      rw [hids, Table.get?_insert] at hid
      split at hid
      · next heq => exact heq ▸ ⟨_, (bears_of_facing hd hfacing herror).2.2.1⟩
      · exact ih hid
    | @putAside ra s hfacing hop hids =>
      rw [hids, Table.get?_insert] at hid
      split at hid
      · next heq =>
        obtain ⟨k, routine, before, rest, K, rfl, hfaces⟩ := hfacing
        obtain ⟨howner, hupdate, -⟩ := putAside_of_faces hd hfaces herror hop
        exact ⟨_, ra, hfaces.inRoutine.planned, rfl, .inr ⟨hupdate, by rw [← howner, heq]⟩⟩
      · exact ih (get?_of_erase hid).2

theorem typeId_of_stems (hapart : plan.Apart) (htracks : S.Tracks plan w) {tracked : Tracked}
    {r : Resource} (h : plan.Stems name tracked) (hr : plan.declaration.get? r.name = some r)
    (hname : name = r.name ∨ name = deletable r.name) : tracked.typeId = r.typeId := by
  cases h with
  | @declared r' hr' htype _ =>
    rcases hname with rfl | rfl
    · rw [htype, Option.some.inj (hr'.symm.trans hr)]
    · exact absurd rfl
        (hapart _ (Table.mem_keys_of_get? hr') _ (Table.mem_keys_of_get? hr))
  | @kept old _ hold htype _ => exact htype.trans (htracks.typed _ _ _ hold hr hname)
  | @aside r' hnone _ hr' heq htype _ =>
    rcases hname with rfl | rfl
    · exact absurd (hr.symm.trans hnone) nofun
    · have hnames : r.name = r'.name := deletable_inj heq
      rw [hnames] at hr
      rw [htype, Option.some.inj (hr'.symm.trans hr)]

/-- **What a run has left, as far as it has come.** -/
theorem Reaches.leaves (h : c.Setting types S w) (he : Engine.compile types plan = .ok e)
    (hreaches : c.Reaches types w n place) (hn : 0 < n)
    (hids : m.remoteIds = (c.after types w n).memory.remoteIds)
    (hworld : S.Unchanged (c.after types w n).world w') : e.Leaves plan S m w' := by
  have haccounted := hreaches.accounted h.distinct h.registered h.serves h.apart h.tracks hn
  have hstems : ∀ {name id}, m.remoteIds.get? name = some id → ∃ tracked,
      e.tracked? name id = some tracked ∧ tracked.remoteId = id ∧ c.Bears name tracked.typeId ∧
        plan.Stems name tracked := by
    intro name id hid
    rw [hids] at hid
    obtain ⟨typeId, hbears⟩ := hreaches.borne h.distinct h.registered h.serves hn hid
    obtain ⟨tracked, htracked, hsame, rfl, hstems⟩ := stems_of_bears he h.apart h.tracks hbears id
    exact ⟨tracked, htracked, hsame, hbears, hstems⟩
  have hstate : ∀ {name tracked}, (e.state m).get? name = some tracked →
      (c.after types w n).memory.remoteIds.get? name = some tracked.remoteId ∧
        c.Bears name tracked.typeId ∧ plan.Stems name tracked := by
    intro name tracked htracked
    rw [Engine.get?_state, Option.bind_eq_some_iff] at htracked
    obtain ⟨id, hid, hrecorded⟩ := htracked
    obtain ⟨tracked', hrecorded', rfl, hbears, hstems⟩ := hstems hid
    obtain rfl := Option.some.inj (hrecorded.symm.trans hrecorded')
    exact ⟨hids ▸ hid, hbears, hstems⟩
  refine ⟨fun name id hid => ?_, fun createMissing => ⟨?_, ?_, ?_⟩⟩
  · obtain ⟨tracked, htracked, hsame, -, hstem⟩ := hstems hid
    exact ⟨tracked, htracked, hsame, hstem⟩
  · intro name tracked r htracked hr hname
    exact typeId_of_stems h.apart h.tracks (hstate htracked).2.2 hr hname
  · intro name name' tracked tracked' htracked htracked' htype hid hnull
    obtain ⟨hslot, hbears, -⟩ := hstate htracked
    obtain ⟨hslot', hbears', -⟩ := hstate htracked'
    exact haccounted.distinct hbears (htype ▸ hbears') hslot (hid ▸ hslot') hnull
  · intro name tracked htracked hnull
    obtain ⟨hslot, hbears, -⟩ := hstate htracked
    exact hworld.given _ _ (haccounted.given hbears hslot hnull)

theorem leaves_of_fresh (e : Engine W) (plan : Plan) (S : Store W) (w : W) :
    e.Leaves plan S Memory.fresh w := by
  have hstate : ∀ {name tracked}, ¬ (e.state Memory.fresh).get? name = some tracked := by
    intro name tracked htracked
    rw [Engine.get?_state] at htracked
    cases htracked
  exact ⟨nofun, fun _ => ⟨fun _ _ _ h => absurd h hstate, fun _ _ _ _ h => absurd h hstate,
    fun _ _ h => absurd h hstate⟩⟩

/-! ### The next run -/

section

variable (h : c.Setting types S w) (hleaves : e.Leaves plan S m w')

include h hleaves

/-- **What was left compiles with the same declaration.** -/
theorem exists_engine (types' : Registry W) (createMissing : Bool) :
    ∃ e', Engine.compile types' (plan.resume (e.state m) createMissing) = .ok e' ∧
      ∃ c' : Compilation (plan.resume (e.state m) createMissing),
        c'.program = e'.program ∧ c'.rom = c.rom := by
  obtain ⟨c', hrom⟩ :=
    exists_compilation h.selfContained hleaves.stems_of_state c createMissing
  have hcompile := compile_eq_ok.2 ⟨c', rfl⟩
  exact ⟨_, by rw [Engine.compile, hcompile]; rfl, c', rfl, hrom⟩

/-- What was left is a setting for the next run. -/
theorem setting_of_leaves {c' : Compilation (plan.resume (e.state m) createMissing)}
    (hd : c'.Distinct) (hcovers : types'.Covers plan.declaration.catalog)
    (hserves : S.Serves types') : c'.Setting types' S w' :=
  ⟨hd, hcovers, h.selfContained, h.apart, hserves, hleaves.tracks createMissing⟩

end

theorem begun (hd : c.Distinct) (htypes : ∀ t ∈ plan.declaration.catalog.keys, t ∈ types.keys)
    (w : W) : (∃ p, c.Reaches types w 1 p) ∧
      (c.after types w 1).memory.remoteIds = plan.prior.mapValues (fun _ t => t.remoteId) ∧
      (c.after types w 1).world = w := by
  have hstands : c.Stands (c.after types w 0).memory .start := rfl
  obtain ⟨p, hadvances⟩ := advances_of_continues hd htypes hstands rfl (continues_start hstands)
  have hreaches : c.Reaches types w 1 p := .step .start (by rw [after_succ]; exact hadvances)
  exact ⟨⟨p, hreaches⟩, hreaches.begun Nat.one_pos⟩

/-- One run takes up what another one has left. -/
structure Resumes {plan' : Plan} (c : Compilation plan) (c' : Compilation plan') (S : Store W)
    (r r' : Run W) : Prop where
  declaration : plan'.declaration = plan.declaration
  rom : c'.rom = c.rom
  remoteIds : r'.memory.remoteIds = r.memory.remoteIds
  unchanged : S.Unchanged r.world r'.world

namespace Resumes

variable {plan' : Plan} {c' : Compilation plan'} {r r' : Run W}

theorem object (h : c.Resumes c' S r r') (x : Resource) : x.object S r' = x.object S r := by
  unfold Resource.object
  rw [h.unchanged.held, Memory.remoteId_congr (congrArg (Table.get? · x.name) h.remoteIds)]

theorem judged (h : c.Resumes c' S r r') {x : Resource} {d : Decision} (hjudged : c.Judged S r x d) :
    c'.Judged S r' x d := by
  obtain ⟨object, fields, hobject, hresolve, hd⟩ := hjudged
  have hactual : plan'.actual S r' = plan.actual S r := by
    funext o
    unfold Plan.actual
    rw [h.declaration, h.remoteIds]
    simp only [h.object]
  refine ⟨object, fields, (h.object x).trans hobject, ?_, hd⟩
  rw [hactual]
  rwa [show c'.program.tables.rom = c.program.tables.rom from h.rom]

end Resumes

/-- **The next run takes up what was left.** -/
theorem resumes_of_leaves (hleaves : e.Leaves plan S m w')
    {c' : Compilation (plan.resume (e.state m) createMissing)} (h : c'.Setting types' S w')
    (hrom : c'.rom = c.rom) {r : Run W} (hids : m.remoteIds = r.memory.remoteIds)
    (hworld : S.Unchanged r.world w') : c.Resumes c' S r (c'.after types' w' 1) := by
  obtain ⟨-, hbegun, hsame⟩ := begun h.distinct h.registered w'
  exact ⟨rfl, hrom, hbegun.trans (hleaves.remoteIds_state.trans hids), by rwa [hsame]⟩

end Compilation

end Provisioning
