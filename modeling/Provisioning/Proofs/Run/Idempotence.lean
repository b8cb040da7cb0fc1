/-
Running again.

At the end of a run every declared resource is tracked and has an object that is as declared,
so a second run finds nothing to do.  It only looks: it probes, reads and compares.  The
identifiers stay, the objects stay, and in the end the same snapshot is taken.

The second program is not the first one again.  What the first one creates the second one
updates, and an update comes with more subroutines, so that names may be ambiguous in the
second program though they are not in the first.  That its keys and labels are distinct is a
condition of its own, and it is needed: `not_idempotent_ambiguous`.
-/
import Provisioning.Proofs.Backend.Shelf
import Provisioning.Proofs.Run.Handover

namespace Provisioning

/-- What a run does that finds everything as it is declared. -/
structure Engine.Idle {W : Type} (e : Engine W) (plan : Plan) (S : Store W) (w : W)
    (g : Progress W) : Prop where
  completed : g.summary.outcome = .completed
  decided : ∀ name ∈ plan.declaration.resources.keys,
    g.run.memory.decisions.get? name = some .noChange
  /-- It only looks. -/
  looked : ∀ o ∈ g.run.log, ∃ (op : ResourceOp) (name : String),
    op.peeks = true ∧ o = op.record name
  changes : g.summary.changes = 0
  /-- The objects are what they were. -/
  unchanged : S.Unchanged w g.run.world
  /-- The snapshot is what it was. -/
  state : e.state g.run.memory = plan.prior

theorem Engine.state_eq {W : Type} {e : Engine W} {m : Memory} {prior : Snapshot}
    (hids : m.remoteIds = prior.mapValues fun _ t => t.remoteId)
    (h : ∀ name tracked, prior.get? name = some tracked →
      e.tracked? name tracked.remoteId = some tracked) : e.state m = prior := by
  refine Table.eq_of_entries ?_
  rw [entries_state, hids]
  show (prior.entries.map _).filterMap _ = _
  rw [List.filterMap_map]
  refine (List.filterMap_congr fun entry hentry => ?_).trans List.filterMap_some
  exact congrArg (Option.map (entry.1, ·)) (h _ _ (Table.get?_eq_some_iff.2 hentry))

theorem ResourceOp.not_changing_of_peeks {op : ResourceOp} (h : op.peeks = true) (name : String) :
    (op.record name).name ∉ Summary.changing := by
  show op.word ∉ Summary.changing
  revert h
  cases op <;> decide

namespace Compilation

variable {plan : Plan} {W : Type} {c : Compilation plan} {types : Registry W} {S : Store W} {w : W}
  {n : Nat} {place : Place}

theorem exists_facing_of_upcoming (hd : c.Distinct)
    (htypes : ∀ t ∈ plan.declaration.catalog.keys, t ∈ types.keys) (h : c.Reaches types w n place)
    {o : Operation} (ho : Run.upcoming c.program (c.after types w n).memory = [o]) :
    ∃ ra s, c.Facing types (c.after types w n).memory place ra s ∧ o = s.op.record s.name := by
  have hstands := h.stands.1
  have hrunning : (c.after types w n).ended c.program = false := by
    by_contra hended
    rw [Run.upcoming_of_halted (Bool.not_eq_false _ ▸ hended)] at ho
    cases ho
  obtain ⟨i, hi⟩ := Run.exists_instruction hrunning
  rw [Run.upcoming_of_instruction hrunning hi] at ho
  obtain ⟨op, rfl⟩ : ∃ op, i = .resource op := by
    cases i <;> first | exact ⟨_, rfl⟩ | cases ho
  obtain ⟨k, ra, routine, before, rest, K, s, rfl, rfl, hfaces⟩ :=
    faces_of_instruction hd htypes hstands hrunning hi
  refine ⟨ra, s, ⟨k, routine, before, rest, K, rfl, hfaces⟩, ?_⟩
  rw [← Run.upcoming_of_instruction hrunning hi, upcoming_of_faces hfaces hrunning] at ho
  exact (List.cons.inj ho).1.symm

/-! ### A run in which everything is in order -/

section

variable {names : String → Prop} (h : c.Setting types S w)
  (hsteady : c.Steady S (c.after types w 1) names)
  (hall : ∀ ra ∈ c.actions, ra.2 ≠ .delete ∧ names ra.1.name)

include h hsteady hall

theorem Steady.peeks_of_facing (hreaches : c.Reaches types w n place) {ra : Resource × Action}
    {s : Staged W} (hfacing : c.Facing types (c.after types w n).memory place ra s) :
    s.op.peeks = true := by
  obtain ⟨k, routine, before, rest, K, rfl, hfaces⟩ := hfacing
  obtain ⟨haction, hname⟩ := hall ra hfaces.inRoutine.planned
  exact hsteady.peeks_of_faces h hreaches hfaces haction hname (hsteady.kept_before h hreaches)

/-- A step neither tracks anything else nor changes an object. -/
theorem Steady.idles (hreaches : c.Reaches types w n place) {place' : Place} (hn : 0 < n)
    (hadvances : c.Advances types (c.after types w n) (c.after types w (n + 1)) place place') :
    (c.after types w (n + 1)).memory.remoteIds = (c.after types w n).memory.remoteIds ∧
      S.Unchanged (c.after types w n).world (c.after types w (n + 1)).world := by
  have hpeeks : ∀ {ra : Resource × Action} {s : Staged W},
      c.Facing types (c.after types w n).memory place ra s → s.op.peeks = true :=
    hsteady.peeks_of_facing h hall hreaches
  have hplace : place ≠ .start := hreaches.ne_start hn
  cases hadvances.alters h.registered h.serves hplace with
  | quiet hids hunchanged => exact ⟨hids, hunchanged⟩
  | forgotten hra hforgets =>
    obtain ⟨k, before, rest, K, rfl, -⟩ := hforgets
    obtain ⟨haction, hname⟩ := hall _ hra
    exact absurd hreaches (hsteady.not_missing h hname fun t hpos hlt =>
      hsteady.kept_before h hreaches t hpos hlt.le _ hra haction hname)
  | created hfacing hop =>
    have hpeek := hpeeks hfacing
    rw [hop] at hpeek
    cases hpeek
  | changed hfacing hop =>
    have hpeek := hpeeks hfacing
    rcases hop with hop | hop <;> rw [hop] at hpeek <;> cases hpeek
  | dropped hfacing hop =>
    have hpeek := hpeeks hfacing
    rw [hop] at hpeek
    cases hpeek
  | putAside hfacing hop =>
    have hpeek := hpeeks hfacing
    rw [hop] at hpeek
    cases hpeek

/-- **Where everything is in order, a run changes nothing.** -/
theorem Steady.unchanged (hreaches : c.Reaches types w n place) (hn : 0 < n) :
    (c.after types w n).memory.remoteIds = plan.prior.mapValues (fun _ t => t.remoteId) ∧
      S.Unchanged w (c.after types w n).world := by
  induction hreaches, hn using Reaches.begun_induction with
  | loaded hadvances =>
    obtain ⟨hids, -, -, -, hworld⟩ := hadvances.loaded
    refine ⟨hids, ?_⟩
    rw [hworld]
    exact .refl S w
  | step hreaches hpos hadvances ih =>
    obtain ⟨hids, hunchanged⟩ := ih
    obtain ⟨hids', hunchanged'⟩ := hsteady.idles h hall hreaches hpos hadvances
    exact ⟨hids'.trans hids, hunchanged.trans hunchanged'⟩

/-- **Where everything is in order, a run only looks.** -/
theorem Steady.looked (hreaches : c.Reaches types w n place) :
    ∀ o ∈ (c.after types w n).log, ∃ (op : ResourceOp) (name : String),
      op.peeks = true ∧ o = op.record name := by
  induction hreaches with
  | start => exact nofun
  | @step n place place' hreaches hadvances ih =>
    intro o ho
    rw [after_succ, Run.log_step] at ho
    rcases List.mem_append.1 ho with ho | ho
    · exact ih o ho
    · rcases Run.upcoming_eq c.program (c.after types w n).memory with hnone | ⟨o', hsome⟩
      · rw [hnone] at ho
        cases ho
      · rw [hsome, List.mem_singleton] at ho
        obtain ⟨ra, s, hfacing, hrecord⟩ :=
          exists_facing_of_upcoming h.distinct h.registered hreaches hsome
        exact ⟨s.op, s.name, hsteady.peeks_of_facing h hall hreaches hfacing, ho.trans hrecord⟩

end

/-! ### The run after a run that has ended -/

theorem Reaches.completed {e : Engine W} (h : c.Reaches types w n .halted)
    (hprogram : c.program = e.program) : e.outcome (c.after types w n) = .completed := by
  have hended : (c.after types w n).ended e.program = true :=
    hprogram ▸ halted_of_stands h.stands.1 c.program.size
  unfold Engine.outcome
  rw [h.stands.2, hended]
  rfl

/-- Within any budget that is large enough an engine comes to the end. -/
theorem Reaches.run_eq {e : Engine W} (h : c.Reaches types w n .halted)
    (hprogram : c.program = e.program) (hregistry : e.registry = types) {budget : Nat}
    (hbudget : n ≤ budget) : (e.run budget (Run.fresh w)).run = c.after types w n := by
  rw [Engine.run_run, ← hprogram, hregistry]
  exact Run.steps_of_ended_le (halted_of_stands h.stands.1 c.program.size) hbudget

section

variable {e : Engine W} {createMissing : Bool} (h : c.Setting types S w)
  (he : Engine.compile types plan = .ok e) (hreaches : c.Reaches types w n .halted)
  {c' : Compilation (plan.resume (e.state (c.after types w n).memory) createMissing)}

include h he hreaches

theorem update_of_halted {ra : Resource × Action} (hra : ra ∈ c'.actions) : ra.2 = .update := by
  have hkeys := hreaches.state_of_halted h.distinct h.registered h.apart he
  have hplanned := c'.planned hra
  have htracked : (e.state (c.after types w n).memory).contains ra.1.name = true ↔
      ra.2 ≠ .create := hplanned.tracked
  rw [Table.contains_iff, hkeys] at htracked
  cases haction : ra.2 with
  | update => rfl
  | create =>
    have hdeclared := Table.mem_keys_of_get? (hplanned.declared (by rw [haction]; nofun))
    exact absurd haction (htracked.1 hdeclared)
  | delete =>
    have hundeclared := Entries.get?_eq_none_iff.1 (hplanned.undeclared haction)
    exact absurd (htracked.2 (by rw [haction]; nofun)) hundeclared

/-- **The second run finds everything in order.** -/
theorem prepared_of_halted (hobliging : S.Obliging types) (hd : c'.Distinct)
    (hrom : c'.rom = c.rom) :
    c'.Prepared types S (c.after types w n).world fun _ => True := by
  have hpos : 0 < n := hreaches.pos nofun
  have hleaves := hreaches.leaves h he hpos rfl (.refl S (c.after types w n).world)
  have hsetting : c'.Setting types S (c.after types w n).world :=
    setting_of_leaves h hleaves hd h.covers h.serves
  have hresumes := resumes_of_leaves hleaves hsetting hrom rfl (.refl S _)
  have hjudged : ∀ ra ∈ c'.actions, ra.2 ≠ .delete →
      c'.Judged S (c'.after types (c.after types w n).world 1) ra.1 .noChange := by
    intro ra hra haction
    obtain ⟨action, hra', -, haction'⟩ := c.exists_declared ((c'.planned hra).declared haction)
    have hjudged := Reaches.judged_of_halted h hreaches hra' haction'
    exact hresumes.judged hjudged
  refine ⟨hsetting, hobliging, ⟨fun ra hra haction _ => hjudged ra hra haction, fun _ _ _ _ _ _ =>
    trivial⟩, fun ra hra hupdate => .inl ?_, fun _ _ _ _ => trivial⟩
  obtain ⟨object, -, hobject, -⟩ := hjudged ra hra (by rw [hupdate]; nofun)
  rw [hobject]
  nofun

theorem declared_of_state {name : String} {tracked : Tracked}
    (htracked : (e.state (c.after types w n).memory).get? name = some tracked) :
    ∃ r, plan.declaration.get? name = some r ∧
      tracked = ⟨tracked.remoteId, r.typeId, r.waits⟩ := by
  have hkeys := hreaches.state_of_halted h.distinct h.registered h.apart he
  obtain ⟨r, hr⟩ := Option.ne_none_iff_exists'.1 fun hnone =>
    Entries.get?_eq_none_iff.1 hnone ((hkeys name).1 (Table.mem_keys_of_get? htracked))
  rw [Engine.get?_state, Option.bind_eq_some_iff] at htracked
  obtain ⟨id, -, htracked⟩ := htracked
  rw [Engine.tracked?_declared he hr] at htracked
  cases htracked
  exact ⟨r, hr, rfl⟩

/-- **The second run is idle.** -/
theorem idle_of_halted (hobliging : S.Obliging types) (hd : c'.Distinct) (hrom : c'.rom = c.rom)
    {e' : Engine W} (he' : Engine.compile types
      (plan.resume (e.state (c.after types w n).memory) createMissing) = .ok e')
    (hprogram : c'.program = e'.program) :
    ∃ N, ∀ budget ≥ N, e'.Idle (plan.resume (e.state (c.after types w n).memory) createMissing) S
      (c.after types w n).world (e'.run budget (Run.fresh (c.after types w n).world)) := by
  have hprepared := prepared_of_halted h he hreaches hobliging hd hrom
  have hsetting := hprepared.setting
  have hall : ∀ ra ∈ c'.actions, ra.2 ≠ .delete ∧ True := fun ra hra =>
    ⟨by rw [update_of_halted h he hreaches hra]; nofun, trivial⟩
  obtain ⟨N, hend⟩ := hprepared.reaches_halted
  have hpos : 0 < N := hend.pos nofun
  obtain ⟨hids, hunchanged⟩ := hprepared.steady.unchanged hsetting hall hend hpos
  have hlooked := hprepared.steady.looked hsetting hall hend
  refine ⟨N, fun budget hbudget => ?_⟩
  have hrun : (e'.run budget (Run.fresh (c.after types w n).world)).run =
      c'.after types (c.after types w n).world N :=
    hend.run_eq hprogram (Engine.compile_eq_ok he').2.1 hbudget
  have hstate : e'.state (c'.after types (c.after types w n).world N).memory =
      e.state (c.after types w n).memory := by
    refine Engine.state_eq hids fun name tracked htracked => ?_
    obtain ⟨r, hr, heq⟩ := declared_of_state h he hreaches htracked
    rw [heq]
    exact Engine.tracked?_declared he' hr tracked.remoteId
  refine ⟨?_, fun name hname => ?_, ?_, ?_, ?_, ?_⟩
  · show e'.outcome (e'.run budget (Run.fresh (c.after types w n).world)).run = .completed
    rw [hrun]
    exact hend.completed hprogram
  · obtain ⟨ra, hra, rfl⟩ := List.mem_map.1 (c'.mem_names.2 (.inr hname))
    obtain hupdate := update_of_halted h he hreaches hra
    rw [hrun]
    have hsettled := hend.settled_of_halted hra
    rw [hupdate] at hsettled
    cases hdecided : (c'.after types (c.after types w n).world N).memory.decisions.get? ra.1.name with
    | none =>
      rw [hdecided] at hsettled
      exact absurd hsettled (none_notMem_settled _)
    | some d =>
      rw [hprepared.steady.decided hsetting hend hra (by rw [hupdate]; nofun) trivial
        (hprepared.steady.kept_before hsetting hend) hdecided]
  · rw [hrun]
    exact hlooked
  · refine Engine.changes_drive budget _ fun o ho => ?_
    obtain ⟨op, name, hpeeks, rfl⟩ := hlooked o (hrun ▸ ho)
    exact ResourceOp.not_changing_of_peeks hpeeks name
  · rw [hrun]
    exact hunchanged
  · rw [hrun]
    exact hstate

end

/-- **Running again is idle: if a run completes on a store, the same declaration compiles with
the snapshot it leaves, and where its keys and labels are distinct again, the next run completes,
finds no change, only looks, and leaves all objects and the snapshot as they are.** -/
theorem idempotent_of_steps {e : Engine W} (he : Engine.compile types plan = .ok e)
    (hself : plan.declaration.SelfContained) (hcovers : types.Covers plan.declaration.catalog)
    (hserves : S.Serves types) (hobliging : S.Obliging types) :
    ∃ c : Compilation plan, c.program = e.program ∧ (c.Distinct → plan.Apart →
      ∀ w, S.Tracks plan w → ∀ n,
        e.outcome (Run.steps e.program e.registry n (Run.fresh w)) = .completed →
        ∀ createMissing,
          let r := Run.steps e.program e.registry n (Run.fresh w)
          let again := plan.resume (e.state r.memory) createMissing
          ∃ e', Engine.compile types again = .ok e' ∧
            ∃ c' : Compilation again, c'.program = e'.program ∧ (c'.Distinct →
              ∃ N, ∀ budget ≥ N, e'.Idle again S r.world (e'.run budget (Run.fresh r.world)))) := by
  obtain ⟨hcompile, hregistry, -⟩ := Engine.compile_eq_ok he
  obtain ⟨c, hc⟩ := compile_eq_ok.1 hcompile
  refine ⟨c, hc, fun hd hapart w htracks n houtcome createMissing => ?_⟩
  have h : c.Setting types S w := ⟨hd, hcovers, hself, hapart, hserves, htracks⟩
  obtain ⟨herror, hended⟩ := Engine.outcome_eq_completed houtcome
  rw [← hc, hregistry] at herror hended ⊢
  obtain ⟨t, -, hreaches, hafter⟩ := reaches_halted hd h.registered hended herror
  rw [show Run.steps c.program types n (Run.fresh w) = c.after types w t from hafter]
  have hleaves := hreaches.leaves h he (hreaches.pos nofun) rfl (.refl S _)
  obtain ⟨e', he', c', hprogram, hrom⟩ := exists_engine h hleaves types createMissing
  exact ⟨e', he', c', hprogram, fun hd' =>
    idle_of_halted h he hreaches hobliging hd' hrom he' hprogram⟩

/-- Both files are declared, and the first one is tracked. -/
def trackedPlan : Plan :=
  ⟨linkedDeclaration, Table.ofList [("a", ⟨.nat 0, "file", []⟩)], false⟩

/-- On this shelf the first file has another name. -/
def oldShelf : Shelf :=
  ⟨1, fun t i => if t = "file" ∧ i = .nat 0 then some [("name", .str "old")] else none⟩

theorem eq_of_trackedPlan {name : String} {tracked : Tracked}
    (h : trackedPlan.prior.get? name = some tracked) :
    name = "a" ∧ tracked = ⟨.nat 0, "file", []⟩ := by
  simpa using Prod.mk.inj (List.mem_singleton.1 (Table.get?_eq_some_iff.1 h))

theorem apart_tracked : trackedPlan.Apart := by
  unfold Plan.Apart
  decide +kernel

theorem tracks_old : Shelf.store.Tracks trackedPlan oldShelf := by
  have hfile : ∀ {r : Resource}, trackedPlan.declaration.get? r.name = some r →
      r.typeId = "file" := by
    intro r h
    rcases List.mem_pair.1 (Table.get?_eq_some_iff.1 h) with heq | heq <;>
      rw [(Prod.mk.inj heq).2] <;> rfl
  refine ⟨fun name tracked r h hr _ => ?_, fun n n' tracked tracked' h h' _ _ _ => ?_,
    fun name tracked h _ => ?_⟩
  · rw [(eq_of_trackedPlan h).2, hfile hr]
  · rw [(eq_of_trackedPlan h).1, (eq_of_trackedPlan h').1]
  · rw [(eq_of_trackedPlan h).2]
    refine ⟨nofun, Json.sound_num _, fun k hk heq => ?_⟩
    have hk : 1 ≤ k := hk
    have heq : (0 : Int) = k := by simpa [Json.nat] using heq
    omega

/-- In the first run the first file is replaced and the second one is created. -/
theorem idempotent_of_steps_old :
    ∃ e, Engine.compile (Shelf.types (plainSchema false)) trackedPlan = .ok e ∧
      let r := Run.steps e.program e.registry 200 (Run.fresh oldShelf)
      let again := trackedPlan.resume (e.state r.memory) false
      e.outcome r = .completed ∧ ∃ e', Engine.compile (Shelf.types (plainSchema false)) again = .ok e' ∧
        ∃ N, ∀ budget ≥ N,
          e'.Idle again Shelf.store r.world (e'.run budget (Run.fresh r.world)) := by
  obtain ⟨c, -, hidempotent⟩ := idempotent_of_steps
    (rfl : Engine.compile (Shelf.types (plainSchema false)) trackedPlan = .ok _)
    selfContained_linked
    (Shelf.covers_types (plainSchema false))
    (Shelf.serves_types _) (Shelf.obliging_types _)
  have hd : c.Distinct := distinct_of_actions rfl (by decide +kernel) (by decide +kernel)
  obtain ⟨e', he', c', -, hidle⟩ := hidempotent hd apart_tracked oldShelf tracks_old 200
    (by decide +kernel) false
  have hd' : ∀ {prior : Snapshot},
      prior = Table.ofList [("a", ⟨.nat 1, "file", []⟩), ("b", ⟨.nat 2, "file", ["a"]⟩)] →
      ∀ c' : Compilation (trackedPlan.resume prior false), c'.Distinct := by
    rintro _ rfl c'
    exact distinct_of_actions rfl (by decide +kernel) (by decide +kernel)
  exact ⟨_, rfl, by decide +kernel, e', he', hidle (hd' (by decide +kernel) c')⟩

/-! ### Names that are ambiguous only in the second program -/

/-- Two new files; the name of the first is that of the second and the name of a routine. -/
def ambiguousPlan : Plan := ⟨plainDeclaration true ["a_recreate", "a"], Table.empty, false⟩

theorem selfContained_ambiguous : ambiguousPlan.declaration.SelfContained := by
  have hfirst : (plainDeclaration true ["a_recreate"]).SelfContained := by
    refine .add (.empty (Table.ofList [("file", plainSchema true)])) ?_
      (rfl : Declaration.add _ "file" "a_recreate" [("name", .json (.str "a_recreate")),
        ("contents", .json (.str "new"))] = .ok (_, _))
    exact ⟨trivial, trivial, trivial⟩
  have hoffers : (plainDeclaration true ["a_recreate"]).OffersFields
      [("name", .json (.str "a")), ("contents", .json (.str "new"))] := ⟨trivial, trivial, trivial⟩
  exact .add hfirst hoffers
    (rfl : (plainDeclaration true ["a_recreate"]).add "file" "a" _ = .ok (_, _))

/-- **The second program needs distinct keys of its own.**  In it, the commit of `a_recreate`
has the key of the routine that commits a replacement of `a`, and is overwritten: the second
run deletes what `a` is said to have put aside. -/
theorem not_idempotent_ambiguous :
    ∃ e, Engine.compile (Shelf.types (plainSchema true)) ambiguousPlan = .ok e ∧
      (∃ c : Compilation ambiguousPlan, c.program = e.program ∧ c.Distinct) ∧
      ambiguousPlan.declaration.SelfContained ∧ ambiguousPlan.Apart ∧
      Shelf.store.Tracks ambiguousPlan ⟨0, fun _ _ => none⟩ ∧
      let r := Run.steps e.program e.registry 200 (Run.fresh ⟨0, fun _ _ => none⟩)
      let again := ambiguousPlan.resume (e.state r.memory) false
      e.outcome r = .completed ∧ ∃ e', Engine.compile (Shelf.types (plainSchema true)) again = .ok e' ∧
        (e'.run 200 (Run.fresh r.world)).summary.changes = 1 ∧
        ¬ ∃ N, ∀ budget ≥ N,
          e'.Idle again Shelf.store r.world (e'.run budget (Run.fresh r.world)) := by
  obtain ⟨e, he⟩ : ∃ e, Engine.compile (Shelf.types (plainSchema true)) ambiguousPlan = .ok e :=
    ⟨_, rfl⟩
  obtain ⟨c, hc⟩ := compile_eq_ok.1 (Engine.compile_eq_ok he).1
  have hapart : ambiguousPlan.Apart := by
    unfold Plan.Apart
    decide +kernel
  have hfirst : e.outcome (Run.steps e.program e.registry 200 (Run.fresh ⟨0, fun _ _ => none⟩)) =
        .completed ∧
      e.state (Run.steps e.program e.registry 200 (Run.fresh ⟨0, fun _ _ => none⟩)).memory =
        Table.ofList [("a_recreate", ⟨.nat 0, "file", []⟩), ("a", ⟨.nat 1, "file", []⟩)] := by
    obtain rfl : _ = e := Except.ok.inj he
    exact ⟨by decide +kernel, by decide +kernel⟩
  refine ⟨e, he, ⟨c, hc, distinct_of_actions rfl (by decide +kernel) (by decide +kernel)⟩,
    selfContained_ambiguous, hapart, ⟨nofun, nofun, nofun⟩, hfirst.1, ?_⟩
  rw [hfirst.2]
  obtain ⟨e', he'⟩ : ∃ e', Engine.compile (Shelf.types (plainSchema true))
      (ambiguousPlan.resume (Table.ofList [("a_recreate", ⟨.nat 0, "file", []⟩),
        ("a", ⟨.nat 1, "file", []⟩)]) false) = .ok e' := ⟨_, rfl⟩
  generalize hr : Run.steps e.program e.registry 200 (Run.fresh ⟨0, fun _ _ => none⟩) = r
  have hsecond : (e'.run 200 (Run.fresh r.world)).summary.changes = 1 ∧
      (Run.steps e'.program e'.registry 200 (Run.fresh r.world)).ended e'.program = true ∧
      ResourceOp.delete.record "_deletable_a" ∈
        (Run.steps e'.program e'.registry 200 (Run.fresh r.world)).log := by
    obtain rfl : _ = e := Except.ok.inj he
    obtain rfl : _ = e' := Except.ok.inj he'
    subst hr
    exact ⟨by decide +kernel, by decide +kernel, by decide +kernel⟩
  refine ⟨e', he', hsecond.1, ?_⟩
  rintro ⟨N, hidle⟩
  have hlooked := (hidle (max N 200) (le_max_left N 200)).looked
  rw [Engine.run_run, Run.steps_of_ended_le hsecond.2.1 (le_max_right N 200)] at hlooked
  obtain ⟨op, name, hpeeks, heq⟩ := hlooked _ hsecond.2.2
  obtain ⟨rfl, -⟩ := ResourceOp.record_inj.1 heq
  cases hpeeks

end Compilation

end Provisioning
