/-
What was done tells the truth.

By induction on a run, what is known of a resource from what was done to it holds of its
object.  A step that is not about the resource leaves its object alone, and the objects its
fields refer to as well, since these are checked before it is started: so what is known stays
true.  A step that is about the resource reads, compares or writes the object, and what is
known afterwards is what it found or wrote.

The stored outputs go along with it: as long as starts and checks are made, what is stored for
a resource whose outputs were taken is what its object has.
-/
import Provisioning.Proofs.Run.InOrder

namespace Provisioning

theorem Resource.refreshed_probing (r : Resource) (createMissing : Bool) :
    r.refreshed (r.probing createMissing) = false := by
  cases createMissing <;>
    simp [refreshed, verdict, probing, did, weigh_record, ResourceOp.refreshes]

/-- Whatever touches the object makes the stored outputs old. -/
theorem ResourceOp.refreshes_of_touches {op : ResourceOp} (h : op.touches = true) (before : Bool) :
    op.refreshes before = false := by
  cases op <;> first | rfl | cases h

namespace Compilation

variable {plan : Plan} {W : Type} {c : Compilation plan} {types : Registry W} {S : Store W} {w : W}
  {n : Nat} {place place' : Place} {ra : Resource × Action} {r : Run W}

theorem achieved_of_forgetting {m : Memory} (hstands : c.Stands m place)
    (h : Forgetting plan place ra) (d : Option Decision) :
    c.achieved place ra d = ra.1.probing plan.createMissing := by
  obtain ⟨k, before, rest, K, rfl, hrecords⟩ := h
  have hroutine : c.InRoutine k ra .missingCreate before _ K m := hstands
  rw [achieved_of_start hroutine rfl, hrecords]
  rfl

theorem Stood.exists_object (h : c.Stood S r place ra)
    (hne : ra.1.standing (c.achieved place ra (r.memory.decisions.get? ra.1.name)) ≠ .unknown) :
    ∃ object, ra.1.object S r = some object := by
  cases h with
  | unknown heq => exact absurd heq hne
  | there _ hobject => exact ⟨_, hobject⟩
  | compared _ _ hjudged | inOrder _ hjudged =>
    obtain ⟨object, -, hobject, -⟩ := hjudged
    exact ⟨object, hobject⟩

theorem object_of_read (h : c.Setting types S w) {k : Nat} {routine : Routine}
    {before rest : List Instruction} {K : Known} {s : Staged W} {m : Memory} {calls : List Exchange}
    (hfaces : c.Faces types k ra routine before rest K s (c.after types w n).memory)
    (hperformed : s.Performed c.program.tables.rom (c.after types w n).memory
      (c.after types w n).world m (c.after types w (n + 1)).world calls)
    (hmemory : (c.after types w (n + 1)).memory =
      { m with programCounter := (c.after types w n).memory.programCounter + 1 })
    (hop : s.op = .read) (hname : s.name = ra.1.name) :
    ∃ object, ra.1.object S (c.after types w (n + 1)) = some object := by
  have hkeeps := keeps_of_faces h.serves hfaces
  obtain ⟨object, hheld, -, hids⟩ := Staged.read_back hkeeps hperformed hop
  have hunchanged := Staged.unchanged hkeeps hperformed (by rw [hop]; rfl)
  have hslot : (c.after types w (n + 1)).memory.remoteId ra.1.name =
      (c.after types w n).memory.remoteId ra.1.name :=
    Memory.remoteId_congr (by rw [hmemory, hids])
  refine ⟨object, ?_⟩
  unfold Resource.object
  rw [hslot, hunchanged.held, ← hheld, hname, hfaces.serves.typeId]

section

variable (h : c.Setting types S w) (hreaches : c.Reaches types w n place)
  (hadvances : c.Advances types (c.after types w n) (c.after types w (n + 1)) place place')
  (hra : ra ∈ c.actions) (haction : ra.2 ≠ .delete)

include h hreaches hadvances hra haction

/-- What is known of an object stays true while nothing happens to it. -/
theorem Stood.kept (hkept : ra.1.Kept S (c.after types w n) (c.after types w (n + 1)))
    (hstanding : ra.1.standing
        (c.achieved place' ra ((c.after types w (n + 1)).memory.decisions.get? ra.1.name)) =
      ra.1.standing (c.achieved place ra ((c.after types w n).memory.decisions.get? ra.1.name)))
    (hstood : c.Stood S (c.after types w n) place ra) :
    c.Stood S (c.after types w (n + 1)) place' ra := by
  -- Something is known of it, so it is started, and what its fields refer to is checked.
  have hjudged : ∀ {d : Decision}, c.Judged S (c.after types w n) ra.1 d →
      ra.1.standing (c.achieved place ra
        ((c.after types w n).memory.decisions.get? ra.1.name)) ≠ .unknown →
      c.Judged S (c.after types w (n + 1)) ra.1 d := by
    intro d hjudged hknown
    obtain ⟨k, hle, hk⟩ := begun_of_achieved hra hreaches.stands.1 fun hnil =>
      hknown (by rw [hnil]; rfl)
    exact hjudged.congr hkept.object fun o ho =>
      h.actual_eq hreaches hadvances hra haction hk hle ho
  cases hstood with
  | unknown heq => exact .unknown (hstanding.trans heq)
  | there heq hobject => exact .there (hstanding.trans heq) (hkept.object.trans hobject)
  | compared heq hdecided hj =>
    exact .compared (hstanding.trans heq) (hadvances.kept _ _ hdecided)
      (hjudged hj (by rw [heq]; nofun))
  | inOrder heq hj => exact .inOrder (hstanding.trans heq) (hjudged hj (by rw [heq]; nofun))

theorem kept_of_not_touches (hn : 0 < n) {s : Staged W}
    (hfacing : c.Facing types (c.after types w n).memory place ra s)
    (hop : s.name = ra.1.name → s.op.touches = false) :
    ra.1.Kept S (c.after types w n) (c.after types w (n + 1)) := by
  rcases h.kept_or_touched hreaches hadvances hra haction hn with hkept | htouched
  · exact hkept
  · cases htouched with
    | forgotten hforgetting => exact absurd hforgetting hfacing.not_forgetting
    | did hfacing' hname htouches =>
      obtain rfl := Facing.unique hfacing hfacing'
      rw [hop hname] at htouches
      cases htouches

/-- **What a step does to what is known of an object.** -/
theorem Stood.step (hn : 0 < n)
    (hmirrors : c.Forward place → c.Mirrors S (c.after types w n) place)
    (hstood : c.Stood S (c.after types w n) place ra) :
    c.Stood S (c.after types w (n + 1)) place' ra := by
  rcases hadvances.achieves h.registered h.distinct h.serves hra with
    ⟨hnot, hsame⟩ | ⟨s, m, hfacing, hperformed, hmemory, hachieved⟩
  · rcases h.kept_or_touched hreaches hadvances hra haction hn with hkept | htouched
    · exact hstood.kept h hreaches hadvances hra haction hkept (by rw [hsame])
    · cases htouched with
      | forgotten hforgetting =>
        refine .unknown ?_
        rw [hsame, achieved_of_forgetting hadvances.stands hforgetting]
        exact ra.1.standing_probing plan.createMissing
      | did hfacing => exact absurd hfacing (hnot _)
  · have hstanding : ra.1.standing
          (c.achieved place' ra ((c.after types w (n + 1)).memory.decisions.get? ra.1.name)) =
        if s.name = ra.1.name then s.op.stands (ra.1.standing (c.achieved place ra
          ((c.after types w n).memory.decisions.get? ra.1.name))) else
          ra.1.standing (c.achieved place ra
            ((c.after types w n).memory.decisions.get? ra.1.name)) := by
      rw [hachieved, Resource.standing_concat]
    have hquiet : (s.name = ra.1.name → s.op.touches = false) →
        ra.1.standing (c.achieved place' ra
            ((c.after types w (n + 1)).memory.decisions.get? ra.1.name)) =
          ra.1.standing (c.achieved place ra
            ((c.after types w n).memory.decisions.get? ra.1.name)) →
        c.Stood S (c.after types w (n + 1)) place' ra := fun hop heq =>
      hstood.kept h hreaches hadvances hra haction
        (kept_of_not_touches h hreaches hadvances hra haction hn hfacing hop) heq
    by_cases hname : s.name = ra.1.name
    · rw [if_pos hname] at hstanding
      obtain ⟨k, routine, before, rest, K, rfl, hfaces⟩ := hfacing
      obtain ⟨d, -, hwork⟩ := mem_work_of_faces hfaces (hadvances.not_ended h.distinct)
      rw [hname] at hwork
      have hscheduled := hfaces.inRoutine.scheduled
      have hforward : routine.phase = .start → c.Mirrors S (c.after types w n) _ := fun hphase =>
        hmirrors ⟨ra.1.name, .start, by decide, hphase ▸ hscheduled⟩
      have hstart : s.op.touches = true → c.Mirrors S (c.after types w n) _ := fun hop =>
        hforward (Resource.start_of_touches haction hwork hop)
      cases hop : s.op with
      | create =>
        exact .inOrder (by rw [hstanding, hop]; rfl) (judged_created h hreaches hadvances hfaces
          (hstart (by rw [hop]; rfl)) hperformed hmemory hop)
      | update =>
        exact .inOrder (by rw [hstanding, hop]; rfl) (judged_updated h hreaches hadvances hfaces
          (hstart (by rw [hop]; rfl)) hperformed hmemory hstood hop)
      | rescmp =>
        have hbody : c.InRoutine k ra routine before (.resource .rescmp :: rest) K _ :=
          hop ▸ hfaces.inRoutine
        obtain ⟨d, hdecided, hjudged⟩ := judged_compared h hreaches hadvances hfaces
          (hforward (start_of_reads hbody rfl).1) hperformed hmemory hop
        exact .compared (by rw [hstanding, hop]; rfl) hdecided hjudged
      | read =>
        obtain ⟨object, hobject⟩ := object_of_read h hfaces hperformed hmemory hop hname
        exact .there (by rw [hstanding, hop]; rfl) hobject
      | delete | checkDelete | markDeletable => exact .unknown (by rw [hstanding, hop]; rfl)
      | checkCreate | checkUpdate | checkExist | filter =>
        exact hquiet (fun _ => by rw [hop]; rfl) (by rw [hstanding, hop]; rfl)
    · exact hquiet (absurd · hname) (by rw [hstanding, if_neg hname])

/-- A step after which outputs are those of the object does not touch the object. -/
theorem kept_of_refreshed (hn : 0 < n)
    (hfresh : ra.1.refreshed (c.achieved place' ra
      ((c.after types w (n + 1)).memory.decisions.get? ra.1.name)) = true) :
    ra.1.Kept S (c.after types w n) (c.after types w (n + 1)) := by
  rcases h.kept_or_touched hreaches hadvances hra haction hn with hkept | htouched
  · exact hkept
  · rcases hadvances.achieves h.registered h.distinct h.serves hra with
      ⟨hnot, hsame⟩ | ⟨s, m, hfacing, -, -, hachieved⟩ <;> cases htouched with
    | forgotten hforgetting =>
      first
      | exact absurd hforgetting hfacing.not_forgetting
      | rw [hsame, achieved_of_forgetting hadvances.stands hforgetting,
          Resource.refreshed_probing] at hfresh
        cases hfresh
    | did hfacing' hname hop =>
      first
      | exact absurd hfacing' (hnot _)
      | obtain rfl := Facing.unique hfacing hfacing'
        rw [hachieved, Resource.refreshed_concat, if_pos hname,
          ResourceOp.refreshes_of_touches hop] at hfresh
        cases hfresh

/-- **What a step does to stored outputs that are those of the object.** -/
theorem mirrored_step (hn : 0 < n) (hforward : place.forward)
    (hmirrors : c.Mirrors S (c.after types w n) place) (houtputs : ra.1.schema.outputs ≠ [])
    (hfresh : ra.1.refreshed (c.achieved place' ra
      ((c.after types w (n + 1)).memory.decisions.get? ra.1.name)) = true)
    (hstood : c.Stood S (c.after types w (n + 1)) place' ra) :
    ra.1.Mirrored S (c.after types w (n + 1)) := by
  have hkept := kept_of_refreshed h hreaches hadvances hra haction hn hfresh
  cases hadvances.refreshes h.distinct h.covers hforward hra houtputs hfresh with
  | kept hbefore hsame =>
    obtain ⟨fields, object, hfields, hobject, hagree⟩ := hmirrors ra hra haction houtputs hbefore
    exact ⟨fields, object, hsame.trans hfields, hkept.object.trans hobject, hagree⟩
  | @stored kind p fields w₁ hkind hprovider hask hfields =>
    obtain ⟨kind', hkind', hschema⟩ := h.covers _ _ (c.planned hra).typed
    obtain rfl : kind = kind' := Option.some.inj (hkind.symm.trans hkind')
    obtain ⟨p', hp', hkeeps⟩ := h.serves _ _ hkind
    obtain rfl : p = p' := Option.some.inj (hprovider.symm.trans hp')
    obtain ⟨d, -, -, hprefix⟩ := possible_of_stands h.distinct hadvances.stands'
      hadvances.running' hra
    have hknown := Resource.standing_ne_of_refreshed
      ((List.prefix_append _ _).trans hprefix) hfresh
    obtain ⟨object, hobject⟩ := hstood.exists_object hknown
    refine ⟨fields, object, hfields, hobject, ?_⟩
    -- The object is the one that was there when its outputs were asked for.
    have hunchanged := hkeeps.looks ((c.after types w n).memory.remoteId ra.1.name) .outputs w₁ rfl
    rw [hask] at hunchanged
    have hheld : S.held w₁ ra.1.typeId ((c.after types w n).memory.remoteId ra.1.name) =
        some object := by
      rw [← hunchanged.held, ← Memory.remoteId_congr hkept.slot]
      exact hobject
    exact hschema ▸ hkeeps.outputs hask hheld

end

theorem Forward.of_le {p p' : Place} (h : c.Forward p') (hle : c.calls p ≤ c.calls p') :
    c.Forward p := by
  obtain ⟨name, phase, hphase, hk⟩ := h
  have hlt : c.calls p < c.schedule.length :=
    Nat.lt_of_le_of_lt hle (List.getElem?_eq_some_iff.1 hk).1
  obtain ⟨⟨name', phase'⟩, hk'⟩ : ∃ e, c.schedule[c.calls p]? = some e :=
    ⟨_, List.getElem?_eq_getElem hlt⟩
  refine ⟨name', phase', ?_, hk'⟩
  by_contra hbackward
  have hmem : phase' ∈ Phase.backward := by
    revert hbackward
    cases phase' <;> decide
  exact absurd (forward_lt_backward hphase hmem hk hk') (Nat.not_lt.2 hle)

/-- **At every place of a run, what was done to a resource tells the truth about its object,
and in the forward part the stored outputs are those of the objects.** -/
theorem Reaches.faithful (h : c.Setting types S w) (hreaches : c.Reaches types w n place) :
    (∀ ra ∈ c.actions, ra.2 ≠ .delete → c.Stood S (c.after types w n) place ra) ∧
      (c.Forward place → c.Mirrors S (c.after types w n) place) := by
  induction hreaches with
  | start => exact ⟨fun _ _ _ => .unknown rfl, fun _ _ _ _ _ hfresh => absurd hfresh nofun⟩
  | @step n place place' hreaches hadvances ih =>
    obtain ⟨hstood, hmirrors⟩ := ih
    rcases Nat.eq_zero_or_pos n with rfl | hn
    · -- The first step only fills the tables.
      obtain rfl := hreaches.eq_start
      have hnone : ∀ ra ∈ c.actions, c.achieved place' ra
          ((c.after types w 1).memory.decisions.get? ra.1.name) = [] := by
        intro ra hra
        rcases hadvances.moves with ⟨_, hmoves⟩ | rfl
        · rw [hadvances.achieved_of_moves hmoves hra]
          cases hmoves
          rfl
        · exact absurd rfl ((Reaches.step hreaches hadvances).ne_start Nat.one_pos)
      refine ⟨fun ra hra _ => .unknown (by rw [hnone ra hra]; rfl), fun _ ra hra _ _ hfresh => ?_⟩
      rw [hnone ra hra] at hfresh
      cases hfresh
    · have hstood' : ∀ ra ∈ c.actions, ra.2 ≠ .delete →
          c.Stood S (c.after types w (n + 1)) place' ra := fun ra hra haction =>
        (hstood ra hra haction).step h hreaches hadvances hra haction hn hmirrors
      refine ⟨hstood', fun hforward ra hra haction houtputs hfresh => ?_⟩
      have hbefore := hforward.of_le (calls_le_of_advances hadvances)
      obtain ⟨name, phase, hphase, hk⟩ := hforward
      exact mirrored_step h hreaches hadvances hra haction hn
        (forward_of_reaches hreaches (.step hreaches hadvances) (Nat.le_succ n) hphase hk)
        (hmirrors hbefore) houtputs hfresh (hstood' ra hra haction)

end Compilation

end Provisioning
