/-
Objects that are in order are left alone.

Take some declared resources whose objects are as declared when a run begins, together with
all that their fields refer to.  No step of the run touches them.  An operation that touches
an object comes after a decision that calls for it, or after a probe that did not find the
object.  By induction on the number of steps nothing was touched until then: so a probe finds
the object, and comparing it finds nothing to change.
-/
import Provisioning.Proofs.Run.Convergence
import Provisioning.Proofs.Run.Faithful

namespace Provisioning

/-! ### What calls for an operation -/

/-- Whether an operation only looks or compares. -/
def ResourceOp.peeks : ResourceOp → Bool
  | .checkExist | .read | .rescmp => true
  | _ => false

theorem ResourceOp.not_touches_of_peeks {op : ResourceOp} (h : op.peeks = true) :
    op.touches = false := by
  cases op <;> first | rfl | cases h

/-- What an update does besides looking comes after its decision, or replaces what is
missing. -/
theorem Resource.peeks_of_isPrefix {r : Resource} {createMissing : Bool} {d : Option Decision}
    {os : List Operation} {op : ResourceOp} {name : String}
    (h : os ++ [op.record name] <+: r.word createMissing .update d) :
    op.peeks = true ∨
      (d = some .missing ∧ ((op = .create ∧ os = r.probing createMissing) ∨ r.did .create ∈ os)) ∨
      ((d = some .modify ∨ d = some .recreate) ∧ r.did .rescmp ∈ os) := by
  cases letter_of_isPrefix h with
  | probe | read | compare => exact .inl rfl
  | createMissing => exact .inr (.inl ⟨rfl, .inl ⟨rfl, rfl⟩⟩)
  | checkMissing => exact .inr (.inl ⟨rfl, .inr (by simp)⟩)
  | modify | checkModify => exact .inr (.inr ⟨.inl rfl, by simp [comparing]⟩)
  | putAside | deleteOld | checkOld | replace | checkReplaced | deleteAside | checkAside =>
    exact .inr (.inr ⟨.inr rfl, by simp [comparing]⟩)

theorem Resource.missing_of_memwrite {r : Resource} {createMissing : Bool} {routine : Routine}
    {v : Json} (h : .memwrite v ∈ (r.piece createMissing routine).body) :
    routine = .missingCreate := by
  cases hlate : r.schema.deleteAtEnd <;> cases routine <;> cases createMissing <;>
    simp [Resource.piece, Subroutine.body, Resource.script, Emit.withProperties,
      Emit.onResource, Emit.load, Emit.branch, Emit.probe, Emit.reconcile, Emit.deleteNow,
      Emit.deleteLate, Emit.vacate, Emit.replaceMissing, Emit.write, hlate] at h ⊢

theorem Staged.Performed.decisions_eq {W : Type} {s : Staged W} {rom : Rom} {m m' : Memory}
    {w w' : W} {es : List Exchange} (h : s.Performed rom m w m' w' es) (hop : s.op ≠ .rescmp) :
    m'.decisions = m.decisions := by
  cases h with
  | rescmp hop' => exact absurd hop' hop
  | _ => rfl

namespace Resource.Kept

variable {W : Type} {x : Resource} {S : Store W} {r r₁ r' : Run W}

theorem refl (x : Resource) (S : Store W) (r : Run W) : x.Kept S r r := ⟨rfl, rfl⟩

theorem trans (h : x.Kept S r r₁) (h' : x.Kept S r₁ r') : x.Kept S r r' :=
  ⟨h'.slot.trans h.slot, h'.object.trans h.object⟩

end Resource.Kept

namespace Compilation

variable {plan : Plan} {W : Type} {c : Compilation plan} {types : Registry W} {S : Store W} {w : W}
  {n : Nat} {place : Place} {ra : Resource × Action} {r : Run W}

theorem Reaches.advances (hd : c.Distinct)
    (htypes : ∀ t ∈ plan.declaration.catalog.keys, t ∈ types.keys) {t : Nat} {p : Place}
    (h : c.Reaches types w n place) (ht : t < n) (hp : c.Reaches types w t p) :
    ∃ p', c.Advances types (c.after types w t) (c.after types w (t + 1)) p p' := by
  obtain ⟨_, _, -, hadvances⟩ := h.earlier ht
  obtain ⟨hstands, herror⟩ := hp.stands
  have hplace := ne_halted_of_running hstands (hadvances.not_ended hd)
  rw [after_succ]
  rcases executes hd htypes hstands hplace herror with hcontinues | hstops
  · exact advances_of_continues hd htypes hstands herror hcontinues
  · have hrunning := hadvances.running'
    rw [after_succ] at hrunning
    generalize (c.after types w t).step c.program types = r' at hstops hrunning
    cases hstops with
    | fault => cases hrunning

/-- The first step fills the tables from the snapshot. -/
theorem Reaches.begun (h : c.Reaches types w n place) (hn : 0 < n) :
    (c.after types w 1).memory.remoteIds = plan.prior.mapValues (fun _ t => t.remoteId) ∧
      (c.after types w 1).world = w := by
  obtain ⟨p, p', hp, hadvances⟩ := h.earlier hn
  obtain rfl := hp.eq_start
  obtain ⟨hids, -, -, -, hworld⟩ := hadvances.loaded
  exact ⟨hids, hworld⟩

/-- At first the object of a resource is the one that is tracked. -/
theorem Reaches.tracked_of_object (h : c.Reaches types w n place) (hn : 0 < n) {x : Resource}
    {object : String → Option Json} (hobject : x.object S (c.after types w 1) = some object) :
    ∃ tracked, plan.prior.get? x.name = some tracked ∧
      S.object w x.typeId tracked.remoteId = some object := by
  obtain ⟨hids, hworld⟩ := h.begun hn
  obtain ⟨id, hid, hheld⟩ := Option.bind_eq_some_iff.1 hobject
  obtain ⟨hget, -⟩ := Memory.get?_of_remoteId hid
  rw [hids, Table.get?_mapValues] at hget
  obtain ⟨tracked, htracked, rfl⟩ := Option.map_eq_some_iff.1 hget
  exact ⟨tracked, htracked, hworld ▸ hheld⟩

theorem Reaches.decided_of_rescmp (hd : c.Distinct)
    (htypes : ∀ t ∈ plan.declaration.catalog.keys, t ∈ types.keys) (h : c.Reaches types w n place)
    (hra : ra ∈ c.actions) (hmem : ra.1.did .rescmp ∈
      c.achieved place ra ((c.after types w n).memory.decisions.get? ra.1.name)) :
    (c.after types w n).memory.decisions.get? ra.1.name ≠ none := by
  obtain ⟨t, ht, s, hdoes, ho⟩ := h.does_of_mem_achieved hra hmem
  obtain ⟨hop, hname⟩ := ResourceOp.record_inj.1 ho.symm
  cases hdoes with
  | intro _ _ hperformed hmemory =>
    obtain ⟨d, -, rfl, -⟩ := hperformed.decided hop
    have hdecided : (c.after types w (t + 1)).memory.decisions.get? ra.1.name = some d := by
      rw [hmemory, ← hname]
      exact (Table.get?_insert _ _ _ _).trans (if_pos rfl)
    have hkept : (c.after types w n).memory.decisions.get? ra.1.name = some d :=
      kept_steps hd htypes w (Nat.succ_le_of_lt ht) hdecided
    rw [hkept]
    nofun

section

variable (h : c.Setting types S w)

include h

/-- **What is decided is how the object compared, or the object was missing.** -/
theorem Reaches.judged_of_decided (hreaches : c.Reaches types w n place) (hra : ra ∈ c.actions)
    {d : Decision} (hdecided : (c.after types w n).memory.decisions.get? ra.1.name = some d) :
    (∃ t < n, c.Judged S (c.after types w (t + 1)) ra.1 d) ∨
      ∃ t < n, ∃ k before rest K, c.Reaches types w t (.routine k ra .missingCreate before rest K) := by
  induction hreaches with
  | start => cases hdecided
  | @step n place place' hreaches hadvances ih =>
    have hearlier : (c.after types w (n + 1)).memory.decisions.get? ra.1.name =
          (c.after types w n).memory.decisions.get? ra.1.name →
        (∃ t < n + 1, c.Judged S (c.after types w (t + 1)) ra.1 d) ∨
          ∃ t < n + 1, ∃ k before rest K,
            c.Reaches types w t (.routine k ra .missingCreate before rest K) := by
      intro hsame
      rcases ih (hsame ▸ hdecided) with ⟨t, ht, hjudged⟩ | ⟨t, ht, hmissing⟩
      · exact .inl ⟨t, Nat.lt_succ_of_lt ht, hjudged⟩
      · exact .inr ⟨t, Nat.lt_succ_of_lt ht, hmissing⟩
    cases hadvances.effect with
    | init _ _ hnone =>
      rw [hnone] at hdecided
      cases hdecided
    | quiet _ _ htables => exact hearlier (by rw [htables.decisions])
    | forget _ _ _ _ _ _ hsame => exact hearlier (by rw [hsame])
    | wait _ _ hmemory => exact hearlier (by rw [hmemory])
    | @settle k rb routine d' before rest K hroutine _ _ _ hinsert =>
      by_cases hname : rb.1.name = ra.1.name
      · obtain rfl := eq_of_name_eq hroutine.planned hra hname
        have hmem : .memwrite (.str d'.text) ∈ (rb.1.piece plan.createMissing routine).body := by
          rw [hroutine.body]
          simp
        obtain rfl := Resource.missing_of_memwrite hmem
        exact .inr ⟨n, Nat.lt_succ_self n, _, _, _, _, hreaches⟩
      · exact hearlier (by rw [hinsert, Table.get?_insert, if_neg hname])
    | @did k rb routine s before rest K m hfaces hmoves hperformed _ hmemory =>
      by_cases hop : s.op = .rescmp
      · have hname := hfaces.rescmp hop
        by_cases hown : rb.1.name = ra.1.name
        · obtain rfl := eq_of_name_eq hfaces.inRoutine.planned hra hown
          have hbody : c.InRoutine k rb routine before (.resource .rescmp :: rest) K _ :=
            hop ▸ hfaces.inRoutine
          have hscheduled := hfaces.inRoutine.scheduled
          rw [(start_of_reads hbody rfl).1] at hscheduled
          obtain ⟨d', hdecided', hjudged⟩ := judged_compared h hreaches hadvances hfaces
            ((hreaches.faithful h).2 ⟨_, .start, by decide, hscheduled⟩) hperformed hmemory hop
          obtain rfl := Option.some.inj (hdecided'.symm.trans hdecided)
          exact .inl ⟨n, Nat.lt_succ_self n, hjudged⟩
        · obtain ⟨d', -, rfl, -⟩ := hperformed.decided hop
          refine hearlier ?_
          rw [hmemory]
          exact (Table.get?_insert _ _ _ _).trans (if_neg (hname ▸ hown))
      · have hsame := hperformed.decisions_eq hop
        exact hearlier (by rw [hmemory, ← hsame])

theorem Reaches.does (hlater : c.Reaches types w n place) {t k : Nat} (ht : t < n)
    {routine : Routine} {before rest : List Instruction} {K : Known} {s : Staged W}
    (hreached : c.Reaches types w t (.routine k ra routine before (.resource s.op :: rest) K))
    (hfaces : c.Faces types k ra routine before rest K s (c.after types w t).memory) :
    c.Does types w t ra s := by
  obtain ⟨p', hadvances⟩ := hlater.advances h.distinct h.registered ht hreached
  obtain ⟨K', rfl⟩ := hadvances.beyond h.registered h.serves
  obtain ⟨s', m, hop, hfaces', -, hperformed, hmemory⟩ :=
    hadvances.performed h.distinct h.registered
  have hstaged := hfaces'.staged
  rw [hop, hfaces.staged] at hstaged
  obtain rfl : s = s' := Except.ok.inj hstaged
  exact .intro hreached hfaces hperformed hmemory

/-- **What is replaced because it is missing was not there when it was looked for.** -/
theorem Reaches.absent_of_missing {k : Nat} {before rest : List Instruction} {K : Known}
    (hreaches : c.Reaches types w n (.routine k ra .missingCreate before rest K)) :
    ∃ t, 0 < t ∧ t < n ∧ ra.1.object S (c.after types w t) = none ∧
      ∃ k' routine before' rest' K' s,
        c.Reaches types w t (.routine k' ra routine before' (.resource s.op :: rest') K') ∧
        c.Faces types k' ra routine before' rest' K' s (c.after types w t).memory ∧
        s.op = .checkExist := by
  have hra : ra ∈ c.actions := Compilation.InRoutine.planned hreaches.stands.1
  obtain ⟨t, hpos, hlt, -, hhears⟩ := hreaches.probed h.distinct h.registered
  obtain ⟨k', rb, routine, before', rest', K', s, hreached, hfaces, hsays, ho⟩ :=
    faces_of_hears h.distinct h.registered hhears
  obtain ⟨hop, hname⟩ := ResourceOp.record_inj.1 ho.symm
  have howner := checkExist_of_faces h.distinct hfaces hreached.stands.2 hop
  obtain rfl := eq_of_name_eq hfaces.inRoutine.planned hra (howner.symm.trans hname)
  refine ⟨t, hpos, hlt, ?_, k', routine, before', rest', K', s, hreached, hfaces, hop⟩
  have hsaid := hhears.said
  have htype : s.typeId = rb.1.typeId := hsays.typeId.symm
  cases hreaches.does h hlt hreached hfaces with
  | intro _ _ hperformed _ =>
    have hkeeps := keeps_of_faces h.serves hfaces
    rcases hperformed.of_checkExist hop with ⟨p, found, hp, hask, -, hexchanges⟩ | ⟨-, -, hexchanges⟩
    · rw [hexchanges] at hsaid
      obtain ⟨-, -, hanswer⟩ : _ ∧ _ ∧ _ := by simpa using hsaid
      obtain rfl : found = false := (Except.ok.inj hanswer).symm
      have hfound := (hkeeps _ hp).found hask
      rw [htype, hname] at hfound
      exact Option.isNone_iff_eq_none.1 (Option.isSome_eq_false_iff.1 hfound.symm)
    · rw [hexchanges] at hsaid
      cases hsaid

/-- **An object is as it was at first until it is touched, or about to be replaced because it
is missing.** -/
theorem Reaches.kept_or_turned (hra : ra ∈ c.actions) (haction : ra.2 ≠ .delete)
    (hreaches : c.Reaches types w n place) (hn : 0 < n) :
    ra.1.Kept S (c.after types w 1) (c.after types w n) ∨
      (∃ k before rest K, place = .routine k ra .missingCreate before rest K) ∨
      ∃ op : ResourceOp, op.touches = true ∧ op.record ra.1.name ∈
        c.achieved place ra ((c.after types w n).memory.decisions.get? ra.1.name) := by
  induction hreaches, hn using Reaches.begun_induction with
  | loaded => exact .inl (.refl ra.1 S _)
  | @step n place place' hreaches hpos hadvances ih =>
    rcases ih with hkept | ⟨k, before, rest, K, rfl⟩ | ⟨op, hop, hmem⟩
    · rcases h.kept_or_touched hreaches hadvances hra haction hpos with hkept' | htouched
      · exact .inl (hkept.trans hkept')
      · cases htouched with
        | forgotten hforgetting =>
          obtain ⟨k, before, rest, K, rfl, -⟩ := hforgetting
          rcases hadvances.executes.within_missing with hnil | ⟨before', rest', K', rfl⟩
          · cases hnil
          · exact .inr (.inl ⟨k, before', rest', K', rfl⟩)
        | did hfacing hname hop =>
          rcases hadvances.achieves h.registered h.distinct h.serves hra with
            ⟨hnot, -⟩ | ⟨s', m, hfacing', -, -, hachieved⟩
          · exact absurd hfacing (hnot _)
          · obtain rfl := Facing.unique hfacing hfacing'
            refine .inr (.inr ⟨_, hop, ?_⟩)
            rw [hachieved, hname]
            exact List.mem_append_right _ List.mem_cons_self
    · rcases hadvances.executes.within_missing with rfl | ⟨before', rest', K', rfl⟩
      · refine .inr (.inr ⟨.create, rfl, ?_⟩)
        exact (hadvances.achieved_isPrefix hra).subset
          (hreaches.created_of_ret h.distinct h.registered)
      · exact .inr (.inl ⟨k, before', rest', K', rfl⟩)
    · exact .inr (.inr ⟨op, hop, (hadvances.achieved_isPrefix hra).subset hmem⟩)

end

/-! ### What is in order -/

theorem Judged.unique {x : Resource} {d d' : Decision} (h : c.Judged S r x d)
    (h' : c.Judged S r x d') : d = d' := by
  obtain ⟨object, fields, hobject, hresolve, rfl⟩ := h
  obtain ⟨object', fields', hobject', hresolve', rfl⟩ := h'
  obtain rfl := Option.some.inj (hobject.symm.trans hobject')
  obtain rfl := Json.obj.inj (Except.ok.inj (hresolve.symm.trans hresolve'))
  rfl

/-- Some declared resources have objects that are as declared, and so has whatever their
fields refer to. -/
structure Steady (c : Compilation plan) (S : Store W) (r : Run W) (names : String → Prop) :
    Prop where
  judged : ∀ ra ∈ c.actions, ra.2 ≠ .delete → names ra.1.name → c.Judged S r ra.1 .noChange
  closed : ∀ ra ∈ c.actions, ra.2 ≠ .delete → names ra.1.name →
    ∀ o, c.program.tables.rom.Holds ra.1.name o → names o.resource

section

variable {names : String → Prop} (h : c.Setting types S w)
  (hsteady : c.Steady S (c.after types w 1) names)

include h hsteady

theorem Steady.judged_of_kept (hra : ra ∈ c.actions) (haction : ra.2 ≠ .delete)
    (hname : names ra.1.name)
    (hkept : ∀ rb ∈ c.actions, rb.2 ≠ .delete → names rb.1.name →
      rb.1.Kept S (c.after types w 1) (c.after types w n)) :
    c.Judged S (c.after types w n) ra.1 .noChange := by
  refine (hsteady.judged ra hra haction hname).congr (hkept ra hra haction hname).object ?_
  intro o ho
  have hnamed := hsteady.closed ra hra haction hname o ho
  have hdeclared := (c.planned hra).declared haction
  obtain ⟨⟨x, hx, -⟩, -⟩ := h.selfContained.backed ra.1.name ra.1 hdeclared o
    (Plan.outputs_of_holds c.rom_eq hdeclared ho)
  obtain ⟨action, hrb, hname, hwanted⟩ := c.exists_declared hx
  rw [← hname] at hnamed
  have hkept := hkept (x, action) hrb hwanted hnamed
  exact actual_of_kept hx hkept

theorem Steady.not_missing {t k : Nat} {before rest : List Instruction} {K : Known}
    (hname : names ra.1.name)
    (hkept : ∀ t', 0 < t' → t' < t → ra.1.Kept S (c.after types w 1) (c.after types w t')) :
    ¬ c.Reaches types w t (.routine k ra .missingCreate before rest K) := by
  intro hreaches
  have hroutine : c.InRoutine k ra .missingCreate before rest K _ := hreaches.stands.1
  obtain ⟨t', hpos, hlt, habsent, -⟩ := hreaches.absent_of_missing h
  obtain ⟨object, -, hobject, -⟩ := hsteady.judged ra hroutine.planned
    (by rw [update_of_missing hroutine]; nofun) hname
  rw [(hkept t' hpos hlt).object, hobject] at habsent
  cases habsent

/-- While they are as they were at first, nothing is decided but that nothing has to change. -/
theorem Steady.decided (hreaches : c.Reaches types w n place) (hra : ra ∈ c.actions)
    (haction : ra.2 ≠ .delete) (hname : names ra.1.name)
    (hkept : ∀ t, 0 < t → t ≤ n → ∀ rb ∈ c.actions, rb.2 ≠ .delete → names rb.1.name →
      rb.1.Kept S (c.after types w 1) (c.after types w t))
    {d : Decision} (hdecided : (c.after types w n).memory.decisions.get? ra.1.name = some d) :
    d = .noChange := by
  rcases hreaches.judged_of_decided h hra hdecided with
    ⟨t, ht, hjudged⟩ | ⟨t, ht, k, before, rest, K, hmissing⟩
  · exact hjudged.unique (hsteady.judged_of_kept h hra haction hname
      (hkept (t + 1) (Nat.succ_pos t) ht))
  · exact absurd hmissing (hsteady.not_missing h hname fun t' hpos hlt =>
      hkept t' hpos (hlt.trans ht).le ra hra haction hname)

omit h in
theorem Steady.update_of_names (hreaches : c.Reaches types w n place) (hn : 0 < n)
    (hra : ra ∈ c.actions) (haction : ra.2 ≠ .delete) (hname : names ra.1.name) :
    ra.2 = .update := by
  obtain ⟨object, -, hobject, -⟩ := hsteady.judged ra hra haction hname
  obtain ⟨tracked, htracked, -⟩ := hreaches.tracked_of_object hn hobject
  exact update_of_tracked hra htracked haction

/-- What comes next for them only looks, while they are as they were at first. -/
theorem Steady.peeks_of_faces {k : Nat} {routine : Routine} {before rest : List Instruction}
    {K : Known} {s : Staged W}
    (hreaches : c.Reaches types w n (.routine k ra routine before (.resource s.op :: rest) K))
    (hfaces : c.Faces types k ra routine before rest K s (c.after types w n).memory)
    (haction : ra.2 ≠ .delete) (hname : names ra.1.name)
    (hkept : ∀ t, 0 < t → t ≤ n → ∀ rb ∈ c.actions, rb.2 ≠ .delete → names rb.1.name →
      rb.1.Kept S (c.after types w 1) (c.after types w t)) : s.op.peeks = true := by
  induction n using Nat.strong_induction_on generalizing k routine before rest K s with
  | _ n ih =>
  have hra := hfaces.inRoutine.planned
  have hupdate := hsteady.update_of_names hreaches (hreaches.pos nofun) hra haction hname
  have hnotMissing : ∀ {t k before rest K}, t ≤ n →
      ¬ c.Reaches types w t (.routine k ra .missingCreate before rest K) := fun ht =>
    hsteady.not_missing h hname fun t' hpos hlt =>
      hkept t' hpos (hlt.le.trans ht) ra hra haction hname
  have hdecided := fun {d} => hsteady.decided h hreaches hra haction hname hkept (d := d)
  obtain ⟨d, -, hvd, hprefix⟩ := possible_of_faces h.distinct hfaces hreaches.stands.2
  rw [hupdate] at hprefix
  have hcreates : s.op = .create → (∃ o ∈ c.achieved
      (.routine k ra routine before (.resource s.op :: rest) K) ra
        ((c.after types w n).memory.decisions.get? ra.1.name),
      o = ra.1.did .markDeletable ∨ o = ra.1.did .checkDelete) := by
    intro hop
    rcases hreaches.vacated h.distinct hfaces hop hupdate with rfl | hvacated
    · exact absurd hreaches (hnotMissing (Nat.le_refl n))
    · exact hvacated
  rcases Resource.peeks_of_isPrefix hprefix with hpeeks | ⟨rfl, ⟨hop, hos⟩ | hmem⟩ | ⟨hd, hmem⟩
  · exact hpeeks
  · obtain ⟨o, ho, hturns⟩ := hcreates hop
    rw [hos] at ho
    unfold Resource.probing at ho
    split at ho <;>
      rcases hturns with rfl | rfl <;> simp [Resource.did, ResourceOp.record_inj] at ho
  · -- Then the creation was one before.
    obtain ⟨t, ht, s', hdoes, ho⟩ := hreaches.does_of_mem_achieved hra hmem
    obtain ⟨hop, -⟩ := ResourceOp.record_inj.1 ho.symm
    cases hdoes with
    | intro hreached hfaces' =>
      have hpeeks := ih t ht hreached hfaces' fun t' hpos hle => hkept t' hpos (hle.trans ht.le)
      rw [hop] at hpeeks
      cases hpeeks
  · -- The decision was made, and was another one.
    have hne := hreaches.decided_of_rescmp h.distinct h.registered hra hmem
    have hv := hvd.resolve_left hne
    rcases hd with rfl | rfl <;> cases hdecided hv

/-- **What is in order when a run begins stays as it is.** -/
theorem Steady.kept (hreaches : c.Reaches types w n place) (hn : 0 < n) :
    ∀ ra ∈ c.actions, ra.2 ≠ .delete → names ra.1.name →
      ra.1.Kept S (c.after types w 1) (c.after types w n) := by
  induction n using Nat.strong_induction_on generalizing place with
  | _ n ih =>
  have hbefore : ∀ t, 0 < t → t < n → ∀ ra ∈ c.actions, ra.2 ≠ .delete → names ra.1.name →
      ra.1.Kept S (c.after types w 1) (c.after types w t) := by
    intro t hpos hlt
    obtain ⟨p, -, hp, -⟩ := hreaches.earlier hlt
    exact ih t hlt hp hpos
  intro ra hra haction hname
  rcases hreaches.kept_or_turned h hra haction hn with
    hkept | ⟨k, before, rest, K, rfl⟩ | ⟨op, hop, hmem⟩
  · exact hkept
  · exact absurd hreaches (hsteady.not_missing h hname fun t hpos hlt =>
      hbefore t hpos hlt ra hra haction hname)
  · obtain ⟨t, ht, s, hdoes, ho⟩ := hreaches.does_of_mem_achieved hra hmem
    obtain ⟨rfl, -⟩ := ResourceOp.record_inj.1 ho
    cases hdoes with
    | intro hreached hfaces =>
      have hpeeks := hsteady.peeks_of_faces h hreached hfaces haction hname
        fun t' hpos hle => hbefore t' hpos (Nat.lt_of_le_of_lt hle ht)
      rw [ResourceOp.not_touches_of_peeks hpeeks] at hop
      cases hop

theorem Steady.kept_before (hreaches : c.Reaches types w n place) :
    ∀ t, 0 < t → t ≤ n → ∀ ra ∈ c.actions, ra.2 ≠ .delete → names ra.1.name →
      ra.1.Kept S (c.after types w 1) (c.after types w t) := by
  intro t hpos hle
  rcases Nat.lt_or_eq_of_le hle with hlt | rfl
  · obtain ⟨p, -, hp, -⟩ := hreaches.earlier hlt
    exact hsteady.kept h hp hpos
  · exact hsteady.kept h hreaches hpos

end

end Compilation

end Provisioning
