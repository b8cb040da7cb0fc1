/-
What is there when a run is stopped.

If every tracked object is there when a run begins, then at every step each declared resource
either is not tracked, or its object is there, with one exception: between the deletion of an
object that is replaced at once and the confirmation of that deletion, the object is gone and
its identifier still stands.

What has been checked is as it is declared, and what has been put aside is only tracked beside
a replacement that is.
-/
import Provisioning.Proofs.Run.Readiness

namespace Provisioning

namespace Resource

/-! ### Parts of words -/

variable {r : Resource} {createMissing : Bool} {action : Action} {d : Option Decision}
  {os : List Operation}

theorem replaced_of_delete (haction : action ≠ .delete) (h : os <+: r.word createMissing action d)
    (hmem : r.did .delete ∈ os) :
    action = .update ∧ d = some .recreate ∧ r.schema.deleteAtEnd = false ∧ r.did .rescmp ∈ os := by
  have hne := ne_deletable r.name
  induction h using begun_induction with
  | nil => cases hmem
  | letter os op name h hletter ih =>
    cases hletter <;>
      simp_all [did, mem_probing, mem_comparing, ResourceOp.record_inj]

/-- What was created or updated stays in order: it is not touched again. -/
theorem inOrder_of_mem (h : os <+: r.word createMissing action d) {op : ResourceOp}
    (hop : op = .create ∨ op = .update) (hmem : r.did op ∈ os) : r.standing os = .inOrder := by
  have hne := (ne_deletable r.name).symm
  induction h using begun_induction with
  | nil => cases hmem
  | letter os op' name h hletter ih =>
    rw [standing_concat]
    rcases hop with rfl | rfl <;> cases hletter <;>
      simp_all [did, mem_probing, mem_comparing, ResourceOp.stands, ResourceOp.record_inj]

/-- What was touched, and of which nothing is known, is either deleted without confirmation, or
out of the way. -/
theorem lost_or_cleared (h : os <+: r.word createMissing action d)
    (hstanding : r.standing os = .unknown) {op : ResourceOp} (hop : op.touches = true)
    (hmem : r.did op ∈ os) :
    (r.did .delete ∈ os ∧ r.did .checkDelete ∉ os) ∨
      ∃ o ∈ os, (o = r.did .markDeletable ∨ o = r.did .checkDelete) ∧ r.did .create ∉ os := by
  have hmakes : ∀ op', op' = .create ∨ op' = .update → r.did op' ∉ os := by
    intro op' hop' hmem'
    rw [inOrder_of_mem h hop' hmem'] at hstanding
    cases hstanding
  have hcreate := hmakes .create (.inl rfl)
  by_cases hgone : r.did .checkDelete ∈ os
  · exact .inr ⟨_, hgone, .inr rfl, hcreate⟩
  by_cases haside : r.did .markDeletable ∈ os
  · exact .inr ⟨_, haside, .inl rfl, hcreate⟩
  cases op with
  | delete => exact .inl ⟨hmem, hgone⟩
  | create => exact absurd hmem hcreate
  | update => exact absurd hmem (hmakes .update (.inr rfl))
  | checkDelete => exact absurd hmem hgone
  | markDeletable => exact absurd hmem haside
  | read | rescmp | checkCreate | checkUpdate | checkExist | filter => cases hop

theorem settled_of_checked (haction : action ≠ .delete) (hd : d ∈ settled createMissing action)
    (hfirst : (r.work createMissing action .start d ++ r.work createMissing action .check d) <+: os)
    (h : os <+: r.word createMissing action d) :
    r.standing os = .inOrder ∨ (r.standing os = .compared ∧ d = some .noChange) := by
  have hne := (ne_deletable r.name).symm
  rw [← List.mem_inits] at h
  cases action with
  | delete => exact absurd rfl haction
  | create =>
    simp [word] at h
    rcases h with rfl | rfl | rfl <;>
      simp_all [work, standing, verdict, did, weigh_record, ResourceOp.stands]
  | update =>
    rcases d with _ | _ | _ | _ | _ <;> cases createMissing <;>
      cases hlate : r.schema.deleteAtEnd <;>
      simp [word, probing, hlate] at h <;> casesm* _ ∨ _ <;> subst h <;>
      simp_all [work, settled, vacating, probing, standing, verdict, did, didAside, weigh_record,
        ResourceOp.stands]

end Resource

namespace Compilation

variable {plan : Plan} {W : Type} {c : Compilation plan} {types : Registry W} {S : Store W} {w : W}
  {n k : Nat} {place : Place} {ra : Resource × Action}

/-- The object of a resource is deleted, and its identifier still stands. -/
structure Lost (c : Compilation plan) (place : Place) (ra : Resource × Action)
    (d : Option Decision) : Prop where
  deleted : ra.1.did .delete ∈ c.achieved place ra d
  unconfirmed : ra.1.did .checkDelete ∉ c.achieved place ra d

section

variable (h : c.Setting types S w)

include h

/-- What was done so far begins a word of what may still be decided. -/
theorem Reaches.begins (hreaches : c.Reaches types w n place) (hra : ra ∈ c.actions) :
    plan.Possible ra ((c.after types w n).memory.decisions.get? ra.1.name)
      (c.achieved place ra ((c.after types w n).memory.decisions.get? ra.1.name)) := by
  obtain ⟨hstands, herror⟩ := hreaches.stands
  obtain ⟨d, hd, hvd, hprefix⟩ := possible_of_stands h.distinct hstands herror hra
  exact ⟨d, hd, hvd, (List.prefix_append _ _).trans hprefix⟩

theorem Reaches.not_missing {before rest : List Instruction} {K : Known}
    (hthere : ra.1.object S (c.after types w 1) ≠ none) :
    ¬ c.Reaches types w n (.routine k ra .missingCreate before rest K) := by
  intro hreaches
  obtain ⟨t, -, -, habsent, k', routine, before', rest', K', s, hreached, hfaces, hop⟩ :=
    hreaches.absent_of_missing h
  have hkept : ra.1.Kept S (c.after types w 1) (c.after types w t) :=
    hreached.kept_of_looks h hfaces (.inl hop)
  exact hthere (hkept.object.symm.trans habsent)

/-- **What is tracked is there, or it is lost.** -/
theorem Reaches.present (hreaches : c.Reaches types w n place) (hn : 0 < n) (hra : ra ∈ c.actions)
    (haction : ra.2 ≠ .delete)
    (hthere : ra.2 = .update → ra.1.object S (c.after types w 1) ≠ none) :
    (c.after types w n).memory.remoteIds.get? ra.1.name = none ∨
      ra.1.object S (c.after types w n) ≠ none ∨
      c.Lost place ra ((c.after types w n).memory.decisions.get? ra.1.name) := by
  by_cases hstanding : ra.1.standing
      (c.achieved place ra ((c.after types w n).memory.decisions.get? ra.1.name)) = .unknown
  · rcases hreaches.kept_or_turned h hra haction hn with
      hkept | ⟨k, before, rest, K, rfl⟩ | ⟨op, hop, hmem⟩
    · cases hkind : ra.2 with
      | delete => exact absurd hkind haction
      | update =>
        right
        left
        rw [hkept.object]
        exact hthere hkind
      | create =>
        left
        obtain ⟨hids, -⟩ := hreaches.begun hn
        have huntracked : ra.1.name ∉ plan.prior.keys := fun hmem =>
          (c.planned hra).tracked.1 (Table.contains_iff.2 hmem) hkind
        have hnone : plan.prior.get? ra.1.name = none := Entries.get?_eq_none_iff.2 huntracked
        rw [hkept.slot, hids, Table.get?_mapValues, hnone]
        rfl
    · have hroutine : c.InRoutine k ra .missingCreate before rest K _ := hreaches.stands.1
      have hupdate := update_of_missing hroutine
      exact absurd hreaches (Reaches.not_missing h (hthere hupdate))
    · obtain ⟨d, -, -, hprefix⟩ := hreaches.begins h hra
      rcases Resource.lost_or_cleared hprefix hstanding hop hmem with
        ⟨hdeleted, hunconfirmed⟩ | ⟨o, ho, hturns, hcreate⟩
      · exact .inr (.inr ⟨hdeleted, hunconfirmed⟩)
      · exact .inl (hreaches.vacant h hra haction (.vacated ho hturns) hcreate)
  · right
    left
    obtain ⟨object, hobject⟩ := ((hreaches.faithful h).1 ra hra haction).exists_object hstanding
    rw [hobject]
    nofun

theorem Lost.replaced (hreaches : c.Reaches types w n place) (hra : ra ∈ c.actions)
    (haction : ra.2 ≠ .delete)
    (hlost : c.Lost place ra ((c.after types w n).memory.decisions.get? ra.1.name)) :
    (c.after types w n).memory.decisions.get? ra.1.name = some .recreate ∧
      ra.1.schema.deleteAtEnd = false := by
  obtain ⟨d, -, hvd, hprefix⟩ := hreaches.begins h hra
  obtain ⟨-, rfl, hatOnce, hcompared⟩ :=
    Resource.replaced_of_delete haction hprefix hlost.deleted
  exact ⟨hvd.resolve_left (hreaches.decided_of_rescmp h.distinct h.registered hra hcompared),
    hatOnce⟩

/-- **What was checked is settled.** -/
theorem Reaches.settled_of_checked (hreaches : c.Reaches types w n place) {rb : Resource × Action}
    {o : OutputRef} (hchecked : c.Checked k rb o) (hk : k ≤ c.calls place) :
    c.Settled place rb ((c.after types w n).memory.decisions.get? rb.1.name) := by
  obtain ⟨j, hjk, hj⟩ := hchecked.earlier
  have hrb := hchecked.planned
  obtain ⟨later, hlater⟩ : [Phase.start, Phase.check] <+: c.past (c.calls place) rb.1.name := by
    have hmem : Phase.check ∈ c.past (c.calls place) rb.1.name :=
      mem_past.2 ⟨j, Nat.lt_of_lt_of_le hjk hk, hj⟩
    have hall : [Phase.start] ++ [.check] <+: Phase.all := by decide
    rcases List.prefix_or_prefix_of_prefix hall
      (past_isPrefix (c := c) (c.calls place) (mem_names_of_mem hrb)) with hprefix | hprefix
    · exact hprefix
    · rcases List.prefix_concat_iff.1 hprefix with heq | hfirst
      · exact heq ▸ List.prefix_rfl
      · exact absurd (hfirst.subset hmem) (by decide)
  have hpast : c.past (c.calls place) rb.1.name ≠ [] := by
    rw [← hlater]
    exact List.cons_ne_nil _ _
  obtain ⟨d, hd, hvd, hprefix⟩ := hreaches.begins h hrb
  obtain hdecided : (c.after types w n).memory.decisions.get? rb.1.name = d := by
    refine hvd.elim (fun hnone => ?_) id
    cases hkind : rb.2 with
    | delete => exact absurd hkind hchecked.wanted
    | create =>
      rw [hkind] at hd
      exact hnone.trans (List.mem_singleton.1 hd).symm
    | update => exact absurd hnone (ne_none_of_stands hreaches.stands.1 hrb hpast hkind)
  rw [hdecided] at hprefix ⊢
  refine Resource.settled_of_checked hchecked.wanted hd ?_ hprefix
  refine .trans ?_ (List.prefix_append _ _)
  unfold finished
  rw [← hlater]
  simp [← List.append_assoc]

/-- What is settled refers to what is settled. -/
theorem Settled.closed (hreaches : c.Reaches types w n place) (hra : ra ∈ c.actions)
    (haction : ra.2 ≠ .delete)
    (hsettled : c.Settled place ra ((c.after types w n).memory.decisions.get? ra.1.name))
    {o : OutputRef} (ho : c.program.tables.rom.Holds ra.1.name o) :
    ∃ rb ∈ c.actions, rb.2 ≠ .delete ∧ rb.1.name = o.resource ∧
      c.Settled place rb ((c.after types w n).memory.decisions.get? rb.1.name) := by
  have hne : c.achieved place ra ((c.after types w n).memory.decisions.get? ra.1.name) ≠ [] := by
    intro hnil
    rcases hsettled with heq | ⟨heq, -⟩ <;> rw [hnil] at heq <;> cases heq
  obtain ⟨k, hk, hscheduled⟩ := begun_of_achieved hra hreaches.stands.1 hne
  obtain ⟨-, rb, hchecked, -⟩ := h.checked hra haction hscheduled ho
  exact ⟨rb, hchecked.planned, hchecked.wanted, hchecked.name_eq,
    hreaches.settled_of_checked h hchecked hk⟩

/-- **Beside what it has put aside, a resource that is tracked is settled.** -/
theorem Reaches.settled_of_aside (hreaches : c.Reaches types w n place) (hn : 0 < n)
    (hra : ra ∈ c.actions) (haction : ra.2 ≠ .delete)
    (hprior : deletable ra.1.name ∉ plan.prior.keys)
    (haside : (c.after types w n).memory.remoteIds.get? (deletable ra.1.name) ≠ none)
    (htracked : (c.after types w n).memory.remoteIds.get? ra.1.name ≠ none) :
    c.Settled place ra ((c.after types w n).memory.decisions.get? ra.1.name) := by
  have hundeclared : deletable ra.1.name ∉ plan.declaration.resources.keys := fun hmem =>
    h.apart _ hmem _ (declared_of_action hra haction) rfl
  rcases hreaches.free_or_clears h.distinct h.registered hundeclared hn with
    hfree | ⟨rb, hrb, -, ⟨hdelete, hname⟩ | ⟨hmem, hname⟩⟩
  · exact absurd hfree haside
  · refine absurd ?_ hprior
    rw [← hname]
    exact Table.contains_iff.1 ((c.planned hrb).tracked.2 (by rw [hdelete]; nofun))
  · obtain rfl := eq_of_name_eq hrb hra (deletable_inj hname)
    have hcreate : rb.1.did .create ∈
        c.achieved place rb ((c.after types w n).memory.decisions.get? rb.1.name) := by
      by_contra hcreate
      exact htracked (hreaches.vacant h hra haction (.vacated hmem (.inl rfl)) hcreate)
    obtain ⟨d, -, -, hprefix⟩ := hreaches.begins h hrb
    exact .inl (Resource.inOrder_of_mem hprefix (.inl rfl) hcreate)

end

end Compilation

end Provisioning
