/-
Room for what is created.

An object is created where no identifier is tracked.  If the resource is new, none was tracked
from the first step on.  If the object is replaced, its identifier was forgotten, put aside or
dropped with the object before, and nothing is tracked under the name until the creation
itself.

An object is put aside where nothing else was put aside: what a snapshot tracks under that
name is deleted, so it has to be gone before.
-/
import Provisioning.Proofs.Run.Steady

namespace Provisioning

namespace Staged

variable {W : Type} {s : Staged W} {rom : Rom} {m m' : Memory} {w w' : W} {es : List Exchange}

/-- What is put aside, or confirmed to be gone, leaves nothing under its name. -/
theorem Performed.vacates (h : s.Performed rom m w m' w' es)
    (hop : s.op = .markDeletable ∨ s.op = .checkDelete) : m'.remoteIds.get? s.name = none := by
  rcases hop with hop | hop
  · obtain rfl := h.of_markDeletable hop
    show ((m.remoteIds.erase s.name).insert (deletable s.name) _).get? s.name = none
    rw [Table.get?_insert, if_neg (ne_deletable s.name).symm, Table.get?_erase, if_pos rfl]
  · obtain ⟨rfl, -⟩ := h.of_checkDelete hop
    exact (Table.get?_erase _ _ _).trans (if_pos rfl)

end Staged

theorem Resource.nil_of_create {r : Resource} {createMissing : Bool} {d : Option Decision}
    {os : List Operation} {name : String}
    (h : os ++ [ResourceOp.create.record name] <+: r.word createMissing .create d) : os = [] := by
  cases letter_of_isPrefix h with
  | create => rfl

namespace Compilation

variable {plan : Plan} {W : Type} {c : Compilation plan} {types : Registry W} {S : Store W} {w : W}
  {n k : Nat} {place : Place} {ra : Resource × Action} {routine : Routine}
  {before rest : List Instruction} {K : Known} {s : Staged W}

/-- What was there is out of the way: it was missing and its identifier is forgotten, or it
was put aside, or it is confirmed to be gone. -/
inductive Cleared (c : Compilation plan) (place : Place) (ra : Resource × Action)
    (d : Option Decision) : Prop
  | forgotten {k : Nat} {before rest : List Instruction} {K : Known} :
    place = .routine k ra .missingCreate before rest K → .memwrite .null ∈ before →
    Cleared c place ra d
  | vacated {o : Operation} : o ∈ c.achieved place ra d →
    o = ra.1.did .markDeletable ∨ o = ra.1.did .checkDelete → Cleared c place ra d

section

variable (h : c.Setting types S w)

include h

theorem Advances.vacates {place' : Place} (hra : ra ∈ c.actions)
    (hadvances : c.Advances types (c.after types w n) (c.after types w (n + 1)) place place')
    (hbefore : ¬ c.Cleared place ra ((c.after types w n).memory.decisions.get? ra.1.name))
    (hcleared : c.Cleared place' ra ((c.after types w (n + 1)).memory.decisions.get? ra.1.name)) :
    (c.after types w (n + 1)).memory.remoteIds.get? ra.1.name = none := by
  cases hcleared with
  | @forgotten k done rest K hplace hmem =>
    subst hplace
    rcases hadvances.executes.behind with rfl | ⟨before, i, K₀, rfl, rfl⟩ | ⟨rfl, -⟩
    · cases hmem
    · have hi : i = .memwrite .null := by
        rcases List.mem_append.1 hmem with hmem | hmem
        · exact absurd (.forgotten rfl hmem) hbefore
        · exact (List.mem_singleton.1 hmem).symm
      subst hi
      have hroutine : c.InRoutine k ra .missingCreate before (.memwrite .null :: rest) K₀ _ :=
        hadvances.stands
      obtain ⟨ht, m, hexecute, hmemory⟩ := hadvances.executes.executed
      cases ht with
      | forget _ _ htable hkey =>
        rw [Resource.execute_memwrite hroutine.fits htable hkey rfl] at hexecute
        obtain rfl : _ = m := congrArg Outcome.memory hexecute
        rw [hmemory]
        exact (Table.get?_erase _ _ _).trans (if_pos rfl)
    · exact absurd (.forgotten rfl hmem) hbefore
  | @vacated o hmem ho =>
    rcases hadvances.achieves h.registered h.distinct h.serves hra with
      ⟨-, hsame⟩ | ⟨s, m, hfacing, hperformed, hmemory, hachieved⟩
    · exact absurd (.vacated (hsame ▸ hmem) ho) hbefore
    · rw [hachieved] at hmem
      rcases List.mem_append.1 hmem with hmem | hmem
      · exact absurd (.vacated hmem ho) hbefore
      · obtain rfl := List.mem_singleton.1 hmem
        have hvacates : (s.op = .markDeletable ∨ s.op = .checkDelete) ∧ s.name = ra.1.name := by
          rcases ho with ho | ho <;> obtain ⟨hop, hname⟩ := ResourceOp.record_inj.1 ho
          · exact ⟨.inl hop, hname⟩
          · exact ⟨.inr hop, hname⟩
        rw [hmemory, ← hvacates.2]
        exact hperformed.vacates hvacates.1

/-- **Between what was there and what is created in its place, nothing is tracked.** -/
theorem Reaches.vacant (hreaches : c.Reaches types w n place) (hra : ra ∈ c.actions)
    (haction : ra.2 ≠ .delete)
    (hcleared : c.Cleared place ra ((c.after types w n).memory.decisions.get? ra.1.name))
    (hcreate : ra.1.did .create ∉
      c.achieved place ra ((c.after types w n).memory.decisions.get? ra.1.name)) :
    (c.after types w n).memory.remoteIds.get? ra.1.name = none := by
  induction hreaches with
  | start =>
    cases hcleared with
    | forgotten hplace => cases hplace
    | vacated hmem => cases hmem
  | @step n place place' hreaches hadvances ih =>
    by_cases hbefore : c.Cleared place ra ((c.after types w n).memory.decisions.get? ra.1.name)
    · have hnone := ih hbefore fun hmem =>
        hcreate ((hadvances.achieved_isPrefix hra).subset hmem)
      have hplace : place ≠ .start := by
        rintro rfl
        cases hbefore with
        | forgotten hplace => cases hplace
        | vacated hmem => cases hmem
      cases hadvances.turns hplace ra.1.name with
      | kept hsame => exact hsame.trans hnone
      | forgotten _ _ _ _ hnone => exact hnone
      | deleted _ _ _ _ _ hnone => exact hnone
      | putAside _ _ _ _ _ hnone => exact hnone
      | @created k rb routine before rest K s _ _ hp hfaces hop hstaged =>
        subst hp
        obtain ⟨howner, -⟩ := create_of_faces h.distinct hfaces hadvances.running hop
        obtain rfl := eq_of_name_eq hfaces.inRoutine.planned hra (howner.symm.trans hstaged)
        have hfacing : c.Facing types (c.after types w n).memory _ rb s :=
          ⟨k, routine, before, rest, K, rfl, hfaces⟩
        rcases hadvances.achieves h.registered h.distinct h.serves hra with
          ⟨hnot, -⟩ | ⟨s', m, hfacing', -, -, hachieved⟩
        · exact absurd hfacing (hnot s)
        · obtain rfl := Facing.unique hfacing hfacing'
          refine absurd ?_ hcreate
          rw [hachieved, hop, hstaged]
          exact List.mem_append_right _ List.mem_cons_self
      | received hp hfaces hop hstaged =>
        obtain ⟨howner, hupdate, -⟩ :=
          putAside_of_faces h.distinct hfaces hadvances.running hop
        rw [howner] at hstaged
        exact absurd hstaged.symm
          (name_ne_aside h.apart hra haction hfaces.inRoutine.planned hupdate)
    · exact hadvances.vacates h hra hbefore hcleared

/-- **Where an object is created, none is tracked.** -/
theorem Reaches.unset
    (hreaches : c.Reaches types w n (.routine k ra routine before (.resource s.op :: rest) K))
    (hfaces : c.Faces types k ra routine before rest K s (c.after types w n).memory)
    (hop : s.op = .create) : (c.after types w n).memory.remoteIds.get? ra.1.name = none := by
  have hra := hfaces.inRoutine.planned
  obtain ⟨hname, haction, hcreate⟩ :=
    create_of_faces h.distinct hfaces hreaches.stands.2 hop
  obtain ⟨d, -, -, hprefix⟩ := possible_of_faces h.distinct hfaces hreaches.stands.2
  rw [hop] at hprefix
  cases hkind : ra.2 with
  | delete => exact absurd hkind haction
  | create =>
    rw [hkind] at hprefix
    have hnil := Resource.nil_of_create hprefix
    rcases hreaches.untouched h.distinct h.registered h.apart hra haction (hreaches.pos nofun) with
      hslot | ⟨_, _, _, _, hplace⟩ | ⟨o, ho, -⟩
    · rw [hslot]
      have huntracked : ra.1.name ∉ plan.prior.keys := fun hmem =>
        (c.planned hra).tracked.1 (Table.contains_iff.2 hmem) hkind
      have hnone : plan.prior.get? ra.1.name = none := Entries.get?_eq_none_iff.2 huntracked
      rw [hnone]
      rfl
    · injection hplace with _ _ hmissing
      have hroutine := hfaces.inRoutine
      rw [hmissing] at hroutine
      exact absurd (hkind.symm.trans (update_of_missing hroutine)) nofun
    · rw [hop, hnil] at ho
      cases ho
  | update =>
    refine hreaches.vacant h hra haction ?_ hcreate
    rcases hreaches.vacated h.distinct hfaces hop hkind with rfl | ⟨o, ho, hturns⟩
    · refine .forgotten rfl ?_
      have hbody : (ra.1.piece plan.createMissing .missingCreate).body =
          (.clear :: (Emit.replaceMissing ra.1 ++ Emit.load ra.1.name ra.1.typeId ++
            [.key "properties", .valueRom ra.1.name])) ++ .resource .create :: [.ret] := by
        simp [Resource.piece, Subroutine.body, Resource.script, Emit.withProperties]
      have hsplit := hfaces.inRoutine.body
      rw [hbody, hop] at hsplit
      obtain ⟨rfl, -⟩ := (List.append_cons_inj_of_notMem
        (by simp [Emit.replaceMissing, Emit.write, Emit.load]) (by simp)).1 hsplit
      simp [Emit.replaceMissing, Emit.write]
    · exact .vacated ho hturns

end

end Compilation

end Provisioning
