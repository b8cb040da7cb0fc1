/-
What is tracked when a run has ended.

A run that comes to the end of its program has done the whole word of every resource, and all
that is tracked follows from the words.  What is confirmed to be gone is what the words confirm,
and nothing else is ever listed as deleted.  A name that is not declared is tracked only as long
as the word of some resource still has its deletion ahead: that of the resource that is no longer
declared, or that of the one which has put its old object aside there.  And the identifier of a
declared resource is the one that was tracked before unless its word forgets it, deletes it or
puts it aside, and then a creation follows whose answer is kept to the end.

So the snapshot of a memory in which a run has ended has an entry for every declared resource,
with the type and the dependencies that are declared, and no other entry.
-/
import Provisioning.Proofs.Run.Budget
import Provisioning.Proofs.Run.Deferral

namespace Provisioning

/-! ### Snapshots -/

theorem Entries.get?_filterMap {α β : Type} {es : Entries α} (h : es.keys.Nodup)
    (f : String → α → Option β) (k : String) :
    get? (es.filterMap fun e => (f e.1 e.2).map (e.1, ·)) k = (es.get? k).bind (f k) := by
  induction es with
  | nil => rfl
  | cons e rest ih =>
    obtain ⟨k', v⟩ := e
    rw [keys_cons, List.nodup_cons] at h
    rw [get?_cons, List.filterMap_cons]
    by_cases hk : k' = k
    · subst hk
      have hrest : get? rest k' = none := get?_eq_none_iff.2 h.1
      have hnone := ih h.2
      rw [hrest] at hnone
      cases hv : f k' v with
      | none => simpa [hv] using hnone
      | some x => simp [hv, get?_cons]
    · have hsame := ih h.2
      cases hv : f k' v with
      | none => simpa [hv, hk] using hsame
      | some x => simpa [hv, hk, get?_cons] using hsame

namespace Engine

variable {W : Type} {types : Registry W} {plan : Plan} {e : Engine W}

theorem compile_eq_ok (h : Engine.compile types plan = .ok e) :
    plan.compile = .ok e.program ∧ e.registry = types ∧
      e.typeIds = (plan.prior.mapValues fun _ t => t.typeId).overlay
        (plan.declaration.resources.entries.map fun e => (e.1, e.2.typeId)) ∧
      e.dependencies = (plan.prior.mapValues fun _ t => t.dependencies).overlay
        (plan.declaration.resources.entries.map fun e => (e.1, e.2.waits)) := by
  obtain ⟨p, hp, h⟩ := bind_eq_ok.1 h
  cases h
  exact ⟨hp, rfl, rfl, rfl⟩

/-- The snapshot keeps the order of the identifiers. -/
theorem entries_state (e : Engine W) (m : Memory) :
    (e.state m).entries = m.remoteIds.entries.filterMap fun entry =>
      (e.tracked? entry.1 entry.2).map (entry.1, ·) := by
  refine Entries.ofList_of_nodup (m.remoteIds.nodup.sublist ?_)
  have hkeys : ∀ es : Entries Json, ((es.filterMap fun entry =>
      (e.tracked? entry.1 entry.2).map (entry.1, ·)).map Prod.fst).Sublist es.keys := by
    intro es
    induction es with
    | nil => exact List.Sublist.refl _
    | cons entry rest ih =>
      rw [List.filterMap_cons, Entries.keys_cons]
      cases e.tracked? entry.1 entry.2 with
      | none => exact ih.cons _
      | some t => exact ih.cons_cons _
  exact hkeys _

theorem get?_state (e : Engine W) (m : Memory) (name : String) :
    (e.state m).get? name = (m.remoteIds.get? name).bind (e.tracked? name) :=
  (congrArg (Entries.get? · name) (e.entries_state m)).trans
    (Entries.get?_filterMap m.remoteIds.nodup e.tracked? name)

/-- What is laid over a table for the declared resources is what is found there. -/
theorem get?_overlay_declared {α : Type} (t : Table α) (f : Resource → α) {name : String}
    {r : Resource} (h : plan.declaration.resources.get? name = some r) :
    (t.overlay (plan.declaration.resources.entries.map fun e => (e.1, f e.2))).get? name =
      some (f r) := by
  have hnodup : Entries.keys (plan.declaration.resources.entries.map fun e => (e.1, f e.2))
      |>.Nodup := by
    rw [Entries.keys_mapValues _ fun _ => f]
    exact plan.declaration.resources.nodup
  have hfound : Entries.get? plan.declaration.resources.entries name = some r := h
  rw [Table.get?_overlay _ hnodup, Entries.get?_map _ fun _ => f, hfound]
  rfl

theorem tracked?_declared (he : Engine.compile types plan = .ok e) {name : String} {r : Resource}
    (h : plan.declaration.resources.get? name = some r) (id : Json) :
    e.tracked? name id = some ⟨id, r.typeId, r.waits⟩ := by
  obtain ⟨-, -, htypeIds, hdependencies⟩ := compile_eq_ok he
  have htype : e.typeIds.get? name = some r.typeId := by
    rw [htypeIds]
    exact get?_overlay_declared _ Resource.typeId h
  have hwaits : e.dependencies.get? name = some r.waits := by
    rw [hdependencies]
    exact get?_overlay_declared _ Resource.waits h
  have hkey : e.typeKey name = name := by
    unfold typeKey
    rw [if_pos (Table.contains_iff.2 (Table.mem_keys_of_get? htype))]
  unfold tracked?
  simp only [hkey, htype, hwaits]
  rfl

theorem outcome_eq_completed {r : Run W} (h : e.outcome r = .completed) :
    r.memory.error = none ∧ r.ended e.program = true := by
  unfold outcome at h
  split at h
  · cases h
  · next herror =>
    split at h
    · next hended => exact ⟨by simpa using herror, hended⟩
    · cases h

end Engine

namespace Resource

/-! ### What the words clear -/

variable {r : Resource} {createMissing : Bool} {action : Action} {d : Option Decision}

/-- The name under which the object that is replaced is deleted. -/
def clearing (r : Resource) : String := if r.schema.deleteAtEnd then deletable r.name else r.name

/-- What is no longer declared is confirmed to be gone, and so is what is replaced. -/
theorem checkDelete_mem_word {name : String} :
    ResourceOp.checkDelete.record name ∈ r.word createMissing action d ↔
      (action = .delete ∧ name = r.name) ∨
        (action = .update ∧ d = some .recreate ∧ name = r.clearing) := by
  constructor
  · intro h
    obtain ⟨os, hletter⟩ := exists_letter h
    cases hletter with
    | checkDelete => exact .inl ⟨rfl, rfl⟩
    | checkOld hlate => exact .inr ⟨rfl, rfl, by simp [clearing, hlate]⟩
    | checkAside hlate => exact .inr ⟨rfl, rfl, (if_pos hlate).symm⟩
  · rintro (⟨rfl, rfl⟩ | ⟨rfl, rfl, rfl⟩)
    · exact List.mem_cons_of_mem _ List.mem_cons_self
    · cases hlate : r.schema.deleteAtEnd <;> simp [word, clearing, hlate, did, didAside]

theorem create_mem_word :
    r.did .create ∈ r.word createMissing action d ↔
      action = .create ∨ (action = .update ∧ (d = some .missing ∨ d = some .recreate)) := by
  constructor
  · intro h
    obtain ⟨os, hletter⟩ := exists_letter h
    cases hletter with
    | create => exact .inl rfl
    | createMissing => exact .inr ⟨rfl, .inl rfl⟩
    | replace => exact .inr ⟨rfl, .inr rfl⟩
  · rintro (rfl | ⟨rfl, rfl | rfl⟩)
    · exact List.mem_cons_self
    · simp [word]
    · simp [word_recreate]

theorem markDeletable_mem_word
    (h : r.did .markDeletable ∈ r.word createMissing action d) :
    action = .update ∧ d = some .recreate ∧ r.clearing = deletable r.name := by
  obtain ⟨os, hletter⟩ := exists_letter h
  cases hletter with
  | putAside hlate => exact ⟨rfl, rfl, if_pos hlate⟩

/-- When an object is put aside, its deletion is still ahead. -/
theorem notMem_of_markDeletable {os : List Operation} {name : String}
    (h : os ++ [ResourceOp.markDeletable.record name] <+: r.word createMissing action d) :
    r.didAside .checkDelete ∉ os := by
  cases letter_of_isPrefix h with
  | putAside => simp [didAside, mem_comparing]

/-- The operations that take an identifier away from a resource, or write a new one. -/
def Turning (r : Resource) (o : Operation) : Prop :=
  o = r.did .create ∨ o = r.did .checkDelete ∨ o = r.did .markDeletable

/-- What stays as it is, or is modified, keeps its identifier. -/
theorem notMem_word_of_turning {o : Operation} (ho : r.Turning o)
    (hd : d = some .noChange ∨ d = some .modify) : o ∉ r.word createMissing .update d := by
  rcases ho with rfl | rfl | rfl <;> rcases hd with rfl | rfl <;> cases createMissing <;>
    simp [word, probing, did, ResourceOp.record_inj]

end Resource

namespace Compilation

variable {plan : Plan} {W : Type} {c : Compilation plan} {types : Registry W} {w : W} {n : Nat}
  {place place' : Place} {name : String}

/-! ### What is planned for a name -/

theorem exists_delete (c : Compilation plan) (htracked : name ∈ plan.prior.keys)
    (hname : name ∉ plan.declaration.resources.keys) :
    ∃ ra ∈ c.actions, ra.1.name = name ∧ ra.2 = .delete := by
  obtain ⟨ra, hra, rfl⟩ := List.mem_map.1 (c.mem_names.2 (.inl htracked))
  refine ⟨ra, hra, rfl, ?_⟩
  by_contra haction
  exact hname (declared_of_action hra haction)

theorem achieved_halted {ra : Resource × Action} (hra : ra ∈ c.actions) (d : Option Decision) :
    c.achieved .halted ra d = ra.1.word plan.createMissing ra.2 d := by
  show c.finished c.schedule.length ra d ++ [] = _
  rw [List.append_nil, finished_length hra]

theorem Reaches.settled_of_halted (h : c.Reaches types w n .halted) {ra : Resource × Action}
    (hra : ra ∈ c.actions) :
    (c.after types w n).memory.decisions.get? ra.1.name ∈ settled plan.createMissing ra.2 := by
  have hhalted : (c.after types w n).memory.ended = true ∧ _ ∧ ∀ ra ∈ c.actions, _ := h.stands.1
  have hexpected : (c.after types w n).memory.decisions.get? ra.1.name ∈
      c.expected c.schedule.length ra := hhalted.2.2 ra hra
  unfold expected at hexpected
  rwa [past_length (mem_names_of_mem hra), if_neg (by decide)] at hexpected

theorem update_of_settled {createMissing : Bool} {action : Action} {d : Decision}
    (h : some d ∈ settled createMissing action) : action = .update := by
  cases action with
  | update => rfl
  | create | delete => simp [settled] at h

/-! ### What is listed as deleted -/

/-- A deletion that is confirmed is listed, and its name is tracked no longer. -/
theorem Does.confirmed {t : Nat} {ra : Resource × Action} {s : Staged W}
    (h : c.Does types w t ra s) (hop : s.op = .checkDelete) :
    (c.after types w (t + 1)).memory.deleted = (c.after types w t).memory.deleted ++ [s.name] ∧
      (c.after types w (t + 1)).memory.remoteIds.get? s.name = none := by
  cases h with
  | intro _ _ hperformed hmemory =>
    obtain ⟨rfl, -⟩ := hperformed.of_checkDelete hop
    rw [hmemory]
    exact ⟨rfl, (Table.get?_erase _ _ _).trans (if_pos rfl)⟩

theorem Reaches.lists (hd : c.Distinct)
    (htypes : ∀ t ∈ plan.declaration.catalog.keys, t ∈ types.keys) (h : c.Reaches types w n place)
    (hadvances : c.Advances types (c.after types w n) (c.after types w (n + 1)) place place') :
    (c.after types w (n + 1)).memory.deleted = (c.after types w n).memory.deleted ∨
      ∃ ra ∈ c.actions, ∃ name,
        (c.after types w (n + 1)).memory.deleted = (c.after types w n).memory.deleted ++ [name] ∧
        ResourceOp.checkDelete.record name ∈
          c.achieved place' ra ((c.after types w (n + 1)).memory.decisions.get? ra.1.name) := by
  by_cases hmoved : (c.after types w (n + 1)).memory = (c.after types w n).memory
  · exact .inl (by rw [hmoved])
  cases hadvances.effect with
  | init _ _ _ hdeleted =>
    have hfresh : (c.after types w n).memory = Memory.fresh := h.stands.1
    rw [hfresh]
    exact .inl hdeleted
  | quiet _ _ htables => exact .inl htables.deleted
  | forget _ _ _ _ _ _ _ hdeleted => exact .inl hdeleted
  | settle _ _ _ _ _ hdeleted => exact .inl hdeleted
  | wait _ _ hmemory => exact absurd hmemory hmoved
  | @did k ra routine s before rest K m hfaces hmoves hperformed _ hmemory =>
    by_cases hop : s.op = .checkDelete
    · obtain ⟨hdoes, hachieved⟩ := h.does_of_faces hd htypes hfaces hadvances hmoved
      refine .inr ⟨ra, hfaces.inRoutine.planned, s.name, (hdoes.confirmed hop).1, ?_⟩
      rw [hachieved, hop]
      exact List.mem_append_right _ List.mem_cons_self
    · left
      rw [hmemory]
      generalize Run.exchanges c.program types (c.after types w n) = es at hperformed
      generalize (c.after types w (n + 1)).world = w' at hperformed
      cases hperformed with
      | checkDelete hop' => exact absurd hop' hop
      | _ => rfl

/-- **What is listed as deleted is what was confirmed to be gone.** -/
theorem Reaches.mem_deleted_iff (hd : c.Distinct)
    (htypes : ∀ t ∈ plan.declaration.catalog.keys, t ∈ types.keys)
    (h : c.Reaches types w n place) :
    name ∈ (c.after types w n).memory.deleted ↔ ∃ ra ∈ c.actions,
      ResourceOp.checkDelete.record name ∈
        c.achieved place ra ((c.after types w n).memory.decisions.get? ra.1.name) := by
  induction h with
  | start => exact ⟨nofun, nofun⟩
  | @step n place place' hreaches hadvances ih =>
    constructor
    · intro hmem
      have hold : name ∈ (c.after types w n).memory.deleted → ∃ ra ∈ c.actions,
          ResourceOp.checkDelete.record name ∈
            c.achieved place' ra ((c.after types w (n + 1)).memory.decisions.get? ra.1.name) := by
        intro hmem
        obtain ⟨ra, hra, hachieved⟩ := ih.1 hmem
        exact ⟨ra, hra, (hadvances.achieved_isPrefix hra).subset hachieved⟩
      rcases hreaches.lists hd htypes hadvances with hsame | ⟨ra, hra, name', hnew, hachieved⟩
      · exact hold (hsame ▸ hmem)
      · rw [hnew] at hmem
        rcases List.mem_append.1 hmem with hmem | hmem
        · exact hold hmem
        · obtain rfl := List.mem_singleton.1 hmem
          exact ⟨ra, hra, hachieved⟩
    · rintro ⟨ra, hra, hmem⟩
      have hold : name ∈ (c.after types w n).memory.deleted →
          name ∈ (c.after types w (n + 1)).memory.deleted := by
        intro hmem
        rcases hreaches.lists hd htypes hadvances with hsame | ⟨_, _, name', hnew, -⟩
        · exact hsame ▸ hmem
        · rw [hnew]
          exact List.mem_append_left _ hmem
      rcases hreaches.achieves hadvances hra with hsame | ⟨s, hdoes, hnew⟩
      · exact hold (ih.2 ⟨ra, hra, hsame ▸ hmem⟩)
      · rw [hnew] at hmem
        rcases List.mem_append.1 hmem with hmem | hmem
        · exact hold (ih.2 ⟨ra, hra, hmem⟩)
        · obtain ⟨hop, rfl⟩ := ResourceOp.record_inj.1 (List.mem_singleton.1 hmem)
          rw [(hdoes.confirmed hop.symm).1]
          exact List.mem_append_right _ List.mem_cons_self

/-! ### Names that are not declared -/

/-- The deletion of what is tracked under a name is still ahead: its resource is no longer
declared, or it was put aside for a replacement. -/
structure Clears (c : Compilation plan) (place : Place) (d : Option Decision) (name : String)
    (ra : Resource × Action) : Prop where
  planned : ra ∈ c.actions
  ahead : ResourceOp.checkDelete.record name ∉ c.achieved place ra d
  owes : (ra.2 = .delete ∧ ra.1.name = name) ∨
    (ra.1.did .markDeletable ∈ c.achieved place ra d ∧ deletable ra.1.name = name)

/-- A step keeps a deletion ahead, unless it leaves nothing under the name. -/
theorem Clears.step {ra : Resource × Action} (hreaches : c.Reaches types w n place)
    (hadvances : c.Advances types (c.after types w n) (c.after types w (n + 1)) place place')
    (h : c.Clears place ((c.after types w n).memory.decisions.get? ra.1.name) name ra) :
    (c.after types w (n + 1)).memory.remoteIds.get? name = none ∨
      c.Clears place' ((c.after types w (n + 1)).memory.decisions.get? ra.1.name) name ra := by
  have howes := h.owes.imp_right
    (And.imp_left fun hmem => (hadvances.achieved_isPrefix h.planned).subset hmem)
  rcases hreaches.achieves hadvances h.planned with hsame | ⟨s, hdoes, hnew⟩
  · exact .inr ⟨h.planned, hsame ▸ h.ahead, howes⟩
  · by_cases hrecord : s.op.record s.name = ResourceOp.checkDelete.record name
    · obtain ⟨hop, rfl⟩ := ResourceOp.record_inj.1 hrecord
      exact .inl (hdoes.confirmed hop).2
    · refine .inr ⟨h.planned, ?_, howes⟩
      rw [hnew, List.mem_append, List.mem_singleton]
      exact not_or.2 ⟨h.ahead, Ne.symm hrecord⟩

/-- **What is tracked under a name that is not declared is going to be deleted.** -/
theorem Reaches.free_or_clears (hd : c.Distinct)
    (htypes : ∀ t ∈ plan.declaration.catalog.keys, t ∈ types.keys)
    (hname : name ∉ plan.declaration.resources.keys) (h : c.Reaches types w n place) (hn : 0 < n) :
    (c.after types w n).memory.remoteIds.get? name = none ∨
      ∃ ra, c.Clears place ((c.after types w n).memory.decisions.get? ra.1.name) name ra := by
  induction h, hn using Reaches.begun_induction with
  | loaded hadvances =>
    by_cases htracked : name ∈ plan.prior.keys
    · right
      obtain ⟨ra, hra, hra', hdelete⟩ := c.exists_delete htracked hname
      refine ⟨ra, hra, fun hmem => ?_, .inl ⟨hdelete, hra'⟩⟩
      obtain ⟨t, ht, s, hdoes, -⟩ := (Reaches.start.step hadvances).does_of_mem_achieved hra hmem
      obtain rfl := Nat.lt_one_iff.1 ht
      cases hdoes with
      | intro hreached => cases hreached
    · left
      rw [hadvances.loaded.1, Table.get?_mapValues]
      exact Option.map_eq_none_iff.2 (Entries.get?_eq_none_iff.2 htracked)
  | @step n place place' hreaches hpos hadvances ih =>
    cases hadvances.turns (hreaches.ne_start hpos) name with
    | kept hkept =>
      rcases ih with hfree | ⟨ra, hclears⟩
      · exact .inl (hkept.trans hfree)
      · exact (hclears.step hreaches hadvances).imp_right fun hclears => ⟨ra, hclears⟩
    | forgotten _ _ _ _ hnone => exact .inl hnone
    | deleted _ _ _ _ _ hnone => exact .inl hnone
    | putAside _ _ _ _ _ hnone => exact .inl hnone
    | created _ hfaces hop hstaged =>
      obtain ⟨howner, haction, -⟩ := create_of_faces hd hfaces hadvances.running hop
      have hdeclared := declared_of_action hfaces.inRoutine.planned haction
      rw [← howner, hstaged] at hdeclared
      exact absurd hdeclared hname
    | @received k ra routine before rest K s hp hfaces hop hstaged _ hslot =>
      subst hp
      by_cases hmoved : (c.after types w (n + 1)).memory = (c.after types w n).memory
      · -- An operation that changes nothing has put nothing aside.
        rcases ih with hfree | ⟨rb, hclears⟩
        · exact .inl (hmoved ▸ hfree)
        · exact (hclears.step hreaches hadvances).imp_right fun hclears => ⟨rb, hclears⟩
      · right
        obtain ⟨-, hachieved⟩ := hreaches.does_of_faces hd htypes hfaces hadvances hmoved
        obtain ⟨howner, -, -⟩ := putAside_of_faces hd hfaces hadvances.running hop
        obtain ⟨d, -, -, hword⟩ := possible_of_faces hd hfaces hadvances.running
        rw [howner] at hstaged hachieved hword
        subst hstaged
        rw [hop] at hachieved hword
        refine ⟨ra, hfaces.inRoutine.planned, ?_, .inr ⟨?_, rfl⟩⟩
        · rw [hachieved, List.mem_append, List.mem_singleton, ResourceOp.record_inj]
          exact not_or.2 ⟨Resource.notMem_of_markDeletable hword, nofun⟩
        · rw [hachieved]
          exact List.mem_append_right _ List.mem_cons_self

theorem Reaches.free_of_halted (hd : c.Distinct)
    (htypes : ∀ t ∈ plan.declaration.catalog.keys, t ∈ types.keys)
    (hname : name ∉ plan.declaration.resources.keys) (h : c.Reaches types w n .halted) :
    (c.after types w n).memory.remoteIds.get? name = none := by
  rcases h.free_or_clears hd htypes hname (h.pos nofun) with hfree | ⟨ra, hra, hahead, howes⟩
  · exact hfree
  · refine absurd ?_ hahead
    rw [achieved_halted hra] at howes ⊢
    rw [Resource.checkDelete_mem_word]
    rcases howes with ⟨hdelete, rfl⟩ | ⟨hmem, rfl⟩
    · exact .inl ⟨hdelete, rfl⟩
    · obtain ⟨hupdate, hrecreate, hclearing⟩ := Resource.markDeletable_mem_word hmem
      exact .inr ⟨hupdate, hrecreate, hclearing.symm⟩

/-! ### Identifiers of declared resources -/

theorem Reaches.created_of_ret {k : Nat} {ra : Resource × Action} {before : List Instruction}
    {K : Known} (hd : c.Distinct)
    (htypes : ∀ t ∈ plan.declaration.catalog.keys, t ∈ types.keys)
    (h : c.Reaches types w n (.routine k ra .missingCreate before [.ret] K)) :
    ra.1.did .create ∈ c.achieved (.routine k ra .missingCreate before [.ret] K) ra
      ((c.after types w n).memory.decisions.get? ra.1.name) := by
  have hroutine : c.InRoutine k ra .missingCreate before [.ret] K (c.after types w n).memory :=
    h.stands.1
  obtain ⟨earlier, rfl⟩ : ∃ earlier, before = earlier ++ [.resource .create] := by
    have hbody : (ra.1.piece plan.createMissing .missingCreate).body =
        (.clear :: (Emit.replaceMissing ra.1 ++ Emit.load ra.1.name ra.1.typeId ++
          [.key "properties", .valueRom ra.1.name]) ++ [.resource .create]) ++ [.ret] := by
      simp [Resource.piece, Subroutine.body, Resource.script, Emit.withProperties]
    exact ⟨_, (List.append_cancel_right (hbody.symm.trans hroutine.body)).symm⟩
  obtain ⟨t, ht, K₀, hreached, hadvances, hmemory⟩ := h.previous
  obtain ⟨s, m, hop, hfaces, hmoves, -, -⟩ := hadvances.performed hd htypes
  have howner : s.name = ra.1.name := (create_of_faces hd hfaces hadvances.running hop).1
  rw [hmemory, hadvances.achieved_of_moves hmoves hroutine.planned, howner]
  simp [Place.owner?, Resource.did]

theorem Executes.within_missing {r r' : Run W} {k : Nat} {ra : Resource × Action}
    {before rest : List Instruction} {K : Known}
    (h : c.Executes types r (.routine k ra .missingCreate before rest K) place' r') :
    rest = [.ret] ∨ ∃ before' rest' K', place' = .routine k ra .missingCreate before' rest' K' := by
  cases h with
  | next => exact .inr ⟨_, _, _, rfl⟩
  | wait => exact .inr ⟨_, _, _, rfl⟩
  | ret => exact .inl rfl
  | jump hroutine => exact absurd (target_of_gotoIf hroutine) List.not_mem_nil

/-- What turns the identifier is done by a routine of the resource, and is achieved then. -/
theorem Reaches.turned_of_faces (hd : c.Distinct)
    (htypes : ∀ t ∈ plan.declaration.catalog.keys, t ∈ types.keys) {ra rb : Resource × Action}
    (hra : ra ∈ c.actions) {k : Nat} {routine : Routine} {before rest : List Instruction}
    {K : Known} {s : Staged W}
    (h : c.Reaches types w n (.routine k rb routine before (.resource s.op :: rest) K))
    (hfaces : c.Faces types k rb routine before rest K s (c.after types w n).memory)
    (hadvances : c.Advances types (c.after types w n) (c.after types w (n + 1))
      (.routine k rb routine before (.resource s.op :: rest) K) place')
    (hname : rb.1.name = ra.1.name) (hturning : ra.1.Turning (s.op.record s.name))
    (hmoved : (c.after types w (n + 1)).memory ≠ (c.after types w n).memory) :
    ∃ o ∈ c.achieved place' ra ((c.after types w (n + 1)).memory.decisions.get? ra.1.name),
      ra.1.Turning o := by
  obtain rfl := eq_of_name_eq hfaces.inRoutine.planned hra hname
  obtain ⟨-, hachieved⟩ := h.does_of_faces hd htypes hfaces hadvances hmoved
  exact ⟨_, hachieved ▸ List.mem_append_right _ List.mem_cons_self, hturning⟩

/-- **The identifier of a declared resource is the one that was tracked, unless its object is
being replaced, or was created, deleted or put aside.** -/
theorem Reaches.untouched (hd : c.Distinct)
    (htypes : ∀ t ∈ plan.declaration.catalog.keys, t ∈ types.keys) (hapart : plan.Apart)
    {ra : Resource × Action} (hra : ra ∈ c.actions) (haction : ra.2 ≠ .delete)
    (h : c.Reaches types w n place) (hn : 0 < n) :
    (c.after types w n).memory.remoteIds.get? ra.1.name =
        (plan.prior.get? ra.1.name).map Tracked.remoteId ∨
      (∃ k before rest K, place = .routine k ra .missingCreate before rest K) ∨
      ∃ o ∈ c.achieved place ra ((c.after types w n).memory.decisions.get? ra.1.name),
        ra.1.Turning o := by
  have hforeign : ∀ {rb : Resource × Action}, rb ∈ c.actions → rb.2 = .update →
      ra.1.name ≠ deletable rb.1.name := fun hrb hupdate =>
    hapart _ (declared_of_action hra haction) _
      (declared_of_action hrb (by rw [hupdate]; nofun))
  induction h, hn using Reaches.begun_induction with
  | loaded hadvances =>
    left
    rw [hadvances.loaded.1, Table.get?_mapValues]
  | @step n place place' hreaches hpos hadvances ih =>
    rcases ih with hslot | ⟨k, before, rest, K, rfl⟩ | ⟨o, ho, hturning⟩
    · by_cases hkept : (c.after types w (n + 1)).memory.remoteIds.get? ra.1.name =
          (c.after types w n).memory.remoteIds.get? ra.1.name
      · exact .inl (hkept.trans hslot)
      have hmoved : (c.after types w (n + 1)).memory ≠ (c.after types w n).memory :=
        fun heq => hkept (by rw [heq])
      cases hadvances.turns (hreaches.ne_start hpos) ra.1.name with
      | kept hsame => exact absurd hsame hkept
      | @forgotten k rb before rest K hp hroutine _ howner =>
        obtain rfl := eq_of_name_eq hroutine.planned hra howner
        subst hp
        rcases hadvances.executes.within_missing with hnil | ⟨before', rest', K', rfl⟩
        · cases hnil
        · exact .inr (.inl ⟨k, before', rest', K', rfl⟩)
      | created hp hfaces hop hstaged =>
        subst hp
        obtain ⟨howner, -⟩ := create_of_faces hd hfaces hadvances.running hop
        exact .inr (.inr (hreaches.turned_of_faces hd htypes hra hfaces hadvances
          (howner.symm.trans hstaged) (.inl (by rw [hop, hstaged]; rfl)) hmoved))
      | deleted hp hfaces hop hstaged =>
        subst hp
        rcases checkDelete_of_faces hd hfaces hadvances.running hop with
          ⟨howner, -⟩ | ⟨haside, hupdate⟩
        · exact .inr (.inr (hreaches.turned_of_faces hd htypes hra hfaces hadvances
            (howner.symm.trans hstaged) (.inr (.inl (by rw [hop, hstaged]; rfl))) hmoved))
        · exact absurd (hstaged.symm.trans haside)
            (hforeign hfaces.inRoutine.planned hupdate)
      | putAside hp hfaces hop hstaged =>
        subst hp
        obtain ⟨howner, -⟩ := putAside_of_faces hd hfaces hadvances.running hop
        exact .inr (.inr (hreaches.turned_of_faces hd htypes hra hfaces hadvances
          (howner.symm.trans hstaged) (.inr (.inr (by rw [hop, hstaged]; rfl))) hmoved))
      | received hp hfaces hop hstaged =>
        obtain ⟨howner, hupdate, -⟩ := putAside_of_faces hd hfaces hadvances.running hop
        rw [howner] at hstaged
        exact absurd hstaged.symm (hforeign hfaces.inRoutine.planned hupdate)
    · rcases hadvances.executes.within_missing with rfl | ⟨before', rest', K', rfl⟩
      · refine .inr (.inr ⟨_, ?_, .inl rfl⟩)
        exact (hadvances.achieved_isPrefix hra).subset (hreaches.created_of_ret hd htypes)
      · exact .inr (.inl ⟨k, before', rest', K', rfl⟩)
    · exact .inr (.inr ⟨o, (hadvances.achieved_isPrefix hra).subset ho, hturning⟩)

theorem Reaches.kept_of_halted (hd : c.Distinct)
    (htypes : ∀ t ∈ plan.declaration.catalog.keys, t ∈ types.keys) (hapart : plan.Apart)
    {ra : Resource × Action} (hra : ra ∈ c.actions) (hupdate : ra.2 = .update)
    (h : c.Reaches types w n .halted)
    (hdecided : (c.after types w n).memory.decisions.get? ra.1.name = some .noChange ∨
      (c.after types w n).memory.decisions.get? ra.1.name = some .modify) :
    (c.after types w n).memory.remoteIds.get? ra.1.name =
      (plan.prior.get? ra.1.name).map Tracked.remoteId := by
  rcases h.untouched hd htypes hapart hra (by rw [hupdate]; nofun) (h.pos nofun) with
    hslot | ⟨_, _, _, _, hplace⟩ | ⟨o, ho, hturning⟩
  · exact hslot
  · cases hplace
  · rw [achieved_halted hra, hupdate] at ho
    exact absurd ho (Resource.notMem_word_of_turning hturning hdecided)

theorem Reaches.hears_of_word (hd : c.Distinct) {ra : Resource × Action} (hra : ra ∈ c.actions)
    (h : c.Reaches types w n .halted) (hcreates : ra.1.did .create ∈
      ra.1.word plan.createMissing ra.2 ((c.after types w n).memory.decisions.get? ra.1.name)) :
    ∃ t properties answer, Run.Hears c.program types (c.after types w t)
      (ResourceOp.create.record ra.1.name)
      ⟨ra.1.typeId, none, .create properties, .ok answer⟩ := by
  rw [← achieved_halted hra] at hcreates
  obtain ⟨t, -, s, hdoes, hrecord⟩ := h.does_of_mem_achieved hra hcreates
  obtain ⟨hop, hname⟩ := ResourceOp.record_inj.1 hrecord
  obtain ⟨properties, answer, hhears⟩ := hdoes.hears_create hd hop.symm
  rw [← hop, ← hname, hdoes.typeId_eq] at hhears
  exact ⟨t, properties, answer, hhears⟩

/-- A creation that was answered before the end is kept there. -/
theorem Reaches.kept_to_halted (hd : c.Distinct)
    (htypes : ∀ t ∈ plan.declaration.catalog.keys, t ∈ types.keys) (hapart : plan.Apart)
    (h : c.Reaches types w n .halted) {t : Nat} {typeId : String} {handle answer : Option Json}
    {properties : Properties}
    (hhears : Run.Hears c.program types (c.after types w t) (ResourceOp.create.record name)
      ⟨typeId, handle, .create properties, .ok answer⟩) :
    (c.after types w n).memory.remoteIds.get? name = some (answer.getD .null) := by
  have hended : (c.after types w n).ended c.program = true :=
    halted_of_stands h.stands.1 c.program.size
  have ht : t < n := by
    obtain ⟨k, ra, routine, before, rest, K, s, hreached, -⟩ := faces_of_hears hd htypes hhears
    refine Nat.lt_of_le_of_ne (hreached.le_of_ended hd hended) ?_
    rintro rfl
    have hlogged := hhears.logged
    rw [Run.upcoming_of_halted hended] at hlogged
    cases hlogged
  obtain ⟨rb, hcreated⟩ := h.keeps hd htypes ht hhears
    fun _ _ _ _ rb hrb hupdate hdeclared heq =>
      absurd heq (hapart _ hdeclared _ (declared_of_action hrb (by rw [hupdate]; nofun)))
  exact hcreated.tracked

end Compilation

/-! ### What a run leaves -/

/-- Where the identifier comes from that is tracked for a declared resource when a run has ended
in a memory. -/
structure Traced {W : Type} (plan : Plan) (p : Program) (types : Registry W) (w : W) (m : Memory)
    (name : String) (id : Json) : Prop where
  /-- What was left as it was, or was modified, has the identifier that was tracked. -/
  kept : ∀ d, d = .noChange ∨ d = .modify → m.decisions.get? name = some d →
    ∃ tracked, plan.prior.get? name = some tracked ∧ id = tracked.remoteId
  /-- Everything else was created. -/
  created : (∀ d, d = .noChange ∨ d = .modify → m.decisions.get? name ≠ some d) →
    ∃ t typeId handle properties answer,
      Run.Hears p types (Run.steps p types t (Run.fresh w)) (ResourceOp.create.record name)
        ⟨typeId, handle, .create properties, .ok answer⟩
  /-- What was created has the identifier that its creation gave. -/
  given : ∀ t typeId handle properties answer,
    Run.Hears p types (Run.steps p types t (Run.fresh w)) (ResourceOp.create.record name)
      ⟨typeId, handle, .create properties, .ok answer⟩ → id = answer.getD .null

/-- What a run leaves behind that has ended: exactly the declared resources are tracked, as they
are declared, and what was tracked before or replaced is listed as deleted. -/
structure Engine.Converged {W : Type} (e : Engine W) (plan : Plan) (w : W) (m : Memory) :
    Prop where
  /-- Each declared name has one entry, and no other name has one. -/
  names : (e.state m).keys.Perm plan.declaration.resources.keys
  /-- An entry has the type and the dependencies that are declared. -/
  entries : ∀ name r, plan.declaration.resources.get? name = some r →
    ∃ id, (e.state m).get? name = some ⟨id, r.typeId, r.waits⟩ ∧
      Traced plan e.program e.registry w m name id
  /-- What is tracked and no longer declared was deleted, and so was every object that was
  replaced, under the name where it was put aside if that was done late. -/
  deleted : ∀ name, name ∈ m.deleted ↔
    (name ∈ plan.prior.keys ∧ name ∉ plan.declaration.resources.keys) ∨
      ∃ owner r, plan.declaration.resources.get? owner = some r ∧
        m.decisions.get? owner = some .recreate ∧
        name = if r.schema.deleteAtEnd then deletable owner else owner

namespace Compilation

variable {plan : Plan} {W : Type} {c : Compilation plan} {types : Registry W} {w : W} {n : Nat}
  {name : String}

theorem Reaches.traced (hd : c.Distinct)
    (htypes : ∀ t ∈ plan.declaration.catalog.keys, t ∈ types.keys) (hapart : plan.Apart)
    (h : c.Reaches types w n .halted) {r : Resource}
    (hget : plan.declaration.resources.get? name = some r) :
    ∃ id, (c.after types w n).memory.remoteIds.get? name = some id ∧
      Traced plan c.program types w (c.after types w n).memory name id := by
  obtain ⟨action, hra, rfl, haction⟩ := c.exists_declared hget
  have hsettled := h.settled_of_halted hra
  have hgiven : ∀ {id}, (c.after types w n).memory.remoteIds.get? r.name = some id →
      ∀ t typeId handle properties answer,
        Run.Hears c.program types (c.after types w t) (ResourceOp.create.record r.name)
          ⟨typeId, handle, .create properties, .ok answer⟩ → id = answer.getD .null := by
    intro id hslot t typeId handle properties answer hhears
    exact Option.some.inj (hslot.symm.trans (h.kept_to_halted hd htypes hapart hhears))
  by_cases hkept : ∃ d, (d = .noChange ∨ d = .modify) ∧
      (c.after types w n).memory.decisions.get? r.name = some d
  · obtain ⟨d, hd', hdecided⟩ := hkept
    obtain rfl : action = .update := update_of_settled (hdecided ▸ hsettled)
    have hslot := h.kept_of_halted hd htypes hapart hra rfl (by
      rw [hdecided]
      exact hd'.imp (congrArg some) (congrArg some))
    have htracked := Table.contains_iff.1 ((c.planned hra).tracked.2 nofun)
    obtain ⟨tracked, hprior⟩ := Option.ne_none_iff_exists'.1
      fun hnone => Entries.get?_eq_none_iff.1 hnone htracked
    have hprior : plan.prior.get? r.name = some tracked := hprior
    rw [hprior] at hslot
    exact ⟨tracked.remoteId, hslot, fun _ _ _ => ⟨tracked, hprior, rfl⟩,
      fun hnot => absurd hdecided (hnot d hd'), hgiven hslot⟩
  · have hcreates : r.did .create ∈ r.word plan.createMissing action
        ((c.after types w n).memory.decisions.get? r.name) := by
      rw [Resource.create_mem_word]
      generalize (c.after types w n).memory.decisions.get? r.name = v at hsettled hkept
      cases action with
      | create => exact .inl rfl
      | delete => exact absurd rfl haction
      | update =>
        rcases v with _ | _ | _ | _ | _
        · exact absurd hsettled (none_notMem_settled _)
        · exact absurd ⟨_, .inl rfl, rfl⟩ hkept
        · exact absurd ⟨_, .inr rfl, rfl⟩ hkept
        · exact .inr ⟨rfl, .inr rfl⟩
        · exact .inr ⟨rfl, .inl rfl⟩
    obtain ⟨t, properties, answer, hhears⟩ := h.hears_of_word hd hra hcreates
    have hslot := h.kept_to_halted hd htypes hapart hhears
    exact ⟨_, hslot, fun d hd' hdecided => absurd ⟨d, hd', hdecided⟩ hkept,
      fun _ => ⟨t, _, _, properties, answer, hhears⟩, hgiven hslot⟩

theorem Reaches.deleted_of_halted (hd : c.Distinct)
    (htypes : ∀ t ∈ plan.declaration.catalog.keys, t ∈ types.keys)
    (h : c.Reaches types w n .halted) :
    name ∈ (c.after types w n).memory.deleted ↔
      (name ∈ plan.prior.keys ∧ name ∉ plan.declaration.resources.keys) ∨
        ∃ owner r, plan.declaration.resources.get? owner = some r ∧
          (c.after types w n).memory.decisions.get? owner = some .recreate ∧
          name = if r.schema.deleteAtEnd then deletable owner else owner := by
  rw [h.mem_deleted_iff hd htypes]
  constructor
  · rintro ⟨ra, hra, hmem⟩
    rw [achieved_halted hra, Resource.checkDelete_mem_word] at hmem
    rcases hmem with ⟨hdelete, rfl⟩ | ⟨hupdate, hrecreate, rfl⟩
    · refine .inl ⟨Table.contains_iff.1 ((c.planned hra).tracked.2 (by rw [hdelete]; nofun)), ?_⟩
      exact Entries.get?_eq_none_iff.1 ((c.planned hra).undeclared hdelete)
    · exact .inr ⟨ra.1.name, ra.1, (c.planned hra).declared (by rw [hupdate]; nofun), hrecreate, rfl⟩
  · rintro (⟨htracked, hname⟩ | ⟨owner, r, hget, hrecreate, rfl⟩)
    · obtain ⟨ra, hra, rfl, hdelete⟩ := c.exists_delete htracked hname
      refine ⟨ra, hra, ?_⟩
      rw [achieved_halted hra, Resource.checkDelete_mem_word]
      exact .inl ⟨hdelete, rfl⟩
    · obtain ⟨action, hra, rfl, -⟩ := c.exists_declared hget
      refine ⟨_, hra, ?_⟩
      rw [achieved_halted hra, Resource.checkDelete_mem_word]
      exact .inr ⟨update_of_settled (hrecreate ▸ h.settled_of_halted hra), hrecreate, rfl⟩

theorem Reaches.state_of_halted {e : Engine W} (hd : c.Distinct)
    (htypes : ∀ t ∈ plan.declaration.catalog.keys, t ∈ types.keys) (hapart : plan.Apart)
    (he : Engine.compile types plan = .ok e) (h : c.Reaches types w n .halted) (name : String) :
    name ∈ (e.state (c.after types w n).memory).keys ↔
      name ∈ plan.declaration.resources.keys := by
  constructor
  · intro hmem
    by_contra hname
    refine Entries.get?_eq_none_iff.1 ?_ hmem
    refine (Engine.get?_state e _ name).trans ?_
    rw [h.free_of_halted hd htypes hname]
    rfl
  · intro hmem
    obtain ⟨r, hget⟩ := Option.ne_none_iff_exists'.1
      fun hnone => Entries.get?_eq_none_iff.1 hnone hmem
    obtain ⟨id, hslot, -⟩ := h.traced hd htypes hapart hget
    refine Table.mem_keys_of_get? (v := ⟨id, r.typeId, r.waits⟩) ?_
    rw [Engine.get?_state, hslot]
    exact Engine.tracked?_declared he hget id

/-- **Whatever the backends answer, a run that ends without a fault leaves exactly the declared
resources tracked, as they are declared and under the identifiers that were tracked before or
given in the run, and it lists exactly what was removed or replaced as deleted.** -/
theorem converged_of_steps {e : Engine W} (he : Engine.compile types plan = .ok e) :
    ∃ c : Compilation plan, c.program = e.program ∧ (c.Distinct → plan.Apart →
      (∀ t ∈ plan.declaration.catalog.keys, t ∈ types.keys) → ∀ (w : W) (n : Nat),
        e.outcome (Run.steps e.program e.registry n (Run.fresh w)) = .completed →
        e.Converged plan w (Run.steps e.program e.registry n (Run.fresh w)).memory) := by
  obtain ⟨hcompile, hregistry, -⟩ := Engine.compile_eq_ok he
  obtain ⟨c, hc⟩ := compile_eq_ok.1 hcompile
  refine ⟨c, hc, fun hd hapart htypes w n houtcome => ?_⟩
  obtain ⟨herror, hended⟩ := Engine.outcome_eq_completed houtcome
  rw [← hc, hregistry] at herror hended ⊢
  obtain ⟨t, -, h, hafter⟩ := reaches_halted hd htypes hended herror
  have hmemory : (Run.steps c.program types n (Run.fresh w)).memory =
      (c.after types w t).memory := congrArg Run.memory hafter
  rw [hmemory]
  refine ⟨?_, fun name r hget => ?_, fun name => h.deleted_of_halted hd htypes⟩
  · exact (List.perm_ext_iff_of_nodup (Table.nodup _) plan.declaration.resources.nodup).2
      (h.state_of_halted hd htypes hapart he)
  · obtain ⟨id, hslot, htraced⟩ := h.traced hd htypes hapart hget
    refine ⟨id, ?_, ?_⟩
    · rw [Engine.get?_state, hslot]
      exact Engine.tracked?_declared he hget id
    · rwa [← hc, hregistry]

/-- In this plan `x` is deleted, `y` is replaced late, and `z` is new. -/
theorem converged_of_steps_plain :
    ∃ e : Engine Unit, Engine.compile (plainTypes true)
        (plainPlan true ["x", "y"] ["y", "z"] true) = .ok e ∧
      e.Converged (plainPlan true ["x", "y"] ["y", "z"] true) ()
        (Run.steps e.program e.registry 200 (Run.fresh ())).memory := by
  obtain ⟨c, -, hconverged⟩ := converged_of_steps
    (rfl : Engine.compile (plainTypes true) (plainPlan true ["x", "y"] ["y", "z"] true) = .ok _)
  refine ⟨_, rfl, hconverged c.distinct_plain ?_ (by decide) () 200 (by decide +kernel)⟩
  unfold Plan.Apart
  decide +kernel

end Compilation

end Provisioning
