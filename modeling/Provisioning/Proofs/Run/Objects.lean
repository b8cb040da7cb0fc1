/-
Which objects a step changes.

If the objects are kept in a store, no two names of one type are ever tracked with the same
identifier: they are not when the run begins, and a new identifier was never given before.  So
what is done to the object of one name leaves those of all others alone.  The identifier and
the object of a declared resource only change in the steps that `Touched` lists, and all of
these belong to the resource itself.
-/
import Provisioning.Proofs.Backend.Store
import Provisioning.Proofs.Run.Availability
import Provisioning.Proofs.Run.Custody

namespace Provisioning

theorem Memory.remoteId_congr {m m' : Memory} {name : String}
    (h : m'.remoteIds.get? name = m.remoteIds.get? name) : m'.remoteId name = m.remoteId name := by
  unfold remoteId
  rw [h]

/-- Whether an operation touches the identifier or the object of the staged resource. -/
def ResourceOp.touches : ResourceOp → Bool
  | .create | .update | .delete | .checkDelete | .markDeletable => true
  | _ => false

/-- Only an update does anything to what it has put aside. -/
theorem Resource.update_of_aside {r : Resource} {createMissing : Bool} {action : Action}
    {d : Option Decision} {op : ResourceOp}
    (h : op.record (deletable r.name) ∈ r.word createMissing action d) : action = .update := by
  obtain ⟨os, hletter⟩ := exists_letter h
  generalize hname : deletable r.name = name at hletter
  cases hletter with
  | create | checkCreate | delete | checkDelete => exact absurd hname.symm (ne_deletable r.name)
  | _ => rfl

/-- What a snapshot tracks is in order: a tracked object has the type of the declared resource
it belongs to, no identifier is tracked twice, and every identifier was given. -/
structure Store.Tracks {W : Type} (S : Store W) (plan : Plan) (w : W) : Prop where
  /-- The object is that of a declared resource, or one that it has put aside. -/
  typed : ∀ name tracked r, plan.prior.get? name = some tracked →
    plan.declaration.get? r.name = some r → name = r.name ∨ name = deletable r.name →
      tracked.typeId = r.typeId
  distinct : ∀ n n' tracked tracked', plan.prior.get? n = some tracked →
    plan.prior.get? n' = some tracked' → tracked.typeId = tracked'.typeId →
      tracked.remoteId = tracked'.remoteId → tracked.remoteId ≠ .null → n = n'
  given : ∀ name tracked, plan.prior.get? name = some tracked → tracked.remoteId ≠ .null →
    S.given w tracked.typeId tracked.remoteId

/-- The object that is tracked for a resource. -/
def Resource.object {W : Type} (x : Resource) (S : Store W) (r : Run W) :
    Option (String → Option Json) :=
  S.held r.world x.typeId (r.memory.remoteId x.name)

/-- The identifier and the object of a resource are as they were. -/
structure Resource.Kept {W : Type} (x : Resource) (S : Store W) (r r' : Run W) : Prop where
  slot : r'.memory.remoteIds.get? x.name = r.memory.remoteIds.get? x.name
  object : x.object S r' = x.object S r

namespace Compilation

variable {plan : Plan} {W : Type} {c : Compilation plan} {types : Registry W} {S : Store W} {w : W}
  {r r' : Run W} {place place' : Place}

/-! ### The types of names -/

/-- What is tracked under a name is of a type: as the object of a planned resource, or as one
that an update has put aside. -/
def Bears (c : Compilation plan) (name typeId : String) : Prop :=
  ∃ ra ∈ c.actions, ra.1.typeId = typeId ∧
    (ra.1.name = name ∨ (ra.2 = .update ∧ deletable ra.1.name = name))

theorem bears_of_mem {ra : Resource × Action} (hra : ra ∈ c.actions) :
    c.Bears ra.1.name ra.1.typeId :=
  ⟨ra, hra, rfl, .inl rfl⟩

theorem tracked_of_delete {ra : Resource × Action} (hra : ra ∈ c.actions)
    (haction : ra.2 = .delete) :
    ∃ tracked, plan.prior.get? ra.1.name = some tracked ∧ tracked.typeId = ra.1.typeId := by
  have hmem := hra
  rw [eq_append_of_actions c.actions_eq, List.mem_append] at hmem
  rcases hmem with hmem | hmem
  · obtain ⟨⟨name, tracked⟩, he, rfl⟩ := List.mem_map.1 hmem
    exact ⟨tracked, Table.get?_eq_some_iff.2 (List.mem_filter.1 he).1, rfl⟩
  · obtain ⟨e, he, rfl⟩ := List.mem_map.1 hmem
    have hnone := (c.planned hra).undeclared haction
    rw [(plan.declaration.declared e he).name_eq, Table.get?_eq_some_iff.2 he] at hnone
    cases hnone

theorem typeId_of_bears (htracks : S.Tracks plan w) {name typeId : String} {tracked : Tracked}
    (h : c.Bears name typeId) (htracked : plan.prior.get? name = some tracked) :
    tracked.typeId = typeId := by
  obtain ⟨ra, hra, rfl, rfl | ⟨hupdate, rfl⟩⟩ := h
  · by_cases haction : ra.2 = .delete
    · obtain ⟨tracked', htracked', htype⟩ := tracked_of_delete hra haction
      obtain rfl := Option.some.inj (htracked.symm.trans htracked')
      exact htype
    · exact htracks.typed _ _ _ htracked ((c.planned hra).declared haction) (.inl rfl)
  · exact htracks.typed _ _ _ htracked
      ((c.planned hra).declared (by rw [hupdate]; nofun)) (.inr rfl)

theorem name_ne_aside (hapart : plan.Apart) {ra rb : Resource × Action} (hra : ra ∈ c.actions)
    (haction : ra.2 ≠ .delete) (hrb : rb ∈ c.actions) (hupdate : rb.2 = .update) :
    ra.1.name ≠ deletable rb.1.name :=
  hapart _ (declared_of_action hra haction) _ (declared_of_action hrb (by rw [hupdate]; nofun))

/-- What is tracked under a name is of one type. -/
theorem bears_unique (hapart : plan.Apart) (htracks : S.Tracks plan w) {name typeId typeId' : String}
    (h : c.Bears name typeId) (h' : c.Bears name typeId') : typeId = typeId' := by
  have hmixed : ∀ {ra rb : Resource × Action}, ra ∈ c.actions → rb ∈ c.actions →
      rb.2 = .update → deletable rb.1.name = ra.1.name → ra.1.typeId = rb.1.typeId := by
    intro ra rb hra hrb hupdate heq
    by_cases haction : ra.2 = .delete
    · obtain ⟨tracked, htracked, htype⟩ := tracked_of_delete hra haction
      rw [← htype]
      exact htracks.typed _ _ _ htracked
        ((c.planned hrb).declared (by rw [hupdate]; nofun)) (.inr heq.symm)
    · exact absurd heq.symm (name_ne_aside hapart hra haction hrb hupdate)
  obtain ⟨ra, hra, rfl, rfl | ⟨hupdate, rfl⟩⟩ := h
  · obtain ⟨rb, hrb, rfl, heq | ⟨hupdate', heq⟩⟩ := h'
    · rw [eq_of_name_eq hrb hra heq]
    · exact hmixed hra hrb hupdate' heq
  · obtain ⟨rb, hrb, rfl, heq | ⟨hupdate', heq⟩⟩ := h'
    · exact (hmixed hrb hra hupdate heq.symm).symm
    · rw [eq_of_name_eq hrb hra (deletable_inj heq)]

/-! ### What a step alters -/

/-- At a place, an operation on the staged resource comes next in a routine of `ra`. -/
def Facing (c : Compilation plan) (types : Registry W) (m : Memory) (place : Place)
    (ra : Resource × Action) (s : Staged W) : Prop :=
  ∃ k routine before rest K, place = .routine k ra routine before (.resource s.op :: rest) K ∧
    c.Faces types k ra routine before rest K s m

/-- At a place, the identifier of what is missing is forgotten next. -/
def Forgetting (plan : Plan) (place : Place) (ra : Resource × Action) : Prop :=
  ∃ k before rest K, place = .routine k ra .missingCreate before (.memwrite .null :: rest) K ∧
    K.records = ra.1.preceding plan.createMissing .missingCreate

/-- What a step from a place does to the identifiers and to the objects. -/
inductive Alters (c : Compilation plan) (types : Registry W) (S : Store W) (r r' : Run W)
    (place : Place) : Prop
  | quiet : r'.memory.remoteIds = r.memory.remoteIds → S.Unchanged r.world r'.world →
    Alters c types S r r' place
  | forgotten {ra : Resource × Action} : ra ∈ c.actions → Forgetting plan place ra →
    r'.memory.remoteIds = r.memory.remoteIds.erase ra.1.name → S.Unchanged r.world r'.world →
    Alters c types S r r' place
  | created {ra : Resource × Action} {s : Staged W} {id : Json}
    {object : Option (String → Option Json)} : c.Facing types r.memory place ra s →
    s.op = .create → r'.memory.remoteIds = r.memory.remoteIds.insert s.name id →
    ¬ S.given r.world s.typeId id → S.given r'.world s.typeId id →
    S.Changes r.world r'.world s.typeId (some id) object → Alters c types S r r' place
  | changed {ra : Resource × Action} {s : Staged W} {object : Option (String → Option Json)} :
    c.Facing types r.memory place ra s → s.op = .update ∨ s.op = .delete →
    r'.memory.remoteIds = r.memory.remoteIds →
    S.Changes r.world r'.world s.typeId (r.memory.remoteId s.name) object →
    Alters c types S r r' place
  | dropped {ra : Resource × Action} {s : Staged W} : c.Facing types r.memory place ra s →
    s.op = .checkDelete → r'.memory.remoteIds = r.memory.remoteIds.erase s.name →
    S.Unchanged r.world r'.world → Alters c types S r r' place
  | putAside {ra : Resource × Action} {s : Staged W} : c.Facing types r.memory place ra s →
    s.op = .markDeletable →
    r'.memory.remoteIds = (r.memory.remoteIds.erase s.name).insert (deletable s.name)
      ((r.memory.remoteIds.get? s.name).getD .null) →
    S.Unchanged r.world r'.world → Alters c types S r r' place

section

variable {k : Nat} {ra : Resource × Action} {routine : Routine} {before rest : List Instruction}
  {K : Known} {s : Staged W} {m : Memory}

theorem keeps_of_faces (hserves : S.Serves types) (h : c.Faces types k ra routine before rest K s m) :
    ∀ p, s.provider = .ok p → S.Keeps s.typeId s.kind.schema p := by
  intro p hp
  obtain ⟨p', hp', hkeeps⟩ := hserves _ _ h.serves.kind
  rw [provider_eq_some hp] at hp'
  obtain rfl := Option.some.inj hp'
  rw [h.serves.typeId]
  exact hkeeps

theorem alters_of_performed (hserves : S.Serves types)
    (hfaces : c.Faces types k ra routine before rest K s r.memory) {es : List Exchange}
    (h : s.Performed c.program.tables.rom r.memory r.world m r'.world es)
    (hmemory : r'.memory = { m with programCounter := r.memory.programCounter + 1 }) :
    c.Alters types S r r' (.routine k ra routine before (.resource s.op :: rest) K) := by
  have hkeeps := keeps_of_faces hserves hfaces
  have hfacing : c.Facing types r.memory
      (.routine k ra routine before (.resource s.op :: rest) K) ra s :=
    ⟨k, routine, before, rest, K, rfl, hfaces⟩
  have hids : r'.memory.remoteIds = m.remoteIds := by rw [hmemory]
  have hquiet : s.op.alters = false → m.remoteIds = r.memory.remoteIds →
      c.Alters types S r r' (.routine k ra routine before (.resource s.op :: rest) K) := by
    intro hop hm
    exact .quiet (hids.trans hm) (Staged.unchanged hkeeps h hop)
  have hunchanged := Staged.unchanged hkeeps h
  have hcreated := Staged.created hkeeps h
  have hupdated := Staged.updated hkeeps h
  have hdeleted := Staged.deleted hkeeps h
  generalize r'.world = w' at h
  cases h with
  | create hop =>
    obtain ⟨_, id, _, _, hm, hfresh, hgiven, hchanges⟩ := hcreated hop
    exact .created hfacing hop (hids.trans (congrArg Memory.remoteIds hm)) hfresh hgiven hchanges
  | update hop | updateRead hop =>
    obtain ⟨_, _, -, hchanges⟩ := hupdated hop
    exact .changed hfacing (.inl hop) hids hchanges
  | delete hop =>
    obtain ⟨-, hchanges⟩ := hdeleted hop
    exact .changed hfacing (.inr hop) hids hchanges
  | checkDelete hop => exact .dropped hfacing hop hids (hunchanged (by rw [hop]; rfl))
  | markDeletable hop hfree hid =>
    subst hid
    exact .putAside hfacing hop hids (hunchanged (by rw [hop]; rfl))
  | @checkChange c _ _ _ _ hop => exact hquiet (by rw [hop]; cases c <;> rfl) rfl
  | read hop | readOutputs hop | checkExist hop | presume hop | filter hop | rescmp hop =>
    exact hquiet (by rw [hop]; rfl) rfl

end

/-! ### Nothing waits -/

section

variable {s : Staged W} {rom : Rom} {m : Memory} {w : W}
  (hkeeps : ∀ p, s.provider = .ok p → S.Keeps s.typeId s.kind.schema p)

include hkeeps

theorem checkChange_ne_stay (change : Change) :
    (s.checkChange change m w).flow ≠ .ok .stay := by
  unfold Staged.checkChange
  split
  · nofun
  · next p hp =>
    split
    · nofun
    · next complete w' hask =>
      obtain rfl : complete = true := (hkeeps p hp).complete (Staged.answered_of_ask hask)
      simp only [if_true, Staged.storeOutputs]
      split <;> nofun

theorem flow_ne_stay (hwaits : s.op.waits = true) : (s.perform rom m w).flow ≠ .ok .stay := by
  unfold Staged.perform
  split <;> try (next hop => rw [hop] at hwaits; cases hwaits)
  · exact checkChange_ne_stay hkeeps .create
  · exact checkChange_ne_stay hkeeps .update
  · unfold Staged.checkDelete
    split
    · nofun
    · next p hp =>
      split
      · nofun
      · next complete w' hask =>
        obtain rfl : complete = true :=
          (hkeeps p hp).deleteComplete (Staged.answered_of_ask hask)
        nofun

end

theorem Advances.beyond (htypes : ∀ t ∈ plan.declaration.catalog.keys, t ∈ types.keys)
    (hserves : S.Serves types) {k : Nat} {ra : Resource × Action} {routine : Routine}
    {op : ResourceOp} {before rest : List Instruction} {K : Known}
    (h : c.Advances types r r' (.routine k ra routine before (.resource op :: rest) K) place') :
    ∃ K', place' = .routine k ra routine (before ++ [.resource op]) rest K' := by
  have hexecutes := h.executes
  cases hexecutes with
  | next => exact ⟨_, rfl⟩
  | wait hroutine ht hwaits hexecute =>
    obtain ⟨s, rfl, hfaces, -⟩ := exists_faces htypes hroutine ht
    rw [execute_of_faces hfaces] at hexecute
    exact absurd (congrArg Outcome.flow hexecute)
      (flow_ne_stay (keeps_of_faces hserves hfaces) hwaits)

/-! ### Identifiers are of one object -/

/-- No two names of one type are tracked with the same identifier, and all that are tracked
were given. -/
structure Accounted (c : Compilation plan) (S : Store W) (r : Run W) : Prop where
  distinct : ∀ {n n' typeId id}, c.Bears n typeId → c.Bears n' typeId →
    r.memory.remoteIds.get? n = some id → r.memory.remoteIds.get? n' = some id → id ≠ .null → n = n'
  given : ∀ {n typeId id}, c.Bears n typeId → r.memory.remoteIds.get? n = some id → id ≠ .null →
    S.given r.world typeId id

/-- **What a step does to the identifiers and to the objects.** -/
theorem Advances.alters (htypes : ∀ t ∈ plan.declaration.catalog.keys, t ∈ types.keys)
    (hserves : S.Serves types) (h : c.Advances types r r' place place') (hplace : place ≠ .start) :
    c.Alters types S r r' place := by
  have hsame : r'.world = r.world → S.Unchanged r.world r'.world := by
    intro hworld
    rw [hworld]
    exact .refl S r.world
  cases h.effect with
  | init => exact absurd rfl hplace
  | quiet _ _ htables hworld => exact .quiet htables.remoteIds (hsame hworld)
  | forget hroutine hmissing hpreceding _ hids _ _ _ hworld =>
    subst hmissing
    exact .forgotten hroutine.planned ⟨_, _, _, _, rfl, hpreceding⟩ hids (hsame hworld)
  | settle _ _ hids _ _ _ hworld => exact .quiet hids (hsame hworld)
  | did hfaces _ hperformed _ hmemory => exact alters_of_performed hserves hfaces hperformed hmemory
  | wait hfaces =>
    obtain ⟨K', heq⟩ := h.beyond htypes hserves
    simp at heq

/-- An operation that comes next is on something of the type of its resource. -/
theorem bears_of_facing (hd : c.Distinct) {ra : Resource × Action} {s : Staged W}
    (h : c.Facing types r.memory place ra s) (herror : r.memory.error = none) :
    ra ∈ c.actions ∧ s.typeId = ra.1.typeId ∧ c.Bears s.name s.typeId ∧
      (s.name = ra.1.name ∨ (ra.2 = .update ∧ s.name = deletable ra.1.name)) := by
  obtain ⟨k, routine, before, rest, K, rfl, hfaces⟩ := h
  have hname : s.name = ra.1.name ∨ (ra.2 = .update ∧ s.name = deletable ra.1.name) := by
    refine hfaces.serves.name.imp_right fun haside => ?_
    obtain ⟨d, -, -, hbegins⟩ := possible_of_faces hd hfaces herror
    rw [haside] at hbegins
    exact ⟨Resource.update_of_aside
      (hbegins.subset (List.mem_append_right _ List.mem_cons_self)), haside⟩
  refine ⟨hfaces.inRoutine.planned, hfaces.serves.typeId, ?_, hname⟩
  exact ⟨ra, hfaces.inRoutine.planned, hfaces.serves.typeId.symm,
    hname.imp Eq.symm fun h => ⟨h.1, h.2.symm⟩⟩

theorem Accounted.of_subset (h : c.Accounted S r)
    (hids : ∀ n id, r'.memory.remoteIds.get? n = some id → r.memory.remoteIds.get? n = some id)
    (hgiven : ∀ typeId id, S.given r.world typeId id → S.given r'.world typeId id) :
    c.Accounted S r' where
  distinct hn hn' hget hget' hid := h.distinct hn hn' (hids _ _ hget) (hids _ _ hget') hid
  given hn hget hid := hgiven _ _ (h.given hn (hids _ _ hget) hid)

theorem get?_of_erase {ids : Table Json} {name n : String} {id : Json}
    (h : (ids.erase name).get? n = some id) : n ≠ name ∧ ids.get? n = some id := by
  rw [Table.get?_erase] at h
  split at h
  · cases h
  · next hne => exact ⟨Ne.symm hne, h⟩

/-- A created object has an identifier that nothing tracked has. -/
theorem Accounted.created (hapart : plan.Apart) (htracks : S.Tracks plan w) (h : c.Accounted S r)
    {s : Staged W} {v : Json} {object : Option (String → Option Json)}
    (hbears : c.Bears s.name s.typeId)
    (hids : r'.memory.remoteIds = r.memory.remoteIds.insert s.name v)
    (hfresh : ¬ S.given r.world s.typeId v) (hgiven : S.given r'.world s.typeId v)
    (hchanges : S.Changes r.world r'.world s.typeId (some v) object) : c.Accounted S r' := by
  have hslot : ∀ {n typeId id}, c.Bears n typeId → r'.memory.remoteIds.get? n = some id →
      (n = s.name ∧ id = v ∧ typeId = s.typeId) ∨ r.memory.remoteIds.get? n = some id := by
    intro n typeId id hn hget
    rw [hids, Table.get?_insert] at hget
    split at hget
    · next heq =>
      subst heq
      exact .inl ⟨rfl, (Option.some.inj hget).symm, bears_unique hapart htracks hn hbears⟩
    · exact .inr hget
  -- What was tracked before was given before, so it is not the new identifier.
  have hother : ∀ {n}, c.Bears n s.typeId → r.memory.remoteIds.get? n = some v → v ≠ .null →
      False := fun hn hget hid => hfresh (h.given hn hget hid)
  constructor
  · intro n n' typeId id hn hn' hget hget' hid
    rcases hslot hn hget with ⟨rfl, rfl, rfl⟩ | hold
    · rcases hslot hn' hget' with ⟨rfl, -⟩ | hold'
      · rfl
      · exact (hother hn' hold' hid).elim
    · rcases hslot hn' hget' with ⟨rfl, rfl, rfl⟩ | hold'
      · exact (hother hn hold hid).elim
      · exact h.distinct hn hn' hold hold' hid
  · intro n typeId id hn hget hid
    rcases hslot hn hget with ⟨rfl, rfl, rfl⟩ | hold
    · exact hgiven
    · exact hchanges.given _ _ (h.given hn hold hid)

theorem Accounted.putAside (hapart : plan.Apart) (htracks : S.Tracks plan w) (h : c.Accounted S r)
    {s : Staged W} (hbears : c.Bears s.name s.typeId)
    (haside : c.Bears (deletable s.name) s.typeId)
    (hids : r'.memory.remoteIds = (r.memory.remoteIds.erase s.name).insert (deletable s.name)
      ((r.memory.remoteIds.get? s.name).getD .null))
    (hunchanged : S.Unchanged r.world r'.world) : c.Accounted S r' := by
  -- Each identifier was tracked before, under its name or under the name it is moved from.
  have hslot : ∀ {n typeId id}, c.Bears n typeId → r'.memory.remoteIds.get? n = some id →
      id ≠ .null → ∃ n', c.Bears n' typeId ∧ r.memory.remoteIds.get? n' = some id ∧
        ((n = deletable s.name ∧ n' = s.name) ∨ (n ≠ s.name ∧ n' = n)) := by
    intro n typeId id hn hget hid
    rw [hids, Table.get?_insert] at hget
    split at hget
    · next heq =>
      subst heq
      refine ⟨s.name, bears_unique hapart htracks hn haside ▸ hbears, ?_, .inl ⟨rfl, rfl⟩⟩
      cases hmoved : r.memory.remoteIds.get? s.name with
      | none =>
        rw [hmoved] at hget
        exact absurd (Option.some.inj hget).symm hid
      | some id' =>
        rw [hmoved] at hget
        exact hget
    · obtain ⟨hne, hget⟩ := get?_of_erase hget
      exact ⟨n, hn, hget, .inr ⟨hne, rfl⟩⟩
  constructor
  · intro n n' typeId id hn hn' hget hget' hid
    obtain ⟨m, hm, hold, hfrom⟩ := hslot hn hget hid
    obtain ⟨m', hm', hold', hfrom'⟩ := hslot hn' hget' hid
    have heq := h.distinct hm hm' hold hold' hid
    rcases hfrom with ⟨rfl, rfl⟩ | ⟨hne, rfl⟩ <;> rcases hfrom' with ⟨rfl, rfl⟩ | ⟨hne', rfl⟩
    · rfl
    · exact absurd heq.symm hne'
    · exact absurd heq hne
    · exact heq
  · intro n typeId id hn hget hid
    obtain ⟨n', hn', hold, -⟩ := hslot hn hget hid
    exact hunchanged.given _ _ (h.given hn' hold hid)

/-- **A step keeps identifiers apart.** -/
theorem Accounted.step (hd : c.Distinct) (hapart : plan.Apart) (htracks : S.Tracks plan w)
    (herror : r.memory.error = none) (h : c.Accounted S r)
    (halters : c.Alters types S r r' place) : c.Accounted S r' := by
  cases halters with
  | quiet hids hunchanged =>
    exact h.of_subset (fun n id hget => by rwa [hids] at hget) hunchanged.given
  | forgotten _ _ hids hunchanged =>
    exact h.of_subset (fun n id hget => (get?_of_erase (hids ▸ hget)).2) hunchanged.given
  | dropped _ _ hids hunchanged =>
    exact h.of_subset (fun n id hget => (get?_of_erase (hids ▸ hget)).2) hunchanged.given
  | changed _ _ hids hchanges =>
    exact h.of_subset (fun n id hget => by rwa [hids] at hget) hchanges.given
  | created hfacing hop hids hfresh hgiven hchanges =>
    obtain ⟨-, -, hbears, -⟩ := bears_of_facing hd hfacing herror
    exact h.created hapart htracks hbears hids hfresh hgiven hchanges
  | @putAside ra s hfacing hop hids hunchanged =>
    obtain ⟨-, -, hbears, -⟩ := bears_of_facing hd hfacing herror
    obtain ⟨k, routine, before, rest, K, rfl, hfaces⟩ := hfacing
    obtain ⟨howner, hupdate, -⟩ := putAside_of_faces hd hfaces herror hop
    have haside : c.Bears (deletable s.name) s.typeId :=
      ⟨ra, hfaces.inRoutine.planned, hfaces.serves.typeId.symm, .inr ⟨hupdate, by rw [howner]⟩⟩
    exact h.putAside hapart htracks hbears haside hids hunchanged

/-- **In every run, identifiers are of one object.** -/
theorem Reaches.accounted (hd : c.Distinct)
    (htypes : ∀ t ∈ plan.declaration.catalog.keys, t ∈ types.keys) (hserves : S.Serves types)
    (hapart : plan.Apart) (htracks : S.Tracks plan w) {n : Nat} (h : c.Reaches types w n place)
    (hn : 0 < n) : c.Accounted S (c.after types w n) := by
  induction h, hn using Reaches.begun_induction with
  | loaded hadvances =>
    obtain ⟨hids, -, -, -, hworld⟩ := hadvances.loaded
    have hslot : ∀ {name id}, (c.after types w 1).memory.remoteIds.get? name = some id →
        ∃ tracked, plan.prior.get? name = some tracked ∧ tracked.remoteId = id := by
      intro name id hget
      rw [hids, Table.get?_mapValues] at hget
      exact Option.map_eq_some_iff.1 hget
    constructor
    · intro n n' typeId id hn hn' hget hget' hid
      obtain ⟨tracked, htracked, rfl⟩ := hslot hget
      obtain ⟨tracked', htracked', heq⟩ := hslot hget'
      refine htracks.distinct n n' tracked tracked' htracked htracked' ?_ heq.symm hid
      rw [typeId_of_bears htracks hn htracked, typeId_of_bears htracks hn' htracked']
    · intro n typeId id hn hget hid
      obtain ⟨tracked, htracked, rfl⟩ := hslot hget
      have hgiven := htracks.given n tracked htracked hid
      rw [typeId_of_bears htracks hn htracked] at hgiven
      rw [hworld]
      exact hgiven
  | step hreaches hpos hadvances ih =>
    exact ih.step hd hapart htracks hadvances.running
      (hadvances.alters htypes hserves (hreaches.ne_start hpos))

/-! ### What leaves a resource alone -/

/-- A step touches the identifier or the object of a resource, in a routine of the resource. -/
inductive Touched (c : Compilation plan) (types : Registry W) (m : Memory) (place : Place)
    (ra : Resource × Action) : Prop
  | forgotten : Forgetting plan place ra → Touched c types m place ra
  | did {s : Staged W} : c.Facing types m place ra s → s.name = ra.1.name →
    s.op.touches = true → Touched c types m place ra

/-- **Every step that does not touch a declared resource leaves its identifier and its object
as they were.** -/
theorem kept_or_touched (hd : c.Distinct) (hapart : plan.Apart) {ra : Resource × Action}
    (hra : ra ∈ c.actions) (haction : ra.2 ≠ .delete) (herror : r.memory.error = none)
    (haccounted : c.Accounted S r) (halters : c.Alters types S r r' place) :
    ra.1.Kept S r r' ∨ c.Touched types r.memory place ra := by
  have hkept : r'.memory.remoteIds.get? ra.1.name = r.memory.remoteIds.get? ra.1.name →
      S.held r'.world ra.1.typeId (r.memory.remoteId ra.1.name) =
        S.held r.world ra.1.typeId (r.memory.remoteId ra.1.name) → ra.1.Kept S r r' := by
    intro hslot hheld
    refine ⟨hslot, ?_⟩
    unfold Resource.object
    rw [Memory.remoteId_congr hslot, hheld]
  -- What is staged under the name of the resource is staged in one of its routines.
  have hown : ∀ {rb : Resource × Action} {s : Staged W}, c.Facing types r.memory place rb s →
      s.name = ra.1.name → rb = ra := by
    intro rb s hfacing hname
    obtain ⟨hrb, -, -, howner | ⟨hupdate, haside⟩⟩ := bears_of_facing hd hfacing herror
    · exact eq_of_name_eq hrb hra (howner.symm.trans hname)
    · exact absurd (hname.symm.trans haside) (name_ne_aside hapart hra haction hrb hupdate)
  cases halters with
  | quiet hids hunchanged => exact .inl (hkept (by rw [hids]) (hunchanged.held _ _))
  | @forgotten rb hrb hforgetting hids hunchanged =>
    by_cases hname : rb.1.name = ra.1.name
    · obtain rfl := eq_of_name_eq hrb hra hname
      exact .inr (.forgotten hforgetting)
    · exact .inl (hkept (by rw [hids, Table.get?_erase, if_neg hname]) (hunchanged.held _ _))
  | @created rb s v object hfacing hop hids hfresh _ hchanges =>
    by_cases hname : s.name = ra.1.name
    · obtain rfl := hown hfacing hname
      exact .inr (.did hfacing hname (by rw [hop]; rfl))
    · refine .inl (hkept (by rw [hids, Table.get?_insert, if_neg hname])
        (hchanges.held_of_ne ?_))
      rintro id hid ⟨htype, hv⟩
      obtain ⟨hget, hnull⟩ := Memory.get?_of_remoteId hid
      obtain rfl := Option.some.inj hv
      exact hfresh (htype ▸ haccounted.given (bears_of_mem hra) hget hnull)
  | @changed rb s object hfacing hop hids hchanges =>
    by_cases hname : s.name = ra.1.name
    · obtain rfl := hown hfacing hname
      exact .inr (.did hfacing hname (by rcases hop with hop | hop <;> rw [hop] <;> rfl))
    · refine .inl (hkept (by rw [hids]) (hchanges.held_of_ne ?_))
      rintro id hid ⟨htype, hstaged⟩
      obtain ⟨hget, hnull⟩ := Memory.get?_of_remoteId hid
      obtain ⟨hget', -⟩ := Memory.get?_of_remoteId hstaged
      obtain ⟨-, -, hbears, -⟩ := bears_of_facing hd hfacing herror
      exact hname (haccounted.distinct hbears (htype ▸ bears_of_mem hra) hget' hget hnull)
  | @dropped rb s hfacing hop hids hunchanged =>
    by_cases hname : s.name = ra.1.name
    · obtain rfl := hown hfacing hname
      exact .inr (.did hfacing hname (by rw [hop]; rfl))
    · exact .inl (hkept (by rw [hids, Table.get?_erase, if_neg hname]) (hunchanged.held _ _))
  | @putAside rb s hfacing hop hids hunchanged =>
    by_cases hname : s.name = ra.1.name
    · obtain rfl := hown hfacing hname
      exact .inr (.did hfacing hname (by rw [hop]; rfl))
    · have haside : deletable s.name ≠ ra.1.name := by
        obtain ⟨k, routine, before, rest, K, rfl, hfaces⟩ := hfacing
        obtain ⟨howner, hupdate, -⟩ := putAside_of_faces hd hfaces herror hop
        rw [howner]
        exact (name_ne_aside hapart hra haction hfaces.inRoutine.planned hupdate).symm
      exact .inl (hkept (by rw [hids, Table.get?_insert, if_neg haside, Table.get?_erase,
        if_neg hname]) (hunchanged.held _ _))

end Compilation

end Provisioning
