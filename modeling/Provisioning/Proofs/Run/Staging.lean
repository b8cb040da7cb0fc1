/-
What is staged for an operation.

Scratch values are bound by the instructions right before the operation that uses them, and
while nothing waits a run goes through these one step after the other.  So going back from the
operation tells what is staged: the properties of a creation or an update are the declared
fields as they are read at that time, and what is compared is the object as it was read just
before.
-/
import Provisioning.Proofs.Run.Objects

namespace Provisioning

theorem Memory.outputValue_congr {m m' : Memory} (h : m.SameTables m') :
    m'.outputValue = m.outputValue := by
  funext o
  unfold outputValue
  rw [h.remoteIds, h.outputs]

theorem Memory.SameTables.symm {m m' : Memory} (h : m.SameTables m') : m'.SameTables m :=
  ⟨h.remoteIds.symm, h.outputs.symm, h.decisions.symm, h.deleted.symm⟩

theorem Memory.SameTables.trans {m m₁ m' : Memory} (h : m.SameTables m₁) (h' : m₁.SameTables m') :
    m.SameTables m' :=
  ⟨h'.remoteIds.trans h.remoteIds, h'.outputs.trans h.outputs, h'.decisions.trans h.decisions,
    h'.deleted.trans h.deleted⟩

namespace Compilation

variable {plan : Plan} {W : Type} {c : Compilation plan} {types : Registry W} {w : W} {n k : Nat}
  {ra : Resource × Action} {routine : Routine} {before rest : List Instruction} {K' : Known}

/-! ### Going back -/

/-- Unless the next instruction waits, the one before it was executed in the last step. -/
theorem Reaches.just {i : Instruction}
    (h : c.Reaches types w n (.routine k ra routine (before ++ [i]) rest K'))
    (hrest : ∀ op later, rest = .resource op :: later → op.waits = false) :
    ∃ t K, n = t + 1 ∧ c.Reaches types w t (.routine k ra routine before (i :: rest) K) ∧
      c.Advances types (c.after types w t) (c.after types w (t + 1))
        (.routine k ra routine before (i :: rest) K)
        (.routine k ra routine (before ++ [i]) rest K') := by
  generalize hplace : Place.routine k ra routine (before ++ [i]) rest K' = place at h
  cases h with
  | start => cases hplace
  | @step n p _ hreaches hadvances =>
    subst hplace
    have hexecutes := hadvances.executes
    generalize hplace : Place.routine k ra routine (before ++ [i]) rest K' = place' at hexecutes
    generalize c.after types w (n + 1) = r' at hexecutes
    cases hexecutes with
    | init | halt | ret => cases hplace
    | call | jump => simp at hplace
    | next =>
      simp only [Place.routine.injEq] at hplace
      obtain ⟨rfl, rfl, rfl, heq, rfl, rfl⟩ := hplace
      obtain ⟨rfl, hlast⟩ := List.append_inj' heq rfl
      obtain rfl := List.singleton_inj.1 hlast
      exact ⟨n, _, rfl, hreaches, hadvances⟩
    | wait _ _ hwaits =>
      simp only [Place.routine.injEq] at hplace
      rw [hrest _ _ hplace.2.2.2.2.1] at hwaits
      cases hwaits

/-- What stands before a place that a key and a value were bound in. -/
structure Bound (c : Compilation plan) (types : Registry W) (w : W) (t n : Nat)
    (keys : List String) : Prop where
  world : (c.after types w n).world = (c.after types w t).world
  tables : (c.after types w t).memory.SameTables (c.after types w n).memory
  /-- Only these scratch values are bound. -/
  temp : ∀ key ∉ keys, (c.after types w n).memory.temp.get? key =
    (c.after types w t).memory.temp.get? key

theorem Bound.trans {t t' : Nat} {keys keys' : List String} (h : c.Bound types w t t' keys)
    (h' : c.Bound types w t' n keys') : c.Bound types w t n (keys ++ keys') where
  world := h'.world.trans h.world
  tables := h.tables.trans h'.tables
  temp key hkey := by
    rw [List.mem_append, not_or] at hkey
    rw [h'.temp key hkey.2, h.temp key hkey.1]

theorem bound_of_key {key : String} {K : Known}
    (hadvances : c.Advances types (c.after types w n) (c.after types w (n + 1))
      (.routine k ra routine before (.key key :: rest) K)
      (.routine k ra routine (before ++ [.key key]) rest K')) :
    c.Bound types w n (n + 1) [Memory.stagedKey] ∧
      (c.after types w (n + 1)).memory.temp.get? Memory.stagedKey = some (.str key) := by
  obtain ⟨-, m, hexecute, hmemory⟩ := hadvances.executes.executed
  have hkey : execute c.program types (.key key) (c.after types w n).memory
      (c.after types w n).world = .next ((c.after types w n).memory.setTemp Memory.stagedKey
        (.str key)) (c.after types w n).world := rfl
  rw [hkey] at hexecute
  obtain ⟨-, rfl, hworld⟩ := Outcome.mk.inj hexecute
  have htemp : ∀ key', (c.after types w (n + 1)).memory.temp.get? key' =
      if Memory.stagedKey = key' then some (.str key)
        else (c.after types w n).memory.temp.get? key' := by
    intro key'
    rw [hmemory]
    exact Entries.get?_set _ _ _ _
  refine ⟨⟨hworld.symm, by rw [hmemory]; exact ⟨rfl, rfl, rfl, rfl⟩, fun key' hkey' => ?_⟩,
    (htemp _).trans (if_pos rfl)⟩
  rw [htemp, if_neg fun heq => hkey' (List.mem_singleton.2 heq.symm)]

/-- The value that is bound is the one in the program, or is read as the outputs are. -/
theorem exists_bindStaged {i : Instruction} {m m' : Memory} {w' : W}
    (hi : (∃ v, i = .value v) ∨ ∃ a, i = .valueRom a)
    (hexecute : execute c.program types i m w = .next m' w') :
    ∃ v, execute c.program types i m w = bindStaged v m w ∧ (i = .value v ∨ ∃ a, i = .valueRom a ∧
      c.program.tables.rom.resolve m.outputValue a = .ok v) := by
  rcases hi with ⟨v, rfl⟩ | ⟨a, rfl⟩
  · exact ⟨v, rfl, .inl rfl⟩
  · have hperform : execute c.program types (.valueRom a) m w =
        perform c.program types (.valueRom a) m w :=
      execute_eq_perform (by simp [Instruction.requiredKeys])
    rw [hperform, perform] at hexecute ⊢
    cases hresolve : c.program.tables.rom.resolve m.outputValue a with
    | error f =>
      rw [hresolve] at hexecute
      cases hexecute
    | ok v => exact ⟨v, rfl, .inr ⟨a, rfl, hresolve⟩⟩

/-- Where a value is bound to a key, the key is no longer staged, and nothing else changes. -/
theorem bound_of_value {key : String} {i : Instruction} {K : Known}
    (hi : (∃ v, i = .value v) ∨ ∃ a, i = .valueRom a)
    (hstaged : (c.after types w n).memory.temp.get? Memory.stagedKey = some (.str key))
    (hreaches : c.Reaches types w n (.routine k ra routine before (i :: rest) K))
    (hadvances : c.Advances types (c.after types w n) (c.after types w (n + 1))
      (.routine k ra routine before (i :: rest) K)
      (.routine k ra routine (before ++ [i]) rest K')) :
    ∃ v, c.Bound types w n (n + 1) [Memory.stagedKey, key] ∧
      (c.after types w (n + 1)).memory.temp.get? key = some v ∧
      (i = .value v ∨ ∃ a, i = .valueRom a ∧
        c.program.tables.rom.resolve (c.after types w n).memory.outputValue a = .ok v) := by
  obtain ⟨-, m, hexecute, hmemory⟩ := hadvances.executes.executed
  obtain ⟨v, hbind, hv⟩ := exists_bindStaged hi hexecute
  rw [hbind, bindStaged_eq hstaged] at hexecute
  obtain ⟨-, rfl, hworld⟩ := Outcome.mk.inj hexecute
  have hroutine : c.InRoutine k ra routine _ _ K (c.after types w n).memory := hreaches.stands.1
  have htemp : ∀ key', (c.after types w (n + 1)).memory.temp.get? key' =
      if key = key' then some v else if Memory.stagedKey = key' then none
        else (c.after types w n).memory.temp.get? key' := by
    intro key'
    rw [hmemory]
    exact (Entries.get?_set _ _ _ _).trans (by rw [Entries.get?_swapErase hroutine.fits.distinct])
  refine ⟨v, ⟨hworld.symm, by rw [hmemory]; exact ⟨rfl, rfl, rfl, rfl⟩, fun key' hkey' => ?_⟩,
    (htemp _).trans (if_pos rfl), hv⟩
  simp only [List.mem_cons, List.not_mem_nil, or_false, not_or] at hkey'
  rw [htemp, if_neg (Ne.symm hkey'.2), if_neg (Ne.symm hkey'.1)]

theorem Reaches.staged {key : String} {i : Instruction}
    (h : c.Reaches types w n (.routine k ra routine (before ++ [.key key] ++ [i]) rest K'))
    (hrest : ∀ op later, rest = .resource op :: later → op.waits = false)
    (hi : (∃ v, i = .value v) ∨ ∃ a, i = .valueRom a) :
    ∃ t K v, n = t + 2 ∧
      c.Reaches types w t (.routine k ra routine before (.key key :: i :: rest) K) ∧
      c.Bound types w t n [Memory.stagedKey, key] ∧
      (c.after types w n).memory.temp.get? key = some v ∧
      (i = .value v ∨ ∃ a, i = .valueRom a ∧
        c.program.tables.rom.resolve (c.after types w n).memory.outputValue a = .ok v) := by
  have hquiet : i.isResourceOp = false := by
    rcases hi with ⟨v, rfl⟩ | ⟨a, rfl⟩ <;> rfl
  obtain ⟨t₁, K₁, rfl, hreached₁, hadvanced₁⟩ := h.just hrest
  obtain ⟨t, K, rfl, hreached, hadvanced⟩ := hreached₁.just (by
    rintro op later heq
    obtain ⟨rfl, -⟩ := List.cons.inj heq
    cases hquiet)
  obtain ⟨hkey, hstaged⟩ := bound_of_key hadvanced
  obtain ⟨v, hbound, hget, hv⟩ := bound_of_value hi hstaged hreached₁ hadvanced₁
  refine ⟨t, K, v, rfl, hreached, ?_, hget, ?_⟩
  · have hboth := hkey.trans hbound
    exact ⟨hboth.world, hboth.tables, fun key' hkey' => hboth.temp key' (by simpa using hkey')⟩
  · rwa [Memory.outputValue_congr hbound.tables]

theorem Reaches.loaded {name typeId : String}
    (h : c.Reaches types w n (.routine k ra routine (before ++ Emit.load name typeId) rest K'))
    (hrest : ∀ op later, rest = .resource op :: later → op.waits = false) :
    ∃ t K, n = t + 4 ∧
      c.Reaches types w t (.routine k ra routine before (Emit.load name typeId ++ rest) K) ∧
      c.Bound types w t n [Memory.stagedKey, "resource_name", Memory.stagedKey, "resource_desc"] := by
  have hsplit : before ++ Emit.load name typeId =
      (before ++ [.key "resource_name"] ++ [.value (.str name)]) ++ [.key "resource_desc"] ++
        [.value (.str typeId)] := by
    simp [Emit.load]
  rw [hsplit] at h
  obtain ⟨t₁, K₁, v₁, rfl, hreached₁, hbound₁, -⟩ := h.staged hrest (.inl ⟨_, rfl⟩)
  obtain ⟨t, K, v, rfl, hreached, hbound, -⟩ := hreached₁.staged (by simp) (.inl ⟨_, rfl⟩)
  exact ⟨t, K, rfl, hreached, hbound.trans hbound₁⟩

/-! ### Where operations stand -/

/-- A routine that creates or updates does so last, and only once. -/
theorem script_of_mem_body {r : Resource} {createMissing : Bool} {op : ResourceOp}
    (hop : op = .create ∨ op = .update)
    (h : .resource op ∈ (r.piece createMissing routine).body) :
    ∃ earlier, r.script createMissing routine = earlier ++ Emit.withProperties r op ∧
      .resource op ∉ earlier := by
  rcases hop with rfl | rfl
  · have hcreates := Resource.creates_of_mem_body h
    cases routine with
    | create => exact ⟨[], rfl, List.not_mem_nil⟩
    | recreate =>
      refine ⟨Emit.vacate r, rfl, ?_⟩
      unfold Emit.vacate
      split <;> simp [Emit.onResource, Emit.load]
    | missingCreate =>
      exact ⟨Emit.replaceMissing r, rfl, by simp [Emit.replaceMissing, Emit.write]⟩
    | _ => cases hcreates
  · obtain rfl := Resource.modify_of_update h
    exact ⟨[], rfl, List.not_mem_nil⟩

theorem before_of_properties {r : Resource} {createMissing : Bool} {op : ResourceOp}
    (hop : op = .create ∨ op = .update)
    (h : (r.piece createMissing routine).body = before ++ .resource op :: rest) :
    ∃ before', before = before' ++ [.key "properties"] ++ [.valueRom r.name] := by
  have hmem : .resource op ∈ (r.piece createMissing routine).body := by
    rw [h]
    simp
  obtain ⟨earlier, hscript, hnot⟩ := script_of_mem_body hop hmem
  have hbody : (r.piece createMissing routine).body =
      ((.clear :: earlier ++ Emit.load r.name r.typeId) ++ [.key "properties"] ++
        [.valueRom r.name]) ++ .resource op :: [.ret] := by
    simp [Resource.piece, Subroutine.body, hscript, Emit.withProperties]
  rw [hbody] at h
  exact ⟨_, ((List.append_cons_inj_of_notMem (by simp [hnot, Emit.load]) (by simp)).1 h).1.symm⟩

theorem before_of_rescmp {r : Resource} {createMissing : Bool}
    (h : (r.piece createMissing routine).body = before ++ .resource .rescmp :: rest) :
    ∃ before', before = before' ++ [.resource .read] ++ Emit.load r.name r.typeId := by
  obtain rfl : routine = .update :=
    Resource.update_of_looks (.inr (.inr rfl)) (by rw [h]; simp)
  have hbody : (r.piece createMissing .update).body =
      ((.clear :: (if createMissing then Emit.probe r else []) ++ Emit.load r.name r.typeId) ++
        [.resource .read] ++ Emit.load r.name r.typeId) ++ .resource .rescmp ::
          (Emit.branch r .recreate .recreate ++ Emit.branch r .modify .modify ++ [.ret]) := by
    simp [Resource.piece, Subroutine.body, Resource.script, Emit.reconcile, Emit.onResource]
  rw [hbody] at h
  refine ⟨_, ((List.append_cons_inj_of_notMem ?_ ?_).1 h).1.symm⟩
  · cases createMissing <;> simp [Emit.probe, Emit.onResource, Emit.load]
  · simp [Emit.branch]

/-! ### What is staged -/

/-- What is staged for a creation or an update are the declared fields as they are read. -/
theorem Reaches.staged_properties {op : ResourceOp} (hop : op = .create ∨ op = .update)
    (h : c.Reaches types w n (.routine k ra routine before (.resource op :: rest) K')) :
    ∃ before' t K v, before = before' ++ [.key "properties"] ++ [.valueRom ra.1.name] ∧
      n = t + 2 ∧ c.Reaches types w t (.routine k ra routine before'
        (.key "properties" :: .valueRom ra.1.name :: .resource op :: rest) K) ∧
      c.Bound types w t n [Memory.stagedKey, "properties"] ∧
      (c.after types w n).memory.temp.get? "properties" = some v ∧
      c.program.tables.rom.resolve (c.after types w n).memory.outputValue ra.1.name = .ok v := by
  have hroutine : c.InRoutine k ra routine before (.resource op :: rest) K' _ := h.stands.1
  obtain ⟨before', rfl⟩ := before_of_properties hop hroutine.body
  have hrest : ∀ op' later, Instruction.resource op :: rest = .resource op' :: later →
      op'.waits = false := by
    rintro op' later heq
    obtain ⟨hhead, -⟩ := List.cons.inj heq
    obtain rfl := Instruction.resource.inj hhead
    rcases hop with rfl | rfl <;> rfl
  obtain ⟨t, K, v, rfl, hreached, hbound, hget, hv⟩ := h.staged hrest (.inr ⟨_, rfl⟩)
  obtain ⟨a, ha, hresolve⟩ := hv.resolve_left nofun
  obtain rfl := Instruction.valueRom.inj ha
  exact ⟨before', t, K, v, rfl, rfl, hreached, hbound, hget, hresolve⟩

/-- **What is sent are the declared fields, as they are read when they are sent.** -/
theorem Reaches.properties {op : ResourceOp} (hop : op = .create ∨ op = .update)
    (h : c.Reaches types w n (.routine k ra routine before (.resource op :: rest) K'))
    {properties : Properties}
    (hproperties : (c.after types w n).memory.requireObject op.name "properties" =
      .ok properties) :
    c.program.tables.rom.resolve (c.after types w n).memory.outputValue ra.1.name =
      .ok (.obj properties) := by
  obtain ⟨-, -, -, v, -, -, -, -, hget, hresolve⟩ := h.staged_properties hop
  rw [hresolve]
  unfold Memory.requireObject Memory.require at hproperties
  rw [hget] at hproperties
  cases v with
  | obj fields => exact congrArg (fun fs => Except.ok (Json.obj fs)) (Except.ok.inj hproperties)
  | _ => cases hproperties

theorem schema_of_faces (hcovers : types.Covers plan.declaration.catalog) {s : Staged W}
    {m : Memory} (h : c.Faces types k ra routine before rest K' s m) :
    s.kind.schema = ra.1.schema := by
  obtain ⟨kind, hkind, hschema⟩ := hcovers _ _ (c.planned h.inRoutine.planned).typed
  rw [h.serves.kind] at hkind
  obtain rfl := Option.some.inj hkind
  exact hschema

/-- **What is compared with the declared fields is the object that is tracked.** -/
theorem Reaches.current {S : Store W} (hd : c.Distinct)
    (hcovers : types.Covers plan.declaration.catalog) (hserves : S.Serves types)
    (h : c.Reaches types w n (.routine k ra routine before (.resource .rescmp :: rest) K')) :
    ∃ object, ra.1.object S (c.after types w n) = some object ∧
      (c.after types w n).memory.temp.get? "current" =
        some (.obj (ra.1.schema.current object)) := by
  have htypes := keys_of_covers hcovers
  have hroutine : c.InRoutine k ra routine before (.resource .rescmp :: rest) K' _ := h.stands.1
  obtain ⟨hphase, -, -⟩ := start_of_reads hroutine rfl
  obtain ⟨before', rfl⟩ := before_of_rescmp hroutine.body
  obtain ⟨t₁, K₁, rfl, hreached₁, hbound⟩ := h.loaded (by
    rintro op later heq
    obtain ⟨hhead, -⟩ := List.cons.inj heq
    obtain rfl := Instruction.resource.inj hhead
    rfl)
  obtain ⟨t, K, rfl, hreached, hadvances⟩ := hreached₁.just nofun
  obtain ⟨s, m, hop, hfaces, -, hperformed, hmemory⟩ := hadvances.performed hd htypes
  have hkeeps := keeps_of_faces hserves hfaces
  have hname : s.name = ra.1.name := by
    obtain ⟨d, -, hwork⟩ := mem_work_of_faces hfaces (hadvances.not_ended hd)
    exact Resource.name_of_mem_work hwork (by rw [hphase]; decide)
  obtain ⟨object, hheld, hcurrent, hids⟩ := Staged.read_back hkeeps hperformed hop
  have hunchanged := Staged.unchanged hkeeps hperformed (by rw [hop]; rfl)
  refine ⟨object, ?_, ?_⟩
  · have hslot : (c.after types w (t + 1 + 4)).memory.remoteIds =
        (c.after types w t).memory.remoteIds := by
      rw [hbound.tables.remoteIds, hmemory]
      exact hids
    unfold Resource.object
    rw [hbound.world, hunchanged.held, Memory.remoteId_congr (congrArg (·.get? ra.1.name) hslot),
      ← hfaces.serves.typeId, ← hname, hheld]
  · rw [hbound.temp "current" (by decide), hmemory, ← schema_of_faces hcovers hfaces]
    exact hcurrent

end Compilation

end Provisioning
