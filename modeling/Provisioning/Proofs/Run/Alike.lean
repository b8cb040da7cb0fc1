/-
What a routine cannot tell apart.

A routine of a resource looks at few things.  Of scratch it only uses what it is known to have
bound, of the tables the identifiers and the decision of its own resource, and where it reads
declared fields, what they are read as.  Where two memories agree in these, its instructions
say the same: `Typed.talk_eq`.  And where the same is answered, the same is written, so the
memories go on agreeing.

For a run of a compiled program this turns into a statement about its steps: the talk of the
instruction that comes next says to which place the step leads, what it writes, and what is
said.  Two runs, of two programs even, are compared by comparing their talks.
-/
import Provisioning.Proofs.Run.Footing
import Provisioning.Proofs.Run.Objects
import Provisioning.Proofs.Run.Talk

namespace Provisioning

/-! ### Memories that agree -/

/-- What is in the scratch of one memory is in that of the other. -/
def Memory.Within (m m' : Memory) : Prop :=
  ∀ key v, m.temp.get? key = some v → m'.temp.get? key = some v

/-- The tables of two memories have the same under some names. -/
structure Memory.Agree (on : String → Prop) (m m' : Memory) : Prop where
  remoteIds : ∀ n, on n → m'.remoteIds.get? n = m.remoteIds.get? n
  outputs : ∀ n, on n → m'.outputs.get? n = m.outputs.get? n
  decisions : ∀ n, on n → m'.decisions.get? n = m.decisions.get? n
  deleted : ∀ n, on n → m'.deleted.count n = m.deleted.count n

/-- A routine of the resource cannot tell the memories apart. -/
structure Resource.Alike (r : Resource) (m m' : Memory) : Prop where
  within : m.Within m'
  own : m'.remoteIds.get? r.name = m.remoteIds.get? r.name
  aside : m'.remoteIds.get? (deletable r.name) = m.remoteIds.get? (deletable r.name)
  decision : m'.decisions.get? r.name = m.decisions.get? r.name

namespace Memory

variable {m m' m'' : Memory} {on : String → Prop}

theorem Agree.refl (on : String → Prop) (m : Memory) : m.Agree on m :=
  ⟨fun _ _ => rfl, fun _ _ => rfl, fun _ _ => rfl, fun _ _ => rfl⟩

theorem Agree.symm (h : m.Agree on m') : m'.Agree on m where
  remoteIds n hn := (h.remoteIds n hn).symm
  outputs n hn := (h.outputs n hn).symm
  decisions n hn := (h.decisions n hn).symm
  deleted n hn := (h.deleted n hn).symm

theorem Agree.trans (h : m.Agree on m') (h' : m'.Agree on m'') : m.Agree on m'' where
  remoteIds n hn := (h'.remoteIds n hn).trans (h.remoteIds n hn)
  outputs n hn := (h'.outputs n hn).trans (h.outputs n hn)
  decisions n hn := (h'.decisions n hn).trans (h.decisions n hn)
  deleted n hn := (h'.deleted n hn).trans (h.deleted n hn)

theorem SameTables.agree (h : m.SameTables m') (on : String → Prop) : m.Agree on m' where
  remoteIds n _ := by rw [h.remoteIds]
  outputs n _ := by rw [h.outputs]
  decisions n _ := by rw [h.decisions]
  deleted n _ := by rw [h.deleted]

/-! ### What the same changes make of them -/

/-- No change makes a scratch value have two values. -/
theorem nodup_apply (h : m.temp.keys.Nodup) (wr : Write) : (m.apply wr).temp.keys.Nodup := by
  cases wr with
  | clear => exact List.nodup_nil
  | unstage => exact Entries.nodup_swapErase h stagedKey
  | bind key v => exact Entries.nodup_set h key v
  | _ => exact h

theorem Within.apply (h : m.Within m') (hm : m.temp.keys.Nodup) (hm' : m'.temp.keys.Nodup)
    (wr : Write) : (m.apply wr).Within (m'.apply wr) := by
  intro k v hv
  cases wr with
  | clear => exact hv
  | unstage =>
    have hget : (m.temp.swapErase stagedKey).get? k = some v := hv
    rw [Entries.get?_swapErase hm] at hget
    show (m'.temp.swapErase stagedKey).get? k = some v
    rw [Entries.get?_swapErase hm']
    split at hget
    · cases hget
    · next hne =>
      rw [if_neg hne]
      exact h k v hget
  | bind key x =>
    have hget : (m.temp.set key x).get? k = some v := hv
    rw [Entries.get?_set] at hget
    show (m'.temp.set key x).get? k = some v
    rw [Entries.get?_set]
    split at hget
    · next heq =>
      rw [if_pos heq]
      exact hget
    · next hne =>
      rw [if_neg hne]
      exact h k v hget
  | _ => exact h k v hv

theorem Within.applyAll (h : m.Within m') (hm : m.temp.keys.Nodup) (hm' : m'.temp.keys.Nodup)
    (ws : List Write) : (m.applyAll ws).Within (m'.applyAll ws) := by
  induction ws generalizing m m' with
  | nil => exact h
  | cons wr ws ih => exact ih (h.apply hm hm' wr) (nodup_apply hm wr) (nodup_apply hm' wr)

theorem SameTables.applyAll (h : m.SameTables m') (ws : List Write) :
    (m.applyAll ws).SameTables (m'.applyAll ws) := by
  induction ws generalizing m m' with
  | nil => exact h
  | cons wr ws ih =>
    refine ih ?_
    obtain ⟨hids, houtputs, hdecisions, hdeleted⟩ := h
    cases wr <;> constructor <;>
      simp only [Memory.apply, setTemp, hids, houtputs, hdecisions, hdeleted]

theorem Agree.apply (h : m.Agree on m') (wr : Write) : (m.apply wr).Agree on (m'.apply wr) := by
  cases wr with
  | clear | unstage | bind => exact ⟨h.remoteIds, h.outputs, h.decisions, h.deleted⟩
  | track name id =>
    refine ⟨?_, h.outputs, h.decisions, h.deleted⟩
    intro n hn
    show (m'.remoteIds.insert name id).get? n = (m.remoteIds.insert name id).get? n
    rw [Table.get?_insert, Table.get?_insert, h.remoteIds n hn]
  | untrack name =>
    refine ⟨?_, h.outputs, h.decisions, h.deleted⟩
    intro n hn
    show (m'.remoteIds.erase name).get? n = (m.remoteIds.erase name).get? n
    rw [Table.get?_erase, Table.get?_erase, h.remoteIds n hn]
  | store name fields =>
    refine ⟨h.remoteIds, ?_, h.decisions, h.deleted⟩
    intro n hn
    show (m'.outputs.insert name fields).get? n = (m.outputs.insert name fields).get? n
    rw [Table.get?_insert, Table.get?_insert, h.outputs n hn]
  | discard name =>
    refine ⟨h.remoteIds, ?_, h.decisions, h.deleted⟩
    intro n hn
    show (m'.outputs.erase name).get? n = (m.outputs.erase name).get? n
    rw [Table.get?_erase, Table.get?_erase, h.outputs n hn]
  | decide name d =>
    refine ⟨h.remoteIds, h.outputs, ?_, h.deleted⟩
    intro n hn
    show (m'.decisions.insert name d).get? n = (m.decisions.insert name d).get? n
    rw [Table.get?_insert, Table.get?_insert, h.decisions n hn]
  | list name =>
    refine ⟨h.remoteIds, h.outputs, h.decisions, ?_⟩
    intro n hn
    show (m'.deleted ++ [name]).count n = (m.deleted ++ [name]).count n
    rw [List.count_append, List.count_append, h.deleted n hn]

theorem Agree.applyAll (h : m.Agree on m') (ws : List Write) :
    (m.applyAll ws).Agree on (m'.applyAll ws) := by
  induction ws generalizing m m' with
  | nil => exact h
  | cons wr ws ih => exact ih (h.apply wr)

end Memory

/-! ### The same is said -/

namespace Staged

variable {W : Type} {s : Staged W} {rom rom' : Rom} {m m' : Memory}

/-- An operation says the same where it finds the same. -/
theorem talk_congr
    (hobjects : ∀ key ∈ s.op.objects,
      m'.requireObject s.op.name key = m.requireObject s.op.name key)
    (hown : m'.remoteIds.get? s.name = m.remoteIds.get? s.name)
    (haside : s.op = .markDeletable →
      m'.remoteIds.get? (deletable s.name) = m.remoteIds.get? (deletable s.name))
    (hread : s.op = .rescmp →
      rom'.resolve m'.outputValue s.name = rom.resolve m.outputValue s.name) :
    s.talk rom' m' = s.talk rom m := by
  have hid : m'.remoteId s.name = m.remoteId s.name := Memory.remoteId_congr hown
  unfold talk
  cases hop : s.op with
  | create =>
    rw [hop] at hobjects
    have hproperties := hobjects "properties" (by simp [ResourceOp.objects])
    simp only [talkCreate, prepareCreate, hop, hproperties, hid]
  | read => simp only [talkRead, hid]
  | update =>
    rw [hop] at hobjects
    have hproperties := hobjects "properties" (by simp [ResourceOp.objects])
    simp only [talkUpdate, talkSend, hop, hproperties, hid]
  | delete => simp only [talkDelete, hid]
  | checkCreate | checkUpdate => simp only [talkCheck, talkOutputs, hid]
  | checkDelete => simp only [talkCheckDelete, hid]
  | checkExist => simp only [talkCheckExist, hid]
  | markDeletable =>
    simp only [talkMarkDeletable, hown, Memory.remoteId_congr (haside hop)]
  | filter =>
    rw [hop] at hobjects
    have hproperties := hobjects "properties" (by simp [ResourceOp.objects])
    have hcurrent := hobjects "current" (by simp [ResourceOp.objects])
    simp only [talkFilter, hop, hproperties, hcurrent]
  | rescmp =>
    rw [hop] at hobjects
    have hcurrent := hobjects "current" (by simp [ResourceOp.objects])
    simp only [talkRescmp, decide, hop, hcurrent, hread hop]

end Staged

namespace Memory

variable {m m' : Memory}

theorem Within.require (h : m.Within m') {instruction key : String} {v : Json}
    (hv : m.require instruction key = .ok v) :
    m'.require instruction key = m.require instruction key := by
  unfold Memory.require at hv ⊢
  cases hget : m.temp.get? key with
  | none =>
    rw [hget] at hv
    cases hv
  | some v' => rw [h key v' hget]

theorem Within.requireStr (h : m.Within m') {instruction key s : String}
    (hs : m.requireStr instruction key = .ok s) :
    m'.requireStr instruction key = m.requireStr instruction key := by
  obtain ⟨v, hv, -⟩ := bind_eq_ok.1 hs
  unfold Memory.requireStr
  rw [h.require hv]

theorem Within.requireObject (h : m.Within m') {instruction key : String} {fields : Properties}
    (hfields : m.requireObject instruction key = .ok fields) :
    m'.requireObject instruction key = m.requireObject instruction key := by
  obtain ⟨v, hv, -⟩ := bind_eq_ok.1 hfields
  unfold Memory.requireObject
  rw [h.require hv]

end Memory

theorem Instruction.talk_eq_say {W : Type} {rom : Rom} {types : Registry W} {i : Instruction}
    {m : Memory} (h : ∀ key ∈ i.requiredKeys, m.temp.contains key = true) :
    i.talk rom types m = i.say rom types m := by
  have hnone : (i.requiredKeys.find? fun k => !m.temp.contains k) = none := by
    rw [List.find?_eq_none]
    intro key hkey
    simp [h key hkey]
  rw [Instruction.talk, hnone]

namespace Resource

variable {W : Type} {types : Registry W} {r : Resource} {createMissing : Bool}
  {routine : Routine} {K K' : Known} {i : Instruction} {rest : List Instruction}
  {m m' : Memory} {rom rom' : Rom}

/-- Only what is known to be in scratch is looked for there. -/
theorem Typed.keys (ht : Typed r createMissing routine K i K') (hfit : K.Fits r.name m) :
    ∀ key ∈ i.requiredKeys, m.temp.contains key = true := by
  intro key hkey
  cases ht with
  | forget _ _ htable hname =>
    rcases List.mem_pair.1 hkey with rfl | rfl
    · exact hfit.contains htable
    · exact hfit.contains hname
  | settle d htable hname =>
    rcases List.mem_pair.1 hkey with rfl | rfl
    · exact hfit.contains htable
    · exact hfit.contains hname
  | operation op hname htype hobjects =>
    rcases requiredKeys_resource hkey with rfl | rfl | hmem
    · exact hfit.contains hname
    · exact hfit.contains htype
    · exact hfit.contains (hobjects key hmem)
  | _ => cases hkey

theorem Typed.staged_talk_eq {op : ResourceOp}
    (ht : Typed r createMissing routine K (.resource op) K')
    (hchecked : Checked r createMissing routine K' rest) (hfit : K.Fits r.name m)
    (h : r.Alike m m')
    (hread : op = .rescmp →
      rom'.resolve m'.outputValue r.name = rom.resolve m.outputValue r.name)
    {s : Staged W} (hs : Staged.ofMemory types op m = .ok s) :
    s.talk rom' m' = s.talk rom m := by
  obtain ⟨rfl, hstaged, -, -⟩ := Staged.ofMemory_eq_ok.1 hs
  cases ht with
  | operation _ hname htype hobjects howner hrescmp =>
    rw [hfit.requireStr hname] at hstaged
    obtain rfl := Except.ok.inj hstaged
    refine Staged.talk_congr ?_ ?_ ?_ ?_
    · intro key hkey
      obtain ⟨fields, hfields⟩ := hfit.requireObject (hobjects key hkey) s.op.name
      exact h.within.requireObject hfields
    · rcases howner with hown | haside
      · rw [hown]
        exact h.own
      · rw [haside]
        exact h.aside
    · -- Only the resource itself is put aside.
      intro hop
      have hdecided : K.decided ≠ [] := List.ne_nil_of_mem hfit.decided
      obtain ⟨hown, -⟩ := hchecked.own (.inr hop) hdecided
      rw [hown]
      exact h.aside
    · intro hop
      obtain ⟨hown, -⟩ := hrescmp hop
      rw [hown]
      exact hread hop

/-- **An instruction of a routine says the same where it finds the same.** -/
theorem Typed.talk_eq (ht : Typed r createMissing routine K i K')
    (hchecked : Checked r createMissing routine K' rest) (hfit : K.Fits r.name m)
    (h : r.Alike m m')
    (hread : i.reads = true →
      rom'.resolve m'.outputValue r.name = rom.resolve m.outputValue r.name) :
    i.talk rom' types m' = i.talk rom types m := by
  have hkeys := ht.keys hfit
  have hkeys' : ∀ key ∈ i.requiredKeys, m'.temp.contains key = true := by
    intro key hkey
    obtain ⟨v, hv⟩ := Option.isSome_iff_exists.1 (hkeys key hkey)
    exact Option.isSome_iff_exists.2 ⟨v, h.within key v hv⟩
  rw [Instruction.talk_eq_say hkeys, Instruction.talk_eq_say hkeys']
  have hsame : ∀ {key : String} {s : Shape}, K.scratch key = some s →
      m'.temp.get? key = m.temp.get? key := by
    intro key s hs
    obtain ⟨v, hv, -⟩ := hfit.scratch _ _ hs
    rw [h.within _ _ hv, hv]
  cases ht with
  | clear | key => rfl
  | text s hkey => simp only [Instruction.say, Talk.bindStaged, hsame hkey]
  | fields _ hkey =>
    have hresolve := hread rfl
    simp only [Instruction.say, Talk.bindStaged, hresolve, hsame hkey]
  | decision => simp only [Instruction.say, h.decision]
  | compare d hs => simp only [Instruction.say, hsame hs]
  | invert hs =>
    simp only [Instruction.say, Memory.result, Memory.require, hsame hs]
  | test hs =>
    simp only [Instruction.say, Memory.result, Memory.require, hsame hs]
  | branch hs =>
    simp only [Instruction.say, Memory.result, Memory.require, hsame hs]
  | forget _ _ htable hname =>
    have htable' := hfit.requireStr htable "memwrite"
    have hname' := hfit.requireStr hname "memwrite"
    simp only [Instruction.say, h.within.requireStr htable', h.within.requireStr hname']
  | settle d htable hname =>
    have htable' := hfit.requireStr htable "memwrite"
    have hname' := hfit.requireStr hname "memwrite"
    simp only [Instruction.say, h.within.requireStr htable', h.within.requireStr hname']
  | @operation name op hname htype hobjects howner hrescmp =>
    have hname' := hfit.requireStr hname op.name
    have htype' := hfit.requireStr htype op.name
    have hstaged : Staged.ofMemory types op m' = Staged.ofMemory types op m := by
      unfold Staged.ofMemory
      rw [h.within.requireStr hname', h.within.requireStr htype']
    simp only [Instruction.say, hstaged]
    cases hs : Staged.ofMemory types op m with
    | error f => rfl
    | ok s =>
      refine (Typed.operation op hname htype hobjects howner hrescmp).staged_talk_eq hchecked hfit
        h ?_ hs
      rintro rfl
      exact hread rfl

theorem Typed.stagedName_eq (ht : Typed r createMissing routine K i K') (hfit : K.Fits r.name m)
    (h : m.Within m') (hop : i.isResourceOp = true) : Run.stagedName m' = Run.stagedName m := by
  cases ht with
  | operation op hname =>
    have hget := hfit.text hname
    rw [Run.stagedName, Run.stagedName, h _ _ hget, hget]
  | _ => cases hop

/-- What is typed stays in its routine. -/
theorem Typed.inner (ht : Typed r createMissing routine K i K') : i.inner = true := by
  cases ht <;> rfl

end Resource

/-! ### Steps by what is said -/

/-- A step does what a talk has come to: its changes are made, and all that is said in the
step is said there. -/
structure Run.Heeds {W : Type} (p : Program) (types : Registry W) (i : Instruction) (r : Run W)
    (held : Talk.Held Upshot W) : Prop where
  tables : (r.memory.applyAll held.result.writes).SameTables (r.step p types).memory
  temp : (r.step p types).memory.temp = (r.memory.applyAll held.result.writes).temp
  log : (r.step p types).log = r.log ++ logged i r.memory
  world : (r.step p types).world = held.world
  said : exchanges p types r = held.said

theorem Run.heeds_of_talk {W : Type} {p : Program} {types : Registry W} {i : Instruction}
    {r : Run W} (hrunning : r.ended p = false)
    (hi : p.instructions[r.memory.programCounter]? = some i) (hinner : i.inner = true) :
    Run.Heeds p types i r ((i.talk p.tables.rom types r.memory).hold types r.world) := by
  obtain ⟨hstep, hsaid⟩ := step_of_talk types hrunning hi hinner
  generalize (i.talk p.tables.rom types r.memory).hold types r.world = held at hstep hsaid
  have hsame : ∀ {m : Memory} {pc : Nat} {error : Option Fault},
      m.SameTables { m with programCounter := pc, error := error } :=
    ⟨rfl, rfl, rfl, rfl⟩
  constructor
  · rw [hstep]
    unfold settle
    split <;> exact hsame
  · rw [hstep]
    unfold settle
    split <;> rfl
  · rw [hstep, log_settle]
  · rw [hstep]
    unfold settle
    split <;> rfl
  · exact hsaid

/-- Where talks come to the same, scratch that was within other scratch stays so. -/
theorem Run.Heeds.within {W : Type} {p q : Program} {types : Registry W} {i i' : Instruction}
    {r r' : Run W} {held held' : Talk.Held Upshot W} (h : Run.Heeds p types i r held)
    (h' : Run.Heeds q types i' r' held') (hresult : held'.result = held.result)
    (hr : r.memory.temp.keys.Nodup) (hr' : r'.memory.temp.keys.Nodup)
    (hwithin : r.memory.Within r'.memory) :
    (r.step p types).memory.Within (r'.step q types).memory := by
  have hkeep := hwithin.applyAll hr hr' held.result.writes
  intro key v hv
  rw [h.temp] at hv
  rw [h'.temp, hresult]
  exact hkeep key v hv

namespace Upshot

variable {u : Upshot} {p : Program}

/-- A branch goes somewhere, or its target is not there. -/
theorem flow_branch {target : Target} (h : u.turn = .ok (.branch target)) :
    u.flow p = (p.target target).map .jump := by
  rw [flow, h]

theorem next_of_flow (h : u.flow p = .ok .next) : u.turn = .ok .next := by
  rcases hturn : u.turn with f | _ | _ | target
  · simp [flow, hturn] at h
  · rfl
  · simp [flow, hturn] at h
  · rw [flow_branch hturn] at h
    obtain ⟨a, -, ha⟩ := map_eq_ok.1 h
    cases ha

theorem stay_of_flow (h : u.flow p = .ok .stay) : u.turn = .ok .stay := by
  rcases hturn : u.turn with f | _ | _ | target
  · simp [flow, hturn] at h
  · simp [flow, hturn] at h
  · rfl
  · rw [flow_branch hturn] at h
    obtain ⟨a, -, ha⟩ := map_eq_ok.1 h
    cases ha

theorem branch_of_flow {a : Nat} (h : u.flow p = .ok (.jump a)) :
    ∃ target, u.turn = .ok (.branch target) := by
  rcases hturn : u.turn with f | _ | _ | target
  · simp [flow, hturn] at h
  · simp [flow, hturn] at h
  · simp [flow, hturn] at h
  · exact ⟨target, rfl⟩

theorem error_of_flow {f : Fault} (h : u.flow p = .error f) :
    u.turn = .error f ∨ ∃ target, u.turn = .ok (.branch target) := by
  rcases hturn : u.turn with f' | _ | _ | target
  · have hf : Except.error f' = .error f :=
      (by rw [flow, hturn] : u.flow p = .error f').symm.trans h
    rw [Except.error.inj hf]
    exact .inl rfl
  · simp [flow, hturn] at h
  · simp [flow, hturn] at h
  · exact .inr ⟨target, rfl⟩

end Upshot

section

variable {W : Type} {types : Registry W} {rom : Rom} {m : Memory} {w : W} {target : Target}

/-- A branch goes to its own target. -/
theorem target_of_branch {target' : Target}
    (h : (((Instruction.gotoIf target).talk rom types m).hold types w).result.turn =
      .ok (.branch target')) : target = target' := by
  rw [Instruction.talk_eq_say (by simp [Instruction.requiredKeys]), Instruction.say] at h
  cases hresult : m.result (Instruction.gotoIf target).name with
  | error f =>
    rw [hresult] at h
    cases h
  | ok r =>
    rw [hresult] at h
    by_cases hr : r = 0
    · simp [Talk.need, hr, Talk.next, Talk.hold] at h
    · simpa [Talk.need, hr, Talk.hold] using h

/-- What reads a value does not branch. -/
theorem not_branch_valueRom {address : String} :
    (((Instruction.valueRom address).talk rom types m).hold types w).result.turn ≠
      .ok (.branch target) := by
  rw [Instruction.talk_eq_say (by simp [Instruction.requiredKeys]), Instruction.say]
  intro h
  cases hresolve : rom.resolve m.outputValue address with
  | error f =>
    rw [hresolve] at h
    cases h
  | ok v =>
    simp only [hresolve, Talk.need, Talk.bindStaged] at h
    split at h <;> cases h

/-- An operation does not branch: in a program with that target it would be a jump. -/
theorem not_branch_resource {op : ResourceOp} :
    (((Instruction.resource op).talk rom types m).hold types w).result.turn ≠
      .ok (.branch target) := by
  intro h
  obtain ⟨p, a, hrom, htarget⟩ : ∃ (p : Program) (a : Nat), p.tables.rom = rom ∧
      p.target target = .ok a := by
    cases target with
    | index a => exact ⟨⟨{ InitialTables.empty with rom }, []⟩, a, rfl, rfl⟩
    | label l =>
      refine ⟨⟨{ InitialTables.empty with rom, labels := Table.ofList [(l, 0)] }, []⟩, 0, rfl, ?_⟩
      simp [Program.target, Program.label, Table.ofList, Entries.ofList, Entries.set, Table.get?,
        Entries.get?]
  have hexecute : (execute p types (.resource op) m w).flow =
      (((Instruction.resource op).talk p.tables.rom types m).hold types w).result.flow p :=
    congrArg Outcome.flow (execute_eq_hold types rfl w)
  rw [hrom, Upshot.flow_branch h, htarget] at hexecute
  unfold execute at hexecute
  split at hexecute
  · cases hexecute
  · rw [perform] at hexecute
    split at hexecute
    · cases hexecute
    · next s _ => exact ((s.behaves_perform p.tables.rom m w).jump a hexecute).1

/-- What can be stopped by a fault does not branch. -/
theorem not_branch {i : Instruction} (h : i.isResourceOp = true ∨ i.reads = true) :
    ((i.talk rom types m).hold types w).result.turn ≠ .ok (.branch target) := by
  cases i with
  | resource op => exact not_branch_resource
  | valueRom address => exact not_branch_valueRom
  | _ => rcases h with h | h <;> cases h

end

namespace Compilation

variable {plan : Plan} {W : Type} {c : Compilation plan} {types : Registry W} {w : W} {n k : Nat}
  {ra : Resource × Action} {routine : Routine} {i : Instruction} {before rest : List Instruction}
  {K : Known}

/-- To which place a step in a routine leads, by what its talk has come to. -/
inductive Follows (c : Compilation plan) (types : Registry W) (w : W) (n k : Nat)
    (ra : Resource × Action) (routine : Routine) (before rest : List Instruction)
    (i : Instruction) : Except Fault Turn → Prop
  | next {K' : Known} : c.Reaches types w (n + 1) (.routine k ra routine (before ++ [i]) rest K') →
    Follows c types w n k ra routine before rest i (.ok .next)
  | branch {target : Routine} {t : Target} : i = .gotoIf t →
    t = .label (target.label ra.1.name) →
    c.Reaches types w (n + 1) (.routine k ra target [] (ra.1.piece plan.createMissing target).body
      (ra.1.entry plan.createMissing target)) →
    Follows c types w n k ra routine before rest i (.ok (.branch t))
  | stay {K : Known} : c.Reaches types w (n + 1) (.routine k ra routine before (i :: rest) K) →
    Follows c types w n k ra routine before rest i (.ok .stay)
  | fault {f : Fault} : (c.after types w (n + 1)).memory.error = some f →
    Follows c types w n k ra routine before rest i (.error f)

/-- **A step in a routine does what the talk of its instruction comes to.** -/
theorem Reaches.follows (hd : c.Distinct)
    (htypes : ∀ t ∈ plan.declaration.catalog.keys, t ∈ types.keys)
    (h : c.Reaches types w n (.routine k ra routine before (i :: rest) K)) (hret : i ≠ .ret) :
    let r := c.after types w n
    let held := (i.talk c.program.tables.rom types r.memory).hold types r.world
    c.Follows types w n k ra routine before rest i held.result.turn ∧
      Run.Heeds c.program types i r held := by
  obtain ⟨hstands, herror⟩ := h.stands
  have hroutine : c.InRoutine k ra routine before (i :: rest) K (c.after types w n).memory :=
    hstands
  have hrunning := running_of_stands hd hstands (by intro h; cases h) herror
  cases hroutine.checked with
  | ret => exact absurd rfl hret
  | step ht hrest =>
    refine ⟨?_, Run.heeds_of_talk hrunning (instruction_routine hroutine) ht.inner⟩
    have hexecute := execute_eq_hold (p := c.program) (m := (c.after types w n).memory) types
      ht.inner (c.after types w n).world
    dsimp only at hexecute ⊢
    generalize hheld : (i.talk c.program.tables.rom types (c.after types w n).memory).hold types
      (c.after types w n).world = held at hexecute ⊢
    have hflow : ∀ {flow m w'}, execute c.program types i (c.after types w n).memory
        (c.after types w n).world = ⟨flow, m, w'⟩ → held.result.flow c.program = flow := by
      intro flow m w' hx
      exact congrArg Outcome.flow (hexecute.symm.trans hx)
    rcases executes_typed hd htypes hroutine ht hrest herror with hgoes | hstops
    · obtain ⟨place', hadvances⟩ := advances_of_continues hd htypes hstands herror hgoes
      rw [← after_succ] at hadvances
      have hreaches := h.step hadvances
      have hexecutes := hadvances.executes
      generalize c.after types w (n + 1) = r' at hexecutes
      cases hexecutes with
      | next _ _ _ hx =>
        rw [Upshot.next_of_flow (hflow hx)]
        exact .next hreaches
      | jump _ _ _ hx =>
        obtain ⟨target, hturn⟩ := Upshot.branch_of_flow (hflow hx)
        rw [hturn]
        rw [← hheld] at hturn
        obtain rfl := target_of_branch hturn
        exact .branch rfl rfl hreaches
      | ret => exact absurd rfl hret
      | wait _ _ _ hx =>
        rw [Upshot.stay_of_flow (hflow hx)]
        exact .stay hreaches
    · rw [← after_succ] at hstops
      have hfault : ∃ f, held.result.turn = .error f ∧
          (c.after types w (n + 1)).memory.error = some f := by
        generalize c.after types w (n + 1) = r' at hstops
        cases hstops with
        | fault _ _ hfoils hx =>
          refine ⟨_, ?_, rfl⟩
          rcases Upshot.error_of_flow (hflow hx) with hturn | ⟨target, hturn⟩
          · exact hturn
          · rw [← hheld] at hturn
            exact absurd hturn (not_branch (hfoils.imp And.left And.left))
      obtain ⟨f, hturn, herror'⟩ := hfault
      rw [hturn]
      exact .fault herror'

/-! ### Steps of the driver -/

theorem ended_of_halted (h : c.Reaches types w n .halted) :
    (c.after types w n).ended c.program = true := by
  rw [Run.ended, Memory.halted, h.stands.1.1]
  rfl

/-- Nothing but control changes in a step, and nothing is said. -/
structure Coasts (c : Compilation plan) (types : Registry W) (w : W) (n : Nat) : Prop where
  tables : (c.after types w n).memory.SameTables (c.after types w (n + 1)).memory
  temp : (c.after types w (n + 1)).memory.temp = (c.after types w n).memory.temp
  log : (c.after types w (n + 1)).log = (c.after types w n).log
  silent : Run.exchanges c.program types (c.after types w n) = []

variable {place : Place}

theorem Reaches.silent (hd : c.Distinct)
    (htypes : ∀ t ∈ plan.declaration.catalog.keys, t ∈ types.keys)
    (h : c.Reaches types w n place)
    (hplace : ∀ k ra routine before op rest K,
      place ≠ .routine k ra routine before (.resource op :: rest) K) :
    Run.exchanges c.program types (c.after types w n) = [] := by
  rw [List.eq_nil_iff_forall_not_mem]
  intro e he
  obtain ⟨k, ra, routine, before, rest, K, s, hfaces, -⟩ :=
    faces_of_said hd htypes h.stands.1 h.stands.2 he
  exact hplace k ra routine before s.op rest K hfaces

theorem Reaches.silent_of_not_op (hd : c.Distinct)
    (htypes : ∀ t ∈ plan.declaration.catalog.keys, t ∈ types.keys)
    (h : c.Reaches types w n (.routine k ra routine before (i :: rest) K))
    (hop : i.isResourceOp = false) : Run.exchanges c.program types (c.after types w n) = [] := by
  refine h.silent hd htypes ?_
  intro k ra routine before op rest K heq
  injection heq with _ _ _ _ hrest
  obtain ⟨rfl, -⟩ := List.cons.inj hrest
  cases hop

theorem Reaches.loads (hd : c.Distinct)
    (htypes : ∀ t ∈ plan.declaration.catalog.keys, t ∈ types.keys)
    (h : c.Reaches types w n .start) :
    c.Reaches types w (n + 1) (.driver 0) ∧
      (c.after types w (n + 1)).memory =
        { Memory.fresh.load c.program.tables with programCounter := 1 } ∧
      (c.after types w (n + 1)).log = (c.after types w n).log ∧
      Run.exchanges c.program types (c.after types w n) = [] := by
  have hsilent := h.silent hd htypes (by intros; exact Place.noConfusion)
  obtain ⟨place', hadvances⟩ :=
    advances_of_continues hd htypes h.stands.1 h.stands.2 (continues_start h.stands.1)
  rw [← after_succ] at hadvances
  have hreaches := h.step hadvances
  have hexecutes := hadvances.executes
  generalize c.after types w (n + 1) = r' at hexecutes ⊢
  cases hexecutes with
  | init => exact ⟨hreaches, rfl, rfl, hsilent⟩

/-- From the driver a step leads into the routine that is called next, or to the end. -/
theorem Reaches.driven (hd : c.Distinct)
    (htypes : ∀ t ∈ plan.declaration.catalog.keys, t ∈ types.keys)
    (h : c.Reaches types w n (.driver k)) :
    ((∃ ra ∈ c.actions, ∃ phase, c.schedule[k]? = some (ra.1.name, phase) ∧
        c.Reaches types w (n + 1) (.routine k ra (Routine.forPhase ra.2 phase) []
          (ra.1.piece plan.createMissing (Routine.forPhase ra.2 phase)).body
          (ra.1.entry plan.createMissing (Routine.forPhase ra.2 phase)))) ∨
      (k = c.schedule.length ∧ c.Reaches types w (n + 1) .halted)) ∧ c.Coasts types w n := by
  have hsilent := h.silent hd htypes (by intros; exact Place.noConfusion)
  have hcontinues : c.Continues types (c.after types w n) (.driver k) :=
    continues_driver hd h.stands.1 h.stands.2
  obtain ⟨place', hadvances⟩ :=
    advances_of_continues hd htypes h.stands.1 h.stands.2 hcontinues
  rw [← after_succ] at hadvances
  have hreaches := h.step hadvances
  have hexecutes := hadvances.executes
  have hcoasts : ∀ {r' : Run W}, c.after types w (n + 1) = r' →
      (c.after types w n).memory.SameTables r'.memory →
      r'.memory.temp = (c.after types w n).memory.temp → r'.log = (c.after types w n).log →
      c.Coasts types w n := by
    rintro r' rfl htables htemp hlog
    exact ⟨htables, htemp, hlog, hsilent⟩
  generalize hr' : c.after types w (n + 1) = r' at hexecutes
  cases hexecutes with
  | call hra hk =>
    exact ⟨.inl ⟨_, hra, _, hk, hreaches⟩, hcoasts hr' ⟨rfl, rfl, rfl, rfl⟩ rfl rfl⟩
  | halt => exact ⟨.inr ⟨rfl, hreaches⟩, hcoasts hr' ⟨rfl, rfl, rfl, rfl⟩ rfl rfl⟩

theorem Reaches.returns (hd : c.Distinct)
    (htypes : ∀ t ∈ plan.declaration.catalog.keys, t ∈ types.keys)
    (h : c.Reaches types w n (.routine k ra routine before [.ret] K)) :
    c.Reaches types w (n + 1) (.driver (k + 1)) ∧ c.Coasts types w n := by
  have hroutine : c.InRoutine k ra routine before [.ret] K (c.after types w n).memory :=
    h.stands.1
  have hsilent := h.silent_of_not_op hd htypes rfl
  have hexit : ra.1.Exit plan.createMissing routine K := by
    cases hroutine.checked with
    | ret hexit => exact hexit
    | step ht => cases ht
  obtain ⟨place', hadvances⟩ := advances_of_continues hd htypes h.stands.1 h.stands.2
    (continues_ret hroutine hexit h.stands.2)
  rw [← after_succ] at hadvances
  have hreaches := h.step hadvances
  have hexecutes := hadvances.executes
  generalize hr' : c.after types w (n + 1) = r' at hexecutes
  cases hexecutes with
  | next _ ht => cases ht
  | ret =>
    refine ⟨hreaches, ?_, ?_, ?_, hsilent⟩
    · rw [hr']
      exact ⟨rfl, rfl, rfl, rfl⟩
    · rw [hr']
    · rw [hr']

/-- A quiet instruction goes on or branches, and leaves the tables as they were. -/
theorem Reaches.quietly (hd : c.Distinct)
    (htypes : ∀ t ∈ plan.declaration.catalog.keys, t ∈ types.keys)
    (h : c.Reaches types w n (.routine k ra routine before (i :: rest) K))
    (hquiet : i.quiet = true) (hreads : i.reads = false) :
    ((∃ K', c.Reaches types w (n + 1) (.routine k ra routine (before ++ [i]) rest K')) ∨
      ∃ target : Routine, i = .gotoIf (.label (target.label ra.1.name)) ∧
        c.Reaches types w (n + 1) (.routine k ra target []
          (ra.1.piece plan.createMissing target).body (ra.1.entry plan.createMissing target))) ∧
      (c.after types w n).memory.SameTables (c.after types w (n + 1)).memory ∧
      (c.after types w (n + 1)).log = (c.after types w n).log ∧
      Run.exchanges c.program types (c.after types w n) = [] := by
  have hroutine : c.InRoutine k ra routine before (i :: rest) K (c.after types w n).memory :=
    h.stands.1
  have hop : i.isResourceOp = false := by
    cases i <;> first | rfl | cases hquiet
  have hsilent := h.silent_of_not_op hd htypes hop
  have hlogged : Run.logged i (c.after types w n).memory = [] := by
    cases i <;> first | rfl | cases hop
  cases hroutine.checked with
  | ret => cases hquiet
  | step ht hrest =>
    rcases executes_typed hd htypes hroutine ht hrest h.stands.2 with hgoes | hstops
    · obtain ⟨place', hadvances⟩ := advances_of_continues hd htypes h.stands.1 h.stands.2 hgoes
      rw [← after_succ] at hadvances
      have hreaches := h.step hadvances
      have hexecutes := hadvances.executes
      generalize c.after types w (n + 1) = r' at hexecutes ⊢
      cases hexecutes with
      | next _ _ _ hx =>
        obtain ⟨temp, rfl⟩ := temp_of_quiet hquiet hx
        refine ⟨.inl ⟨_, hreaches⟩, ⟨rfl, rfl, rfl, rfl⟩, ?_, hsilent⟩
        rw [hlogged, List.append_nil]
      | jump => exact ⟨.inr ⟨_, rfl, hreaches⟩, ⟨rfl, rfl, rfl, rfl⟩, rfl, hsilent⟩
      | ret => cases hquiet
      | wait => cases hquiet
    · rw [← after_succ] at hstops
      generalize c.after types w (n + 1) = r' at hstops
      cases hstops with
      | fault _ _ hfoils =>
        rcases hfoils with ⟨hop', -⟩ | ⟨hreads', -⟩
        · rw [hop] at hop'
          cases hop'
        · rw [hreads] at hreads'
          cases hreads'

end Compilation

end Provisioning
