/-
Where the run of any program stands.

Nothing is asked of names here.  Keys and labels may have been used twice; then a call or a
jump may lead into a body that was made for another resource, and what a routine presumes to
be decided need not be what was decided.  Two things hold all the same.  Control is in the
driver, or in some body that compilation made, one call deep, and it enters a body only at
its beginning.  And since every body empties scratch first and stages its operands itself,
the texts in scratch are the ones that are known from the body alone.

So whichever body it is, its operations act on the names they were made for.  In particular
identifiers are only ever written under names that were tracked before, names that are
declared, and the names under which declared resources are put aside.
-/
import Provisioning.Proofs.Run.Safety
import Provisioning.Proofs.Run.Words

namespace Provisioning

/-! ### Texts in scratch -/

namespace Known

/-- The texts in scratch are as they are known to be, whatever the rest is. -/
structure Spells (K : Known) (m : Memory) : Prop where
  distinct : m.temp.keys.Nodup
  text : ∀ key s, K.scratch key = some (.text s) → m.temp.get? key = some (.str s)

namespace Spells

variable {K : Known} {m : Memory}

theorem congr (h : K.Spells m) {m' : Memory} (htemp : m'.temp = m.temp) : K.Spells m' where
  distinct := htemp ▸ h.distinct
  text key s hs := htemp ▸ h.text key s hs

theorem clear (K : Known) (m : Memory) : K.clear.Spells { m with temp := [] } where
  distinct := List.nodup_nil
  text := nofun

theorem set (h : K.Spells m) (key : String) (s : Shape) {v : Json}
    (hv : ∀ t, s = .text t → v = .str t) : (K.set key s).Spells (m.setTemp key v) where
  distinct := Entries.nodup_set h.distinct key v
  text k t hs := by
    have hget : (m.setTemp key v).temp.get? k = if key = k then some v else m.temp.get? k :=
      Entries.get?_set m.temp key v k
    rw [hget]
    by_cases hk : key = k
    · have hshape : s = .text t := by simpa [Known.set, hk] using hs
      rw [if_pos hk, hv t hshape]
    · rw [if_neg hk]
      exact h.text k t (by simpa [Known.set, hk] using hs)

theorem drop (h : K.Spells m) (key : String) :
    (K.drop key).Spells { m with temp := m.temp.swapErase key } where
  distinct := Entries.nodup_swapErase h.distinct key
  text k t hs := by
    show (m.temp.swapErase key).get? k = _
    rw [Entries.get?_swapErase h.distinct]
    by_cases hk : key = k
    · simp [Known.drop, hk] at hs
    · rw [if_neg hk]
      exact h.text k t (by simpa [Known.drop, hk] using hs)

/-- A decision does not touch scratch. -/
theorem decide (h : K.Spells m) (ds : List (Option Decision)) : (K.decide ds).Spells m where
  distinct := h.distinct
  text key t hs := h.text key t (Option.filter_eq_some_iff.1 hs).1

theorem requireStr (h : K.Spells m) {key s : String} (hs : K.scratch key = some (.text s))
    (instruction : String) : m.requireStr instruction key = .ok s := by
  unfold Memory.requireStr Memory.require
  rw [h.text key s hs]
  rfl

theorem writeStaged_null (h : K.Spells m) {name : String}
    (htable : K.scratch "superkey" = some (.text "remote_ids"))
    (hkey : K.scratch "key" = some (.text name)) :
    m.writeStaged .null = .ok { m with remoteIds := m.remoteIds.erase name } := by
  rw [Memory.writeStaged, h.requireStr htable, h.requireStr hkey]
  rfl

theorem writeStaged_decision (h : K.Spells m) {name : String}
    (htable : K.scratch "superkey" = some (.text "update_action"))
    (hkey : K.scratch "key" = some (.text name)) (d : Decision) :
    m.writeStaged (.str d.text) = .ok { m with decisions := m.decisions.insert name d } := by
  rw [Memory.writeStaged, h.requireStr htable, h.requireStr hkey]
  cases d <;> rfl

/-- What is staged is bound under the key that is known. -/
theorem bind {W : Type} {w : W} (h : K.Spells m) {key : String} {s : Shape} {v : Json}
    (hkey : K.scratch Memory.stagedKey = some (.text key)) (hv : ∀ t, s = .text t → v = .str t) :
    ∃ temp, bindStaged v m w = .next { m with temp } w ∧
      (K.bind key s).Spells { m with temp } := by
  have hbound := bindStaged_eq (w := w) (h.text _ _ hkey) v
  exact ⟨_, hbound, (h.drop Memory.stagedKey).set key s hv⟩

end Spells

end Known

/-! ### What a body can do -/

/-- Control and the outcome of the run are as they were. -/
structure Memory.SameControl (m m' : Memory) : Prop where
  programCounter : m'.programCounter = m.programCounter
  callStack : m'.callStack = m.callStack
  ended : m'.ended = m.ended
  error : m'.error = m.error

theorem Memory.SameControl.refl (m : Memory) : m.SameControl m := ⟨rfl, rfl, rfl, rfl⟩

namespace Resource

/-- Where new identifiers are written: under the name of a resource that is wanted, or under
the name where an update puts its object aside. -/
def Retracks (r : Resource) (action : Action) (m m' : Memory) : Prop :=
  ∀ n ∈ m'.remoteIds.keys, n ∈ m.remoteIds.keys ∨ (n = r.name ∧ action ≠ .delete) ∨
    (n = deletable r.name ∧ action ≠ .delete)

theorem retracks_of_eq {r : Resource} {action : Action} {m m' : Memory}
    (h : m'.remoteIds = m.remoteIds) : r.Retracks action m m' := by
  intro n hn
  rw [h] at hn
  exact .inl hn

variable {r : Resource} {createMissing : Bool} {routine : Routine}

theorem own_of_mem_work {op : ResourceOp} {name : String} {action : Action} {phase : Phase}
    {d : Option Decision} (hop : op = .create ∨ op = .markDeletable)
    (h : op.record name ∈ r.work createMissing action phase d) :
    name = r.name ∧ action ≠ .delete := by
  rcases hop with rfl | rfl <;> cases phase <;> cases action <;>
    rcases d with _ | _ | _ | _ | _ <;> cases createMissing <;>
    cases hlate : r.schema.deleteAtEnd <;>
    simp_all [work, did, didAside, probing, vacating, ResourceOp.record_inj]

variable {K K' : Known} {i : Instruction} {rest : List Instruction}

/-- Without a branch, there is always something that may have been decided. -/
theorem Typed.decided_ne_nil (ht : Typed r createMissing routine K i K')
    (hi : ∀ target, i ≠ .gotoIf target) (h : K.decided ≠ []) : K'.decided ≠ [] := by
  cases ht with
  | test | branch => exact absurd rfl (hi _)
  | settle => exact List.cons_ne_nil _ _
  | @operation name op =>
    cases op with
    | rescmp => exact List.cons_ne_nil _ _
    | _ => exact h
  | _ => exact h

theorem Checked.own {op : ResourceOp} {name : String} (hop : op = .create ∨ op = .markDeletable)
    (hdecided : K.decided ≠ []) (h : Checked r createMissing routine (K.did op name) rest) :
    name = r.name ∧ routine.action ≠ .delete := by
  obtain ⟨v, hv⟩ := List.exists_mem_of_ne_nil _ hdecided
  have hsame : (K.did op name).decided = K.decided := by
    rcases hop with rfl | rfl <;> rfl
  obtain ⟨d, -, -, hbegins⟩ := h.begins v (hsame ▸ hv)
  refine own_of_mem_work hop (hbegins.subset ?_)
  rw [Known.records_did]
  exact List.mem_append_right _ List.mem_cons_self

/-- How an instruction of a body ends, whatever was decided. -/
def Keeps (p : Program) (r : Resource) (routine : Routine) (i : Instruction) (K' : Known)
    (m : Memory) {W : Type} (o : Outcome W) : Prop :=
  o.Ends m
    (fun m' => K'.Spells m' ∧ m.SameControl m' ∧ r.Retracks routine.action m m')
    (fun a => ∃ label, i = .gotoIf (.label label) ∧ p.label label = .ok a)
    True (fun _ => True)

section

variable {W : Type} {p : Program} {types : Registry W} {m : Memory} {w : W}

theorem keeps_next (temp : Properties) (h : K'.Spells { m with temp }) :
    Keeps p r routine i K' m (.next { m with temp } w) :=
  Outcome.ends_next ⟨h, ⟨rfl, rfl, rfl, rfl⟩, retracks_of_eq rfl⟩

theorem keeps_fault {f : Fault} : Keeps p r routine i K' m (.fault f m w) :=
  Outcome.ends_fault trivial m.temp

/-- A scratch value that is missing stops an instruction before it begins. -/
theorem keeps_execute (h : Keeps p r routine i K' m (perform p types i m w)) :
    Keeps p r routine i K' m (execute p types i m w) := by
  unfold execute
  split
  · exact keeps_fault
  · exact h

theorem keeps_gotoIf {label : String} (h : K'.Spells m) :
    Keeps p r routine (.gotoIf (.label label)) K' m
      (perform p types (.gotoIf (.label label)) m w) := by
  rw [perform]
  split
  · exact keeps_fault
  · split
    · exact keeps_next m.temp h
    · split
      · exact keeps_fault
      · next a ha => exact Outcome.ends_jump ⟨label, rfl, ha⟩

/-- An operation binds no texts, and writes identifiers only where it may. -/
theorem keeps_did {s : Staged W} {m' : Memory} (hdone : s.Done m m')
    (hown : s.op = .create ∨ s.op = .markDeletable → s.name = r.name ∧ routine.action ≠ .delete)
    (h : K.Spells m) :
    (K.did s.op s.name).Spells m' ∧ m.SameControl m' ∧ r.Retracks routine.action m m' := by
  have hcontrol : ∀ {temp remoteIds outputs decisions deleted},
      m.SameControl { m with temp, remoteIds, outputs, decisions, deleted } := ⟨rfl, rfl, rfl, rfl⟩
  have hspells : { K with records := K.records ++ [s.op.record s.name] }.Spells m :=
    ⟨h.distinct, h.text⟩
  unfold Staged.Done at hdone
  cases hop : s.op with
  | create =>
    rw [hop] at hdone hspells hown
    obtain ⟨id, rfl⟩ := hdone
    refine ⟨hspells.congr rfl, hcontrol, ?_⟩
    intro n hn
    rcases Entries.mem_keys_set.1 hn with hn | rfl
    · exact .inl hn
    · exact .inr (.inl (hown (.inl rfl)))
  | markDeletable =>
    rw [hop] at hdone hspells hown
    obtain ⟨id, rfl⟩ := hdone
    refine ⟨hspells.congr rfl, hcontrol, ?_⟩
    intro n hn
    obtain ⟨hname, haction⟩ := hown (.inr rfl)
    rcases Entries.mem_keys_set.1 hn with hn | rfl
    · exact .inl ((Entries.keys_erase_sublist _ _).subset hn)
    · exact .inr (.inr ⟨by rw [hname], haction⟩)
  | checkDelete =>
    rw [hop] at hdone hspells
    obtain rfl := hdone
    refine ⟨hspells.congr rfl, hcontrol, ?_⟩
    intro n hn
    exact .inl ((Entries.keys_erase_sublist _ _).subset hn)
  | read =>
    rw [hop] at hdone hspells
    obtain ⟨current, outputs, rfl, -⟩ := hdone
    exact ⟨(hspells.set "current" .object (fun _ h => by cases h)).congr rfl, hcontrol,
      retracks_of_eq rfl⟩
  | update | delete =>
    rw [hop] at hdone hspells
    obtain rfl := hdone
    exact ⟨hspells.congr rfl, hcontrol, retracks_of_eq rfl⟩
  | checkCreate | checkUpdate =>
    rw [hop] at hdone hspells
    obtain ⟨fields, rfl⟩ := hdone
    exact ⟨hspells.congr rfl, hcontrol, retracks_of_eq rfl⟩
  | checkExist =>
    rw [hop] at hdone hspells
    obtain ⟨found, rfl⟩ := hdone
    exact ⟨hspells.set Memory.resultKey .flag (fun _ h => by cases h), hcontrol, retracks_of_eq rfl⟩
  | filter =>
    rw [hop] at hdone hspells
    obtain ⟨properties, rfl⟩ := hdone
    exact ⟨hspells.set "properties" .object (fun _ h => by cases h), hcontrol, retracks_of_eq rfl⟩
  | rescmp =>
    rw [hop] at hdone hspells
    obtain ⟨d, -, rfl⟩ := hdone
    exact ⟨(hspells.decide _).congr rfl, hcontrol, retracks_of_eq rfl⟩

theorem keeps_operation {op : ResourceOp} {name : String}
    (hname : K.scratch "resource_name" = some (.text name))
    (hown : op = .create ∨ op = .markDeletable → name = r.name ∧ routine.action ≠ .delete)
    (h : K.Spells m) :
    Keeps p r routine (.resource op) (K.did op name) m (perform p types (.resource op) m w) := by
  rw [perform]
  split
  · exact keeps_fault
  · next s hs =>
    obtain ⟨rfl, hstaged, -, -⟩ := Staged.ofMemory_eq_ok.1 hs
    rw [h.requireStr hname] at hstaged
    obtain rfl := Except.ok.inj hstaged
    refine (Staged.behaves_perform _ _ _ _).imp (fun m' hdone => ?_) (fun _ h => h.elim)
      (fun _ => trivial) (fun _ _ => trivial)
    exact keeps_did hdone hown h

/-- **Whatever was decided, a typed instruction leaves texts as they are known to be, and
writes identifiers only where it may.** -/
theorem Typed.keeps (ht : Typed r createMissing routine K i K')
    (hchecked : Checked r createMissing routine K' rest)
    (hwrites : ∀ op, op = .create ∨ op = .markDeletable → i = .resource op → K.decided ≠ [])
    (h : K.Spells m) : Keeps p r routine i K' m (execute p types i m w) := by
  refine keeps_execute ?_
  cases ht with
  | clear => exact keeps_next [] (Known.Spells.clear K m)
  | key name =>
    refine keeps_next (m.temp.set Memory.stagedKey (.str name)) ?_
    exact h.set _ _ fun t ht => by rw [Shape.text.inj ht]
  | text s hkey =>
    obtain ⟨temp, hbind, hspells⟩ := h.bind (w := w) (v := .str s) (s := .text s) hkey
      fun t ht => by rw [Shape.text.inj ht]
    rw [perform, hbind]
    exact keeps_next temp hspells
  | fields _ hkey =>
    rw [perform]
    split
    · exact keeps_fault
    · next v hv =>
      obtain ⟨temp, hbind, hspells⟩ :=
        h.bind (w := w) (v := v) (s := .object) hkey (fun _ h => by cases h)
      rw [hbind]
      exact keeps_next temp hspells
  | decision =>
    rw [perform]
    split
    · exact keeps_fault
    · next d hd =>
      exact keeps_next _ (((Known.Spells.clear K m).set Memory.resultKey .decision
        (v := .str d.text) (fun _ h => by cases h)).congr rfl)
  | compare =>
    exact keeps_next _ ((h.set Memory.resultKey (.verdict _) (fun _ h => by cases h)).congr rfl)
  | invert =>
    rw [perform]
    split
    · exact keeps_fault
    · exact keeps_next _ ((h.set Memory.resultKey .flag (fun _ h => by cases h)).congr rfl)
  | test => exact keeps_gotoIf h
  | branch => exact keeps_gotoIf ⟨h.distinct, h.text⟩
  | forget _ _ htable hkey =>
    rw [perform, h.writeStaged_null htable hkey]
    refine Outcome.ends_next ⟨h.congr rfl, ⟨rfl, rfl, rfl, rfl⟩, ?_⟩
    intro n hn
    exact .inl ((Entries.keys_erase_sublist _ _).subset hn)
  | settle d htable hkey =>
    rw [perform, h.writeStaged_decision htable hkey]
    exact Outcome.ends_next ⟨(h.decide _).congr rfl, ⟨rfl, rfl, rfl, rfl⟩, retracks_of_eq rfl⟩
  | operation op hname =>
    refine keeps_operation hname ?_ h
    intro hop
    exact hchecked.own hop (hwrites op hop rfl)

end

end Resource

/-! ### Where a run stands -/

/-- The names under which a run may track something: those that were tracked before, those
that are declared, and those under which declared resources put their objects aside. -/
inductive Plan.MayTrack (plan : Plan) (name : String) : Prop
  | tracked : name ∈ plan.prior.keys → MayTrack plan name
  | declared : name ∈ plan.declaration.resources.keys → MayTrack plan name
  | aside {owner : String} : owner ∈ plan.declaration.resources.keys → name = deletable owner →
    MayTrack plan name

namespace Compilation

variable {plan : Plan}

/-- The memory stands in a body that compilation made, called from the driver. -/
structure InBody (c : Compilation plan) (ra : Resource × Action) (routine : Routine)
    (before rest : List Instruction) (K : Known) (m : Memory) : Prop where
  planned : ra ∈ c.actions
  needed : ∃ step, (step, routine) ∈ Resource.routines ra.2 plan.createMissing
  body : (ra.1.piece plan.createMissing routine).body = before ++ rest
  programCounter : ∃ start, (ra.1.piece plan.createMissing routine, start) ∈ c.layout.placed ∧
    m.programCounter = start + before.length
  caller : ∃ k, m.callStack = [k] ∧ k + 1 < c.layout.driver.length
  checked : ra.1.Checked plan.createMissing routine K rest
  /-- In a routine without branches no decision is ever excluded. -/
  decided : routine.targets plan.createMissing = [] → K.decided ≠ []
  spells : K.Spells m

/-- The memory stands somewhere in the program, or the run is over. -/
inductive Located (c : Compilation plan) (m : Memory) : Prop
  | driver : m.programCounter < c.layout.driver.length → m.callStack = [] →
    m.temp.keys.Nodup → Located c m
  | body {ra : Resource × Action} {routine : Routine} {before rest : List Instruction}
    {K : Known} : c.InBody ra routine before rest K m → Located c m
  | stopped : m.halted c.program.size = true → Located c m

/-- A memory of a run of the program: it stands somewhere, and tracks what it may. -/
structure Footing (c : Compilation plan) (m : Memory) : Prop where
  located : c.Located m
  tracks : ∀ name ∈ m.remoteIds.keys, plan.MayTrack name

section

variable {W : Type} {c : Compilation plan} {types : Registry W} {r : Run W} {m : Memory}

theorem located_of_label {label : String} {a k : Nat} (hlabel : c.program.label label = .ok a)
    (hk : k + 1 < c.layout.driver.length) (hdistinct : m.temp.keys.Nodup)
    (hcounter : m.programCounter = a) (hstack : m.callStack = [k]) : c.Located m := by
  have hget : c.layout.labels.get? label = some a := by
    unfold Program.label at hlabel
    split at hlabel
    · next i hi =>
      obtain rfl := Except.ok.inj hlabel
      exact hi
    · cases hlabel
  have hmem := Entries.mem_of_mem_ofList (Table.get?_eq_some_iff.1 hget)
  rw [Layout.positions_eq_map] at hmem
  obtain ⟨e, he, heq⟩ := List.mem_map.1 hmem
  obtain ⟨ra, hra, piece, hpiece, hs⟩ := exists_piece (Layout.mem_values_of_placed he)
  have hbody : c.InBody ra piece.2 [] (ra.1.piece plan.createMissing piece.2).body
      (ra.1.entry plan.createMissing piece.2) m := by
    refine ⟨hra, ⟨piece.1, hpiece⟩, rfl, ⟨a, ?_, hcounter⟩, ⟨k, hstack, hk⟩,
      Resource.checked_body hpiece, ?_, ⟨hdistinct, nofun⟩⟩
    · rw [← hs, ← (Prod.mk.inj heq).2]
      exact he
    · intro _
      show piece.2.presumed plan.createMissing ≠ []
      cases piece.2 <;> simp [Routine.presumed, settled]
  exact .body hbody

/-- A driver has calls between its first instruction and its last. -/
theorem instruction_driver {k : Nat} (hk : k < c.layout.driver.length) {i : Instruction}
    (hi : c.program.instructions[k]? = some i) :
    i = .init ∨ i = .halt ∨ ∃ label, i = .call label := by
  rw [show c.program.instructions[k]? = _ from Layout.getElem?_driver hk] at hi
  have hmem := List.mem_of_getElem? hi
  rw [driver_eq, List.mem_cons, List.mem_append, List.mem_singleton] at hmem
  rcases hmem with rfl | hmem | rfl
  · exact .inl rfl
  · obtain ⟨e, -, he⟩ := List.mem_filterMap.1 hmem
    obtain ⟨s, -, rfl⟩ := Option.map_eq_some_iff.1 he
    exact .inr (.inr ⟨_, rfl⟩)
  · exact .inr (.inl rfl)

theorem exists_instruction_driver {k : Nat} (hk : k < c.layout.driver.length) :
    ∃ i, c.program.instructions[k]? = some i := by
  rw [show c.program.instructions[k]? = _ from Layout.getElem?_driver hk]
  exact ⟨_, List.getElem?_eq_getElem hk⟩

/-- Only the end of the program stands last in the driver. -/
theorem lt_of_instruction_driver {k : Nat} (hk : k < c.layout.driver.length) {i : Instruction}
    (hi : c.program.instructions[k]? = some i) (hne : i ≠ .halt) :
    k + 1 < c.layout.driver.length := by
  rw [show c.program.instructions[k]? = _ from Layout.getElem?_driver hk] at hi
  by_contra hlast
  have hlength : c.layout.driver.length = (c.schedule.filterMap c.callFor).length + 2 := by
    rw [driver_eq]
    simp
  obtain rfl : k = (c.schedule.filterMap c.callFor).length + 1 := by omega
  rw [driver_eq, List.getElem?_cons_succ, List.getElem?_append_right (Nat.le_refl _),
    Nat.sub_self] at hi
  exact hne (Option.some.inj hi).symm

theorem instruction_body {ra : Resource × Action} {routine : Routine} {i : Instruction}
    {before rest : List Instruction} {K : Known}
    (h : c.InBody ra routine before (i :: rest) K m) :
    c.program.instructions[m.programCounter]? = some i := by
  obtain ⟨start, hstart, hcounter⟩ := h.programCounter
  rw [hcounter]
  exact Layout.getElem?_of_body hstart h.body

/-- In a body that branches, something is a target. -/
theorem targets_of_gotoIf {ra : Resource × Action} {routine : Routine} {target : Target}
    {before rest : List Instruction} {K : Known}
    (h : c.InBody ra routine before (.gotoIf target :: rest) K m) :
    routine.targets plan.createMissing ≠ [] := by
  have hmem : Instruction.gotoIf target ∈ (ra.1.piece plan.createMissing routine).body := by
    rw [h.body]
    simp
  obtain ⟨branch, hbranch, -⟩ := Resource.gotoIf_mem_body.1 hmem
  exact List.ne_nil_of_mem hbranch

/-- Where a body writes a new identifier, something may have been decided. -/
theorem InBody.decided_of_writes {ra : Resource × Action} {routine : Routine} {i : Instruction}
    {before rest : List Instruction} {K : Known} (h : c.InBody ra routine before (i :: rest) K m) :
    ∀ op, op = .create ∨ op = .markDeletable → i = .resource op → K.decided ≠ [] := by
  rintro op hop rfl
  refine h.decided (Resource.targets_of_writes (r := ra.1) hop ?_)
  rw [h.body]
  simp

theorem mayTrack_of_retracks {ra : Resource × Action} (hra : ra ∈ c.actions) {routine : Routine}
    (haction : routine.action = ra.2) {m' : Memory}
    (h : ra.1.Retracks routine.action m m')
    (htracks : ∀ name ∈ m.remoteIds.keys, plan.MayTrack name) :
    ∀ name ∈ m'.remoteIds.keys, plan.MayTrack name := by
  intro name hname
  have hdeclared : routine.action ≠ .delete →
      ra.1.name ∈ plan.declaration.resources.keys := by
    intro hne
    exact Table.mem_keys_of_get? ((c.planned hra).declared (haction ▸ hne))
  rcases h name hname with hold | ⟨rfl, hne⟩ | ⟨rfl, hne⟩
  · exact htracks name hold
  · exact .declared (hdeclared hne)
  · exact .aside (hdeclared hne) rfl

theorem located_of_error {f : Fault} (h : m.error = some f) : c.Located m := by
  refine .stopped ?_
  simp [Memory.halted, h]

theorem footing_step_driver (h : c.Footing r.memory) (hrunning : r.ended c.program = false)
    (hcounter : r.memory.programCounter < c.layout.driver.length)
    (hstack : r.memory.callStack = []) (hdistinct : r.memory.temp.keys.Nodup) :
    c.Footing (r.step c.program types).memory := by
  obtain ⟨i, hi⟩ := exists_instruction_driver hcounter
  rw [Run.step_of_instruction hrunning hi]
  rcases instruction_driver hcounter hi with rfl | rfl | ⟨label, rfl⟩
  · refine ⟨.driver ?_ hstack hdistinct, ?_⟩
    · exact lt_of_instruction_driver hcounter hi (fun h => by cases h)
    · intro name hname
      have hkeys : name ∈ (plan.prior.mapValues fun _ t => t.remoteId).keys := hname
      rw [Table.keys_mapValues] at hkeys
      exact .tracked hkeys
  · exact ⟨.stopped rfl, h.tracks⟩
  · rw [execute_eq_perform (by simp [Instruction.requiredKeys]), perform]
    cases hlabel : c.program.label label with
    | error f => exact ⟨located_of_error rfl, h.tracks⟩
    | ok a =>
      have hk := lt_of_instruction_driver hcounter hi (fun h => by cases h)
      refine ⟨located_of_label hlabel hk hdistinct rfl ?_, h.tracks⟩
      show r.memory.callStack ++ [r.memory.programCounter] = _
      rw [hstack, List.nil_append]

theorem footing_step_body (h : c.Footing r.memory) (hrunning : r.ended c.program = false)
    {ra : Resource × Action} {routine : Routine} {before rest : List Instruction} {K : Known}
    (hbody : c.InBody ra routine before rest K r.memory) :
    c.Footing (r.step c.program types).memory := by
  obtain ⟨k, hstack, hk⟩ := hbody.caller
  cases hbody.checked with
  | ret =>
    rw [Run.step_of_instruction hrunning (instruction_body hbody),
      execute_eq_perform (by simp [Instruction.requiredKeys]), perform, hstack]
    exact ⟨.driver hk rfl hbody.spells.distinct, h.tracks⟩
  | @step _ K' i rest ht hrest =>
    obtain ⟨start, hstart, hcounter⟩ := hbody.programCounter
    have hdecided : (∀ target, i ≠ .gotoIf target) →
        routine.targets plan.createMissing = [] → K'.decided ≠ [] :=
      fun hi hnone => ht.decided_ne_nil hi (hbody.decided hnone)
    have hkeeps : Resource.Keeps c.program ra.1 routine i K' r.memory
        (execute c.program types i r.memory r.world) :=
      ht.keeps hrest hbody.decided_of_writes hbody.spells
    rw [Run.step_of_instruction hrunning (instruction_body hbody), Run.settle]
    generalize execute c.program types i r.memory r.world = o at hkeeps
    split
    · -- The next instruction of the body.
      next hflow =>
      obtain ⟨hspells, hcontrol, hretracks⟩ := hkeeps.next hflow
      obtain ⟨step, hneeded⟩ := hbody.needed
      have hnext : c.InBody ra routine (before ++ [i]) rest K'
          { o.memory with programCounter := r.memory.programCounter + 1 } := by
        refine ⟨hbody.planned, ⟨step, hneeded⟩, ?_, ⟨start, hstart, ?_⟩, ⟨k, ?_, hk⟩, hrest, ?_,
          hspells.congr rfl⟩
        · rw [hbody.body, List.append_assoc]
          rfl
        · simp only [hcounter, List.length_append, List.length_singleton]
          omega
        · exact hcontrol.callStack.trans hstack
        · intro hnone
          refine hdecided ?_ hnone
          rintro target rfl
          exact targets_of_gotoIf hbody hnone
      exact ⟨.body hnext,
        mayTrack_of_retracks hbody.planned (Resource.action_of_mem hneeded) hretracks h.tracks⟩
    · -- Another body, with the same caller.
      next a hflow =>
      obtain ⟨⟨label, -, hlabel⟩, hmemory⟩ := hkeeps.jump a hflow
      rw [hmemory]
      exact ⟨located_of_label hlabel hk hbody.spells.distinct rfl hstack, h.tracks⟩
    · next hflow =>
      obtain ⟨-, hmemory⟩ := hkeeps.stay hflow
      rw [hmemory]
      exact h
    · next f hflow =>
      obtain ⟨-, temp, hmemory⟩ := hkeeps.fault f hflow
      rw [hmemory]
      exact ⟨located_of_error rfl, h.tracks⟩

/-- **Every step keeps a run on its feet, whatever the names and whatever the backends.** -/
theorem footing_step (h : c.Footing r.memory) : c.Footing (r.step c.program types).memory := by
  by_cases hended : r.ended c.program = true
  · rw [Run.step_of_ended hended]
    exact h
  · rw [Bool.not_eq_true] at hended
    cases h.located with
    | driver hcounter hstack hdistinct =>
      exact footing_step_driver h hended hcounter hstack hdistinct
    | body hbody => exact footing_step_body h hended hbody
    | stopped hstopped =>
      rw [Run.ended, hstopped] at hended
      cases hended

theorem footing_fresh (c : Compilation plan) (w : W) : c.Footing (Run.fresh w).memory where
  located := by
    refine .driver ?_ rfl List.nodup_nil
    show 0 < c.layout.driver.length
    rw [driver_eq]
    simp
  tracks := nofun

/-- **Every state of a run has its footing.** -/
theorem footing_steps (c : Compilation plan) (types : Registry W) (w : W) (n : Nat) :
    c.Footing (Run.steps c.program types n (Run.fresh w)).memory := by
  refine Run.steps_induction (P := fun r => c.Footing r.memory) ?_ (c.footing_fresh w) n
  intro r h
  exact footing_step h

end

end Compilation

end Provisioning
