/-
What one step does to the tables.

Most instructions only move values and control: they leave the tables of the memory and the
world as they were, and say nothing to the providers.  What is left are the operations, and
the two writes by which a replacement of what is missing begins.  `Effect` lists these cases
with the places before and after; `effect` says that every step that does not stop the run is
one of them.

Everything that is ever said to a provider is said by an operation of a routine, so an
exchange tells where the run stood and which resource was staged: `said`.
-/
import Provisioning.Proofs.Run.Performed
import Provisioning.Proofs.Run.Progress

namespace Provisioning

/-! ### Quiet instructions -/

/-- The tables are as they were. -/
structure Memory.SameTables (m m' : Memory) : Prop where
  remoteIds : m'.remoteIds = m.remoteIds
  outputs : m'.outputs = m.outputs
  decisions : m'.decisions = m.decisions
  deleted : m'.deleted = m.deleted

/-- Whether an instruction only acts on scratch. -/
def Instruction.quiet : Instruction → Bool
  | .clear | .invert | .key _ | .value _ | .valueRom _ | .valueUpdate _ | .compare _ | .assert _
  | .gotoIf _ => true
  | _ => false

section

variable {W : Type} {p : Program} {types : Registry W} {m m' : Memory} {w w' : W}

theorem temp_of_bindStaged {v : Json} (h : bindStaged v m w = .next m' w') :
    ∃ temp, m' = { m with temp } := by
  unfold bindStaged takeStagedKey at h
  split at h
  · cases h
  · next key m₁ htaken =>
    cases h
    split at htaken
    · cases htaken
    · dsimp only at htaken
      split at htaken
      · cases htaken
        exact ⟨_, rfl⟩
      · cases htaken

/-- A quiet instruction changes nothing but scratch. -/
theorem temp_of_quiet {i : Instruction} (hi : i.quiet = true)
    (h : execute p types i m w = .next m' w') : ∃ temp, m' = { m with temp } := by
  unfold execute at h
  split at h
  · cases h
  cases i with
  | clear | key _ | compare _ =>
    cases h
    exact ⟨_, rfl⟩
  | value v => exact temp_of_bindStaged h
  | valueRom address =>
    rw [perform] at h
    split at h
    · cases h
    · exact temp_of_bindStaged h
  | invert =>
    rw [perform] at h
    split at h
    · cases h
    · cases h
      exact ⟨_, rfl⟩
  | valueUpdate name =>
    rw [perform] at h
    split at h
    · cases h
    · cases h
      exact ⟨_, rfl⟩
  | assert name =>
    rw [perform] at h
    split at h
    · cases h
    · split at h
      · cases h
        exact ⟨m.temp, rfl⟩
      · cases h
  | gotoIf target =>
    rw [perform] at h
    split at h
    · cases h
    · split at h
      · cases h
        exact ⟨m.temp, rfl⟩
      · split at h
        · cases h
        · cases h
  | init | halt | ret | memwrite | call | resource => cases hi

end

/-! ### What is said in a step -/

namespace Run

variable {W : Type} {p : Program} {types : Registry W} {r : Run W}

theorem exchanges_of_ended (h : r.ended p = true) : exchanges p types r = [] := by
  unfold exchanges
  rw [step_of_ended (show r.recorded.ended p = true from h)]
  rfl

theorem exchanges_of_instruction {i : Instruction} (hrunning : r.ended p = false)
    (hi : p.instructions[r.memory.programCounter]? = some i) :
    exchanges p types r = (execute p types.recorded i r.memory (r.world, [])).world.2 := by
  have hrecorded : r.recorded.ended p = false := hrunning
  unfold exchanges
  rw [step_of_instruction hrecorded hi]
  show (settle _ (execute p types.recorded i r.memory (r.world, [])) _).world.2 = _
  generalize execute p types.recorded i r.memory (r.world, []) = o
  obtain ⟨flow, m, w⟩ := o
  rcases flow with f | _ | a | _ <;> rfl

theorem exchanges_of_silent {i : Instruction} (hrunning : r.ended p = false)
    (hi : p.instructions[r.memory.programCounter]? = some i) (hsilent : i.isResourceOp = false) :
    exchanges p types r = [] := by
  rw [exchanges_of_instruction hrunning hi,
    execute_silent types types.recorded hsilent r.world (r.world, [])]

end Run

/-! ### The operation that comes next -/

/-- The staged resource is the one of a routine, or what it has put aside. -/
structure Staged.Serves {W : Type} (s : Staged W) (types : Registry W) (r : Resource) : Prop where
  typeId : s.typeId = r.typeId
  kind : types.get? r.typeId = some s.kind
  name : s.name = r.name ∨ s.name = deletable r.name

namespace Compilation

variable {plan : Plan}

/-- In a routine, the operation on the staged resource comes next. -/
structure Faces {W : Type} (c : Compilation plan) (types : Registry W) (k : Nat)
    (ra : Resource × Action) (routine : Routine) (before rest : List Instruction) (K : Known)
    (s : Staged W) (m : Memory) : Prop where
  inRoutine : c.InRoutine k ra routine before (.resource s.op :: rest) K m
  serves : s.Serves types ra.1
  named : m.temp.get? "resource_name" = some (.str s.name)
  keys : ∀ key ∈ (Instruction.resource s.op).requiredKeys, m.temp.contains key = true
  staged : Staged.ofMemory types s.op m = .ok s
  /-- Only the resource itself is compared. -/
  rescmp : s.op = .rescmp → s.name = ra.1.name

/-- What a step that does not stop a run does to the tables and to the world. -/
inductive Effect {W : Type} (c : Compilation plan) (types : Registry W) (r r' : Run W) :
    Place → Place → Prop
  | init : r'.memory.remoteIds = plan.prior.mapValues (fun _ t => t.remoteId) →
    r'.memory.outputs = Table.empty → r'.memory.decisions = Table.empty →
    r'.memory.deleted = [] → r'.world = r.world → Effect c types r r' .start (.driver 0)
  | quiet {place place' : Place} : c.Moves [] place place' → place ≠ .start →
    r.memory.SameTables r'.memory → r'.world = r.world → Effect c types r r' place place'
  /-- What is missing is forgotten. -/
  | forget {k : Nat} {ra : Resource × Action} {routine : Routine}
    {before rest : List Instruction} {K : Known} :
    c.InRoutine k ra routine before (.memwrite .null :: rest) K r.memory →
    routine = .missingCreate → K.records = ra.1.preceding plan.createMissing routine →
    c.Moves [] (.routine k ra routine before (.memwrite .null :: rest) K)
      (.routine k ra routine (before ++ [.memwrite .null]) rest K) →
    r'.memory.remoteIds = r.memory.remoteIds.erase ra.1.name →
    r'.memory.outputs = r.memory.outputs → r'.memory.decisions = r.memory.decisions →
    r'.memory.deleted = r.memory.deleted → r'.world = r.world →
    Effect c types r r' (.routine k ra routine before (.memwrite .null :: rest) K)
      (.routine k ra routine (before ++ [.memwrite .null]) rest K)
  | settle {k : Nat} {ra : Resource × Action} {routine : Routine} {d : Decision}
    {before rest : List Instruction} {K : Known} :
    c.InRoutine k ra routine before (.memwrite (.str d.text) :: rest) K r.memory →
    c.Moves [] (.routine k ra routine before (.memwrite (.str d.text) :: rest) K)
      (.routine k ra routine (before ++ [.memwrite (.str d.text)]) rest (K.decide [some d])) →
    r'.memory.remoteIds = r.memory.remoteIds →
    r'.memory.outputs = r.memory.outputs →
    r'.memory.decisions = r.memory.decisions.insert ra.1.name d →
    r'.memory.deleted = r.memory.deleted → r'.world = r.world →
    Effect c types r r' (.routine k ra routine before (.memwrite (.str d.text) :: rest) K)
      (.routine k ra routine (before ++ [.memwrite (.str d.text)]) rest (K.decide [some d]))
  | did {k : Nat} {ra : Resource × Action} {routine : Routine} {s : Staged W}
    {before rest : List Instruction} {K : Known} {m : Memory} :
    c.Faces types k ra routine before rest K s r.memory →
    c.Moves [s.op.record s.name] (.routine k ra routine before (.resource s.op :: rest) K)
      (.routine k ra routine (before ++ [.resource s.op]) rest (K.did s.op s.name)) →
    s.Performed c.program.tables.rom r.memory r.world m r'.world
      (Run.exchanges c.program types r) →
    r.memory.Beside ra.1.name m →
    r'.memory = { m with programCounter := r.memory.programCounter + 1 } →
    Effect c types r r' (.routine k ra routine before (.resource s.op :: rest) K)
      (.routine k ra routine (before ++ [.resource s.op]) rest (K.did s.op s.name))
  | wait {k : Nat} {ra : Resource × Action} {routine : Routine} {s : Staged W}
    {before rest : List Instruction} {K : Known} :
    c.Faces types k ra routine before rest K s r.memory → s.op.waits = true →
    r'.memory = r.memory →
    Effect c types r r' (.routine k ra routine before (.resource s.op :: rest) K)
      (.routine k ra routine before (.resource s.op :: rest) K)

section

variable {W : Type} {c : Compilation plan} {types : Registry W} {r : Run W} {k : Nat}
  {ra : Resource × Action} {routine : Routine} {i : Instruction}
  {before rest : List Instruction} {K K' : Known}

theorem exists_faces {op : ResourceOp}
    (htypes : ∀ t ∈ plan.declaration.catalog.keys, t ∈ types.keys)
    (h : c.InRoutine k ra routine before (.resource op :: rest) K r.memory)
    (ht : ra.1.Typed plan.createMissing routine K (.resource op) K') :
    ∃ s : Staged W, s.op = op ∧ c.Faces types k ra routine before rest K s r.memory ∧
      K' = K.did s.op s.name := by
  obtain ⟨kind, hkind⟩ := (supports c htypes h.planned).registered
  cases ht with
  | @operation name op hname htype hobjects hnames hrescmp =>
    refine ⟨⟨op, name, ra.1.typeId, kind⟩, rfl, ⟨h, ⟨rfl, hkind, hnames⟩, h.fits.text hname, ?_,
      ofMemory_eq h.fits hname htype hkind op, fun hop => (hrescmp hop).1⟩, rfl⟩
    intro key hkey
    rcases requiredKeys_resource hkey with rfl | rfl | hkey
    · exact h.fits.contains hname
    · exact h.fits.contains htype
    · exact h.fits.contains (hobjects key hkey)

theorem upcoming_of_faces {s : Staged W} {m : Memory}
    (h : c.Faces types k ra routine before rest K s m)
    (hrunning : m.halted c.program.size = false) :
    Run.upcoming c.program m = [s.op.record s.name] := by
  have hstaged : Run.stagedName m = s.name := by
    unfold Run.stagedName
    rw [h.named]
    rfl
  rw [Run.upcoming_of_instruction hrunning (instruction_routine h.inRoutine),
    Run.logged_resource, hstaged]

theorem execute_of_faces {s : Staged W} {m : Memory}
    (h : c.Faces types k ra routine before rest K s m) (w : W) :
    execute c.program types (.resource s.op) m w = s.perform c.program.tables.rom m w := by
  rw [execute_eq_perform h.keys]
  simp only [perform, h.staged]

/-- What is said in an operation is what its provider records. -/
theorem exchanges_of_faces {s : Staged W}
    (h : c.Faces types k ra routine before rest K s r.memory)
    (hrunning : r.ended c.program = false) :
    Run.exchanges c.program types r =
      (s.recorded.perform c.program.tables.rom r.memory (r.world, [])).world.2 := by
  rw [Run.exchanges_of_instruction hrunning (instruction_routine h.inRoutine),
    execute_eq_perform h.keys]
  simp only [perform, Staged.ofMemory_recorded, h.staged, Except.map]

theorem performed_of_faces {s : Staged W}
    (h : c.Faces types k ra routine before rest K s r.memory)
    (hrunning : r.ended c.program = false) {m : Memory} {w : W}
    (hexecute : execute c.program types (.resource s.op) r.memory r.world = .next m w) :
    s.Performed c.program.tables.rom r.memory r.world m w
      (Run.exchanges c.program types r) := by
  have hforget := (s.records_perform c.program.tables.rom r.memory (r.world, [])).forget
  rw [← execute_of_faces h, hexecute] at hforget
  rw [exchanges_of_faces h hrunning]
  generalize ho : s.recorded.perform c.program.tables.rom r.memory (r.world, []) = o at hforget
  obtain ⟨flow, m', w', es⟩ := o
  cases hforget
  exact Staged.performed ho rfl

theorem effect_of_next (htypes : ∀ t ∈ plan.declaration.catalog.keys, t ∈ types.keys)
    (hrunning : r.ended c.program = false)
    (h : c.InRoutine k ra routine before (i :: rest) K r.memory)
    (ht : ra.1.Typed plan.createMissing routine K i K') {m : Memory} {w : W}
    (hbeside : r.memory.Beside ra.1.name m)
    (hexecute : execute c.program types i r.memory r.world = .next m w) {log : List Operation} :
    c.Effect types r ⟨{ m with programCounter := r.memory.programCounter + 1 }, log, false, w⟩
      (.routine k ra routine before (i :: rest) K)
      (.routine k ra routine (before ++ [i]) rest K') := by
  have hworld : i.isResourceOp = false → w = r.world := by
    intro hsilent
    exact (congrArg Outcome.world hexecute).symm.trans (world_execute hsilent r.world)
  have hquiet : i.quiet = true → i.isResourceOp = false → K'.records = K.records ++ [] →
      c.Effect types r ⟨{ m with programCounter := r.memory.programCounter + 1 }, log, false, w⟩
        (.routine k ra routine before (i :: rest) K)
        (.routine k ra routine (before ++ [i]) rest K') := by
    intro hi hsilent hrecords
    obtain ⟨temp, rfl⟩ := temp_of_quiet hi hexecute
    exact .quiet (.next ht hrecords) nofun ⟨rfl, rfl, rfl, rfl⟩ (hworld hsilent)
  have hrecords := ht.records h.fits
  have hmoves : ∀ {logged : List Operation}, K'.records = K.records ++ logged →
      c.Moves logged (.routine k ra routine before (i :: rest) K)
        (.routine k ra routine (before ++ [i]) rest K') := fun h => .next ht h
  cases ht with
  | clear | key | text | fields | decision | compare | invert | test | branch =>
    exact hquiet rfl rfl hrecords
  | forget hroutine hpreceding htable hkey =>
    rw [Resource.execute_memwrite h.fits htable hkey rfl] at hexecute
    cases hexecute
    exact .forget h hroutine hpreceding (hmoves hrecords) rfl rfl rfl rfl rfl
  | settle d htable hkey hdecided =>
    have hwrite : r.memory.write "update_action" ra.1.name (.str d.text) =
        .ok { r.memory with decisions := r.memory.decisions.insert ra.1.name d } := by
      cases d <;> rfl
    rw [Resource.execute_memwrite h.fits htable hkey hwrite] at hexecute
    cases hexecute
    exact .settle h (hmoves hrecords) rfl rfl rfl rfl rfl
  | @operation name op hname htype hobjects hnames hrescmp =>
    obtain ⟨s, rfl, hfaces, hK⟩ :=
      exists_faces htypes h (.operation op hname htype hobjects hnames hrescmp)
    rw [hK] at hmoves ⊢
    have hperformed := performed_of_faces hfaces hrunning hexecute
    exact .did hfaces (hmoves (Known.records_did _ _ _)) hperformed hbeside rfl

/-- **What a step that does not stop a run does to the tables.** -/
theorem effect_of_executes (hd : c.Distinct)
    (htypes : ∀ t ∈ plan.declaration.catalog.keys, t ∈ types.keys) {place place' : Place}
    {r' : Run W} (h : c.Executes types r place place' r') (hstands : c.Stands r.memory place)
    (herror : r.memory.error = none) : c.Effect types r r' place place' := by
  have hrunning : place ≠ .halted → r.ended c.program = false := fun hplace =>
    running_of_stands hd hstands hplace herror
  cases h with
  | init => exact .init rfl rfl rfl rfl rfl
  | call hra hk => exact .quiet (.call hra hk) nofun ⟨rfl, rfl, rfl, rfl⟩ rfl
  | halt => exact .quiet .halt nofun ⟨rfl, rfl, rfl, rfl⟩ rfl
  | next h ht hbeside hexecute => exact effect_of_next htypes (hrunning nofun) h ht hbeside hexecute
  | jump h hpreceding hphase hexecute =>
    refine .quiet (.jump hpreceding hphase) nofun ⟨rfl, rfl, rfl, rfl⟩ ?_
    exact (congrArg Outcome.world hexecute).symm.trans (world_execute rfl r.world)
  | ret h hexit => exact .quiet (.ret hexit) nofun ⟨rfl, rfl, rfl, rfl⟩ rfl
  | wait h ht hwaits _ =>
    obtain ⟨s, rfl, hfaces, -⟩ := exists_faces htypes h ht
    exact .wait hfaces hwaits rfl

/-- An operation that comes next is done in a routine that has it before it. -/
theorem faces_of_instruction (hd : c.Distinct)
    (htypes : ∀ t ∈ plan.declaration.catalog.keys, t ∈ types.keys) {place : Place}
    (hstands : c.Stands r.memory place) (hrunning : r.ended c.program = false) {op : ResourceOp}
    (hi : c.program.instructions[r.memory.programCounter]? = some (.resource op)) :
    ∃ (k : Nat) (ra : Resource × Action) (routine : Routine) (before rest : List Instruction)
      (K : Known) (s : Staged W), s.op = op ∧
      place = .routine k ra routine before (.resource s.op :: rest) K ∧
        c.Faces types k ra routine before rest K s r.memory := by
  obtain ⟨k, ra, routine, before, rest, K, rfl⟩ :=
    routine_of_instruction hd hstands (ne_halted_of_running hstands hrunning) hi rfl
  have hroutine : c.InRoutine k ra routine before (.resource op :: rest) K r.memory := hstands
  cases hroutine.checked with
  | step ht _ =>
    obtain ⟨s, rfl, hfaces, -⟩ := exists_faces htypes hroutine ht
    exact ⟨k, ra, routine, before, rest, K, s, rfl, rfl, hfaces⟩

/-- **What is said in a step is said by the operation of a routine.** -/
theorem faces_of_said (hd : c.Distinct)
    (htypes : ∀ t ∈ plan.declaration.catalog.keys, t ∈ types.keys) {place : Place}
    (hstands : c.Stands r.memory place) (herror : r.memory.error = none) {e : Exchange}
    (he : e ∈ Run.exchanges c.program types r) :
    ∃ (k : Nat) (ra : Resource × Action) (routine : Routine) (before rest : List Instruction)
      (K : Known) (s : Staged W),
      place = .routine k ra routine before (.resource s.op :: rest) K ∧
        c.Faces types k ra routine before rest K s r.memory ∧ s.Says r.memory e := by
  have hplace : place ≠ .halted := by
    rintro rfl
    have hended : r.ended c.program = true := halted_of_stands hstands c.program.size
    rw [Run.exchanges_of_ended hended] at he
    cases he
  have hrunning : r.ended c.program = false := running_of_stands hd hstands hplace herror
  obtain ⟨i, hi, -, -⟩ := next_of_stands hd hstands hplace
  cases hop : i.isResourceOp with
  | false =>
    rw [Run.exchanges_of_silent hrunning hi hop] at he
    cases he
  | true =>
    cases i with
    | resource op =>
      obtain ⟨k, ra, routine, before, rest, K, s, rfl, rfl, hfaces⟩ :=
        faces_of_instruction hd htypes hstands hrunning hi
      refine ⟨k, ra, routine, before, rest, K, s, rfl, hfaces, ?_⟩
      rw [exchanges_of_faces hfaces hrunning] at he
      exact Staged.may_say rfl he
    | _ => cases hop

theorem mem_work_of_faces {s : Staged W} {m : Memory}
    (h : c.Faces types k ra routine before rest K s m)
    (hrunning : m.halted c.program.size = false) :
    ∃ d, (m.decisions.get? ra.1.name = none ∨ m.decisions.get? ra.1.name = d) ∧
      s.op.record s.name ∈ ra.1.work plan.createMissing ra.2 routine.phase d := by
  obtain ⟨step, hneeded⟩ := h.inRoutine.needed
  have haction : routine.action = ra.2 := Resource.action_of_mem hneeded
  obtain ⟨d, -, hvd, hprefix⟩ := begins_upcoming h.inRoutine hrunning _ h.inRoutine.fits.decided
  rw [upcoming_of_faces h hrunning, haction] at hprefix
  exact ⟨d, hvd, hprefix.subset (List.mem_append_right _ List.mem_cons_self)⟩

/-- An operation that comes next goes on with a word that is still possible. -/
theorem possible_of_faces (hd : c.Distinct) {s : Staged W}
    (h : c.Faces types k ra routine before rest K s r.memory) (herror : r.memory.error = none) :
    plan.Possible ra (r.memory.decisions.get? ra.1.name)
      (c.achieved (.routine k ra routine before (.resource s.op :: rest) K) ra
        (r.memory.decisions.get? ra.1.name) ++ [s.op.record s.name]) := by
  have hstands : c.Stands r.memory (.routine k ra routine before (.resource s.op :: rest) K) :=
    h.inRoutine
  have hpossible := possible_of_stands hd hstands herror h.inRoutine.planned
  have howner : c.layout.owner? r.memory.programCounter = some ra.1.name :=
    owner_of_stands hd hstands nofun
  have hupcoming : c.upcoming ra.1.name r.memory = [s.op.record s.name] := by
    unfold upcoming
    rw [if_pos howner, upcoming_of_faces h (running_of_stands hd hstands nofun herror)]
  rwa [hupcoming] at hpossible

end

end Compilation

end Provisioning
