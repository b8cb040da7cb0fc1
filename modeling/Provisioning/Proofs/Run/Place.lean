/-
Where a run stands.

Outside of subroutines the program counter says how many calls are made and the call stack is
empty.  Inside, the counter points into a body that compilation made for a resource, the
stack holds the call that led there, and the memory fits what is known at that instruction.
A jump leaves one body for another of the same resource and the same phase and keeps the
stack, so the return of the other goes back to the driver in place of the first.

A step moves from place to place, or waits where it is, or stops with a foreseen fault.
`Executes` lists all that a step can do when it does not stop, with the run that it leaves;
`executes` says that there is nothing else, for programs whose keys and labels are distinct.
`Moves` forgets the run and keeps the places and what is logged.
-/
import Provisioning.Proofs.Rom
import Provisioning.Proofs.Run.Calls
import Provisioning.Proofs.Run.Soundness

namespace Provisioning

/-! ### Places -/

/-- A place in the run of a compiled program. -/
inductive Place where
  /-- Before the first instruction. -/
  | start
  /-- In the driver, with `k` calls made. -/
  | driver (k : Nat)
  /-- In the routine that call `k` led to, with the instructions `before` executed and those
  of `rest` to come. -/
  | routine (k : Nat) (ra : Resource × Action) (routine : Routine)
    (before rest : List Instruction) (K : Known)
  /-- Behind the last instruction of the driver. -/
  | halted

namespace Compilation

variable {plan : Plan}

/-- The memory stands in the driver. -/
structure InDriver (c : Compilation plan) (k : Nat) (m : Memory) : Prop where
  le : k ≤ c.schedule.length
  programCounter : m.programCounter = k + 1
  callStack : m.callStack = []
  ended : m.ended = false
  distinct : m.temp.keys.Nodup
  decided : ∀ ra ∈ c.actions, m.decisions.get? ra.1.name ∈ c.expected k ra

/-- The memory stands in a routine. -/
structure InRoutine (c : Compilation plan) (k : Nat) (ra : Resource × Action) (routine : Routine)
    (before rest : List Instruction) (K : Known) (m : Memory) : Prop where
  planned : ra ∈ c.actions
  needed : ∃ step, (step, routine) ∈ Resource.routines ra.2 plan.createMissing
  scheduled : c.schedule[k]? = some (ra.1.name, routine.phase)
  body : (ra.1.piece plan.createMissing routine).body = before ++ rest
  programCounter : ∃ start, (ra.1.piece plan.createMissing routine, start) ∈ c.layout.placed ∧
    m.programCounter = start + before.length
  callStack : m.callStack = [k + 1]
  ended : m.ended = false
  checked : ra.1.Checked plan.createMissing routine K rest
  fits : K.Fits ra.1.name m
  /-- After the start of an update its decision is made. -/
  decided : routine.phase ≠ .start → ra.2 = .update → m.decisions.get? ra.1.name ≠ none
  others : ∀ rb ∈ c.actions, rb.1.name ≠ ra.1.name →
    m.decisions.get? rb.1.name ∈ c.expected k rb

/-- The memory stands at a place. -/
def Stands (c : Compilation plan) (m : Memory) : Place → Prop
  | .start => m = Memory.fresh
  | .driver k => c.InDriver k m
  | .routine k ra routine before rest K => c.InRoutine k ra routine before rest K m
  | .halted => m.ended = true ∧ m.callStack = [] ∧
      ∀ ra ∈ c.actions, m.decisions.get? ra.1.name ∈ c.expected c.schedule.length ra

/-- The moves of a run, each with what it logs. -/
inductive Moves (c : Compilation plan) : List Operation → Place → Place → Prop
  | init : Moves c [] .start (.driver 0)
  | call {k : Nat} {ra : Resource × Action} {phase : Phase} :
    ra ∈ c.actions → c.schedule[k]? = some (ra.1.name, phase) →
    Moves c [] (.driver k) (.routine k ra (Routine.forPhase ra.2 phase) []
      (ra.1.piece plan.createMissing (Routine.forPhase ra.2 phase)).body
      (ra.1.entry plan.createMissing (Routine.forPhase ra.2 phase)))
  | halt : Moves c [] (.driver c.schedule.length) .halted
  | next {k : Nat} {ra : Resource × Action} {routine : Routine} {i : Instruction}
    {before rest : List Instruction} {K K' : Known} {logged : List Operation} :
    ra.1.Typed plan.createMissing routine K i K' → K'.records = K.records ++ logged →
    Moves c logged (.routine k ra routine before (i :: rest) K)
      (.routine k ra routine (before ++ [i]) rest K')
  | jump {k : Nat} {ra : Resource × Action} {routine target : Routine}
    {before rest : List Instruction} {K : Known} :
    K.records = ra.1.preceding plan.createMissing target → target.phase = routine.phase →
    Moves c [] (.routine k ra routine before (.gotoIf (.label (target.label ra.1.name)) :: rest) K)
      (.routine k ra target [] (ra.1.piece plan.createMissing target).body
        (ra.1.entry plan.createMissing target))
  | ret {k : Nat} {ra : Resource × Action} {routine : Routine} {before : List Instruction}
    {K : Known} : ra.1.Exit plan.createMissing routine K →
    Moves c [] (.routine k ra routine before [.ret] K) (.driver (k + 1))

/-- What a step does that does not stop a run, with the places before and after it and the
run that it leaves. -/
inductive Executes {W : Type} (c : Compilation plan) (types : Registry W) (r : Run W) :
    Place → Place → Run W → Prop
  | init : Executes c types r .start (.driver 0)
      ⟨{ Memory.fresh.load c.program.tables with programCounter := 1 }, r.log, false, r.world⟩
  | call {k start : Nat} {ra : Resource × Action} {phase : Phase} :
    ra ∈ c.actions → c.schedule[k]? = some (ra.1.name, phase) →
    Executes c types r (.driver k) (.routine k ra (Routine.forPhase ra.2 phase) []
        (ra.1.piece plan.createMissing (Routine.forPhase ra.2 phase)).body
        (ra.1.entry plan.createMissing (Routine.forPhase ra.2 phase)))
      ⟨{ r.memory with programCounter := start, callStack := [k + 1] }, r.log, false, r.world⟩
  | halt : Executes c types r (.driver c.schedule.length) .halted
      ⟨{ r.memory with ended := true, programCounter := c.schedule.length + 2 }, r.log, false,
        r.world⟩
  | next {k : Nat} {ra : Resource × Action} {routine : Routine} {i : Instruction}
    {before rest : List Instruction} {K K' : Known} {m : Memory} {w : W} :
    c.InRoutine k ra routine before (i :: rest) K r.memory →
    ra.1.Typed plan.createMissing routine K i K' → r.memory.Beside ra.1.name m →
    execute c.program types i r.memory r.world = .next m w →
    Executes c types r (.routine k ra routine before (i :: rest) K)
      (.routine k ra routine (before ++ [i]) rest K')
      ⟨{ m with programCounter := r.memory.programCounter + 1 },
        r.log ++ Run.logged i r.memory, false, w⟩
  | jump {k a : Nat} {ra : Resource × Action} {routine target : Routine}
    {before rest : List Instruction} {K : Known} {w : W} :
    c.InRoutine k ra routine before (.gotoIf (.label (target.label ra.1.name)) :: rest) K
      r.memory →
    K.records = ra.1.preceding plan.createMissing target → target.phase = routine.phase →
    execute c.program types (.gotoIf (.label (target.label ra.1.name))) r.memory r.world =
      ⟨.ok (.jump a), r.memory, w⟩ →
    Executes c types r
      (.routine k ra routine before (.gotoIf (.label (target.label ra.1.name)) :: rest) K)
      (.routine k ra target [] (ra.1.piece plan.createMissing target).body
        (ra.1.entry plan.createMissing target))
      ⟨{ r.memory with programCounter := a }, r.log, false, w⟩
  | ret {k : Nat} {ra : Resource × Action} {routine : Routine} {before : List Instruction}
    {K : Known} :
    c.InRoutine k ra routine before [.ret] K r.memory →
    ra.1.Exit plan.createMissing routine K →
    Executes c types r (.routine k ra routine before [.ret] K) (.driver (k + 1))
      ⟨{ r.memory with programCounter := k + 2, callStack := [] }, r.log, false, r.world⟩
  /-- The place and the memory stay. -/
  | wait {k : Nat} {ra : Resource × Action} {routine : Routine} {op : ResourceOp}
    {before rest : List Instruction} {K K' : Known} {w : W} :
    c.InRoutine k ra routine before (.resource op :: rest) K r.memory →
    ra.1.Typed plan.createMissing routine K (.resource op) K' → op.waits = true →
    execute c.program types (.resource op) r.memory r.world = ⟨.ok .stay, r.memory, w⟩ →
    Executes c types r (.routine k ra routine before (.resource op :: rest) K)
      (.routine k ra routine before (.resource op :: rest) K)
      ⟨r.memory, r.log ++ Run.logged (.resource op) r.memory, true, w⟩

/-- What a step does that stops a run. -/
inductive Stops {W : Type} (c : Compilation plan) (types : Registry W) (r : Run W) :
    Place → Run W → Prop
  | fault {k : Nat} {ra : Resource × Action} {routine : Routine} {i : Instruction}
    {before rest : List Instruction} {K K' : Known} {f : Fault} {temp : Properties} {w : W} :
    c.InRoutine k ra routine before (i :: rest) K r.memory →
    ra.1.Typed plan.createMissing routine K i K' →
    ra.1.Foils c.program routine i r.memory f →
    execute c.program types i r.memory r.world = .fault f { r.memory with temp } w →
    Stops c types r (.routine k ra routine before (i :: rest) K)
      ⟨{ r.memory with temp, error := some f }, r.log ++ Run.logged i r.memory, false, w⟩

/-- What one step does to a run that stands at a place. -/
inductive Stepped {W : Type} (c : Compilation plan) (place : Place) (r r' : Run W) : Prop
  /-- It moves, and what was decided stays decided. -/
  | moved {logged : List Operation} {place' : Place} : c.Moves logged place place' →
    c.Stands r'.memory place' → r'.memory.error = none → r'.log = r.log ++ logged →
    (∀ n d, r.memory.decisions.get? n = some d → r'.memory.decisions.get? n = some d) →
    Stepped c place r r'
  /-- It waits: nothing but the log changes. -/
  | waited {op : ResourceOp} {name : String} : op.waits = true →
    r'.memory = r.memory → r'.log = r.log ++ [op.record name] → Stepped c place r r'
  /-- It stops. -/
  | stopped {f : Fault} {temp : Properties} : f.foreseen = true →
    r'.memory = { r.memory with temp, error := some f } → Stepped c place r r'

/-! ### What the program provides -/

theorem foreseen_outputValue {m : Memory} {o : OutputRef} {f : Fault}
    (h : m.outputValue o = .error f) : f.foreseen = true := by
  unfold Memory.outputValue at h
  split at h
  · cases h
  · split at h
    · cases h
      rfl
    · cases h

theorem supports (c : Compilation plan) {W : Type} {types : Registry W}
    (htypes : ∀ t ∈ plan.declaration.catalog.keys, t ∈ types.keys) {ra : Resource × Action}
    (hra : ra ∈ c.actions) : c.program.Supports types ra.1 ra.2 where
  registered := by
    have hmem := htypes _ (Table.mem_keys_of_get? (c.planned hra).typed)
    obtain ⟨e, he, heq⟩ := List.mem_map.1 hmem
    exact ⟨e.2, Table.get?_eq_some_iff.2 (by rw [← heq]; exact he)⟩
  stored haction m := by
    rcases Plan.resolve_declared c.rom_eq ((c.planned hra).declared haction) m.outputValue with
      hok | ⟨o, f, -, ho, herror⟩
    · exact .inl hok
    · exact .inr ⟨f, foreseen_outputValue ho, herror⟩

theorem supports_routine {c : Compilation plan} {W : Type} {types : Registry W}
    (htypes : ∀ t ∈ plan.declaration.catalog.keys, t ∈ types.keys) {k : Nat}
    {ra : Resource × Action} {routine : Routine} {before rest : List Instruction} {K : Known}
    {m : Memory} (h : c.InRoutine k ra routine before rest K m) :
    c.program.Supports types ra.1 routine.action := by
  obtain ⟨step, hneeded⟩ := h.needed
  rw [Resource.action_of_mem hneeded]
  exact supports c htypes h.planned

theorem label_eq {c : Compilation plan} (h : c.Distinct) {ra : Resource × Action}
    (hra : ra ∈ c.actions) {e : String × Routine}
    (he : e ∈ Resource.routines ra.2 plan.createMissing) :
    ∃ start, (ra.1.piece plan.createMissing e.2, start) ∈ c.layout.placed ∧
      c.program.label (e.2.label ra.1.name) = .ok start := by
  obtain ⟨start, hstart⟩ := Layout.exists_placed (l := c.layout) (piece_mem_values h.keys hra he)
  refine ⟨start, hstart, ?_⟩
  have hget : c.program.tables.labels.get? (e.2.label ra.1.name) = some start :=
    Layout.get?_label (labels_nodup h) hstart
  unfold Program.label
  rw [hget]

/-! ### One step -/

section

variable {W : Type} {types : Registry W} {r : Run W}

theorem step_eq {p : Program} {i : Instruction} (hended : r.memory.ended = false)
    (herror : r.memory.error = none) (hi : p.instructions[r.memory.programCounter]? = some i) :
    r.step p types = Run.settle (r.log ++ Run.logged i r.memory)
      (execute p types i r.memory r.world) r.memory.programCounter := by
  have hlt : r.memory.programCounter < p.size := (List.getElem?_eq_some_iff.1 hi).1
  have hrunning : r.ended p = false := by
    unfold Run.ended Memory.halted
    rw [hended, herror]
    simpa using hlt
  exact Run.step_of_instruction hrunning hi

variable {c : Compilation plan}

/-- The step of a run leads from a place on. -/
def Continues (c : Compilation plan) (types : Registry W) (r : Run W) (place : Place) : Prop :=
  ∃ place', c.Executes types r place place' (r.step c.program types) ∧
    c.Stands (r.step c.program types).memory place' ∧
    (r.step c.program types).memory.error = none

theorem continues_start (h : c.Stands r.memory .start) : c.Continues types r .start := by
  have hfresh : r.memory = Memory.fresh := h
  have hstep : r.step c.program types =
      ⟨{ Memory.fresh.load c.program.tables with programCounter := 1 }, r.log, false, r.world⟩ := by
    rw [step_eq (i := .init) (by rw [hfresh]; rfl) (by rw [hfresh]; rfl)
      (by rw [hfresh]; exact c.instruction_init), hfresh]
    show Run.mk _ (r.log ++ []) _ _ = _
    rw [List.append_nil]
    rfl
  unfold Continues
  rw [hstep]
  refine ⟨_, .init, ⟨Nat.zero_le _, rfl, rfl, rfl, List.nodup_nil, fun ra _ => ?_⟩, rfl⟩
  rw [expected_zero]
  exact List.mem_singleton.2 rfl

theorem continues_call (hd : c.Distinct) {k : Nat} (h : c.InDriver k r.memory)
    (herror : r.memory.error = none) {ra : Resource × Action} (hra : ra ∈ c.actions)
    {phase : Phase} (hk : c.schedule[k]? = some (ra.1.name, phase)) :
    c.Continues types r (.driver k) := by
  have hneeded := phase_mem_routines ra.2 plan.createMissing phase
  obtain ⟨start, hstart, hlabel⟩ := label_eq hd hra hneeded
  have hi : c.program.instructions[r.memory.programCounter]? =
      some (.call ((Routine.forPhase ra.2 phase).label ra.1.name)) := by
    rw [h.programCounter]
    exact instruction_call hd.keys hra hk
  have hstep : r.step c.program types = ⟨{ r.memory with
      programCounter := start, callStack := [k + 1] }, r.log, false, r.world⟩ := by
    rw [step_eq h.ended herror hi, execute_eq_perform (by simp [Instruction.requiredKeys]),
      perform]
    simp only at hlabel
    rw [hlabel, h.callStack, h.programCounter]
    show Run.mk _ (r.log ++ []) _ _ = _
    rw [List.append_nil]
    rfl
  have hfits : (ra.1.entry plan.createMissing (Routine.forPhase ra.2 phase)).Fits ra.1.name
      r.memory := by
    refine ra.1.fits_entry h.distinct ?_
    rw [presumed_forPhase hk]
    exact h.decided ra hra
  unfold Continues
  rw [hstep]
  refine ⟨_, .call hra hk, ?_, herror⟩
  refine ⟨hra, ⟨_, hneeded⟩, ?_, rfl, ⟨start, hstart, rfl⟩, rfl, h.ended,
    Resource.checked_body hneeded, hfits.congr rfl rfl, ?_, fun rb hrb _ => h.decided rb hrb⟩
  · rw [phase_forPhase]
    exact hk
  · intro hphase haction
    rw [phase_forPhase] at hphase
    exact ne_none_of_expected (fun hpast => hphase ((past_eq_nil_iff hk).1 hpast)) haction
      (h.decided ra hra)

theorem continues_halt (hd : c.Distinct) (h : c.InDriver c.schedule.length r.memory)
    (herror : r.memory.error = none) : c.Continues types r (.driver c.schedule.length) := by
  have hi : c.program.instructions[r.memory.programCounter]? = some .halt := by
    rw [h.programCounter]
    exact instruction_halt hd.keys
  have hstep : r.step c.program types = ⟨{ r.memory with
      ended := true, programCounter := c.schedule.length + 2 }, r.log, false, r.world⟩ := by
    rw [step_eq h.ended herror hi, h.programCounter]
    show Run.mk _ (r.log ++ []) _ _ = _
    rw [List.append_nil]
    rfl
  unfold Continues
  rw [hstep]
  exact ⟨_, .halt, ⟨rfl, h.callStack, h.decided⟩, herror⟩

/-- What is scheduled is a call for a resource of the plan. -/
theorem exists_call {k : Nat} (hk : k < c.schedule.length) :
    ∃ ra ∈ c.actions, ∃ phase, c.schedule[k]? = some (ra.1.name, phase) := by
  have hget : c.schedule[k]? = some c.schedule[k] := List.getElem?_eq_getElem hk
  obtain ⟨ra, hra, hname⟩ := List.mem_map.1 (mem_schedule.1 (List.mem_of_getElem? hget))
  refine ⟨ra, hra, c.schedule[k].2, ?_⟩
  rw [hget, hname]
  rfl

theorem continues_driver (hd : c.Distinct) {k : Nat} (h : c.InDriver k r.memory)
    (herror : r.memory.error = none) : c.Continues types r (.driver k) := by
  rcases Nat.lt_or_eq_of_le h.le with hlt | rfl
  · obtain ⟨ra, hra, phase, hcall⟩ := exists_call hlt
    exact continues_call hd h herror hra hcall
  · exact continues_halt hd h herror

theorem phase_of_target {routine target : Routine} {createMissing : Bool}
    (h : target ∈ routine.targets createMissing) : target.phase = routine.phase := by
  revert target
  cases routine <;> cases createMissing <;> decide

/-- The instruction to be executed next in a routine. -/
theorem instruction_routine {k : Nat} {ra : Resource × Action} {routine : Routine}
    {i : Instruction} {before rest : List Instruction} {K : Known} {m : Memory}
    (h : c.InRoutine k ra routine before (i :: rest) K m) :
    c.program.instructions[m.programCounter]? = some i := by
  obtain ⟨start, hstart, hcounter⟩ := h.programCounter
  rw [hcounter]
  exact Layout.getElem?_of_body hstart h.body

/-- A jump leads to a target of its routine. -/
theorem target_of_gotoIf {k : Nat} {ra : Resource × Action} {routine target : Routine}
    {before rest : List Instruction} {K : Known} {m : Memory}
    (h : c.InRoutine k ra routine before
      (.gotoIf (.label (target.label ra.1.name)) :: rest) K m) :
    target ∈ routine.targets plan.createMissing := by
  have hmem : Instruction.gotoIf (.label (target.label ra.1.name)) ∈
      (ra.1.piece plan.createMissing routine).body := by
    rw [h.body]
    simp
  obtain ⟨branch, hbranch, hlabel⟩ := Resource.gotoIf_mem_body.1 hmem
  obtain rfl : target = branch := Routine.label_left_inj (Target.label.inj hlabel)
  exact hbranch

/-- A jump leads to a routine that the resource needs, in the same phase. -/
theorem needed_of_gotoIf {k : Nat} {ra : Resource × Action} {routine target : Routine}
    {before rest : List Instruction} {K : Known} {m : Memory}
    (h : c.InRoutine k ra routine before
      (.gotoIf (.label (target.label ra.1.name)) :: rest) K m) :
    (target.text, target) ∈ Resource.routines ra.2 plan.createMissing ∧
      target.phase = routine.phase := by
  obtain ⟨step, hneeded⟩ := h.needed
  exact ⟨Resource.mem_routines_of_target hneeded (target_of_gotoIf h),
    phase_of_target (target_of_gotoIf h)⟩

theorem continues_ret {k : Nat} {ra : Resource × Action} {routine : Routine}
    {before : List Instruction} {K : Known} (h : c.InRoutine k ra routine before [.ret] K r.memory)
    (hexit : ra.1.Exit plan.createMissing routine K) (herror : r.memory.error = none) :
    c.Continues types r (.routine k ra routine before [.ret] K) := by
  obtain ⟨step, hneeded⟩ := h.needed
  have haction : routine.action = ra.2 := Resource.action_of_mem hneeded
  have hlt : k < c.schedule.length := (List.getElem?_eq_some_iff.1 h.scheduled).1
  have hstep : r.step c.program types = ⟨{ r.memory with
      programCounter := k + 2, callStack := [] }, r.log, false, r.world⟩ := by
    rw [step_eq h.ended herror (instruction_routine h),
      execute_eq_perform (by simp [Instruction.requiredKeys]), perform, h.callStack]
    show Run.mk _ (r.log ++ []) _ _ = _
    rw [List.append_nil]
    rfl
  unfold Continues
  rw [hstep]
  refine ⟨_, .ret h hexit, ⟨hlt, rfl, rfl, h.ended, h.fits.distinct, ?_⟩, herror⟩
  intro rb hrb
  show r.memory.decisions.get? rb.1.name ∈ _
  by_cases hname : rb.1.name = ra.1.name
  · obtain rfl := eq_of_name_eq hrb h.planned hname
    rw [expected_succ h.scheduled, ← haction]
    exact hexit.decided _ h.fits.decided
  · rw [expected_succ_of_ne h.scheduled (Ne.symm hname)]
    exact h.others rb hrb hname

section

variable {k : Nat} {ra : Resource × Action} {routine : Routine} {i : Instruction}
  {before rest : List Instruction} {K K' : Known} {m m' : Memory}

theorem inRoutine_next (h : c.InRoutine k ra routine before (i :: rest) K m)
    (hrest : ra.1.Checked plan.createMissing routine K' rest) (hfits : K'.Fits ra.1.name m')
    (hbeside : m.Beside ra.1.name m') :
    c.InRoutine k ra routine (before ++ [i]) rest K'
      { m' with programCounter := m.programCounter + 1 } := by
  obtain ⟨start, hstart, hcounter⟩ := h.programCounter
  refine ⟨h.planned, h.needed, h.scheduled, ?_, ⟨start, hstart, ?_⟩,
    hbeside.callStack.trans h.callStack, hbeside.ended.trans h.ended, hrest,
    hfits.congr rfl rfl, ?_, ?_⟩
  · rw [h.body, List.append_assoc]
    rfl
  · show m.programCounter + 1 = _
    rw [hcounter, List.length_append, List.length_singleton, Nat.add_assoc]
  · intro hphase haction hnone
    obtain ⟨d, hd⟩ := Option.ne_none_iff_exists'.1 (h.decided hphase haction)
    exact absurd ((hbeside.kept d hd).symm.trans hnone) nofun
  · intro rb hrb hne
    show m'.decisions.get? rb.1.name ∈ _
    rw [hbeside.others _ hne]
    exact h.others rb hrb hne

theorem inRoutine_jump (hd : c.Distinct) {target : Routine}
    (h : c.InRoutine k ra routine before
      (.gotoIf (.label (target.label ra.1.name)) :: rest) K m) {a : Nat}
    (hlabel : c.program.label (target.label ra.1.name) = .ok a)
    (hfits : (ra.1.entry plan.createMissing target).Fits ra.1.name m) :
    c.InRoutine k ra target [] (ra.1.piece plan.createMissing target).body
      (ra.1.entry plan.createMissing target) { m with programCounter := a } := by
  obtain ⟨hneeded, hphase⟩ := needed_of_gotoIf h
  obtain ⟨start, hstart, hlabel'⟩ := label_eq hd h.planned hneeded
  obtain rfl : a = start := Except.ok.inj (hlabel.symm.trans hlabel')
  refine ⟨h.planned, ⟨_, hneeded⟩, ?_, rfl, ⟨a, hstart, rfl⟩, h.callStack, h.ended,
    Resource.checked_body hneeded, hfits.congr rfl rfl, ?_, h.others⟩
  · rw [hphase]
    exact h.scheduled
  · rw [hphase]
    exact h.decided

/-- A step inside a routine goes on, jumps, waits or stops. -/
theorem executes_typed (hd : c.Distinct)
    (htypes : ∀ t ∈ plan.declaration.catalog.keys, t ∈ types.keys)
    (h : c.InRoutine k ra routine before (i :: rest) K r.memory)
    (ht : ra.1.Typed plan.createMissing routine K i K')
    (hrest : ra.1.Checked plan.createMissing routine K' rest)
    (herror : r.memory.error = none) :
    c.Continues types r (.routine k ra routine before (i :: rest) K) ∨
      c.Stops types r (.routine k ra routine before (i :: rest) K) (r.step c.program types) := by
  have hsupports := supports_routine htypes h
  have hlabel : ∀ target : Routine, i = .gotoIf (.label (target.label ra.1.name)) →
      ∃ a, c.program.label (target.label ra.1.name) = .ok a := by
    rintro target rfl
    obtain ⟨start, -, hlabel⟩ := label_eq hd h.planned (needed_of_gotoIf h).1
    exact ⟨start, hlabel⟩
  have hsound := ht.sound (w := r.world) h.fits hsupports hlabel
  unfold Continues
  rw [step_eq h.ended herror (instruction_routine h)]
  generalize hexecute : execute c.program types i r.memory r.world = o at hsound
  obtain ⟨flow, m, w⟩ := o
  rcases flow with f | _ | a | _
  · obtain ⟨hf, temp, rfl⟩ := hsound.fault f rfl
    exact .inr (.fault h ht hf hexecute)
  · obtain ⟨hfits, hbeside⟩ := hsound.next rfl
    exact .inl ⟨_, .next h ht hbeside hexecute, inRoutine_next h hrest hfits hbeside,
      hbeside.error.trans herror⟩
  · obtain ⟨⟨target, rfl, hlabel, hfits, hpreceding⟩, rfl⟩ := hsound.jump a rfl
    have hlog : r.log ++ Run.logged (.gotoIf (.label (target.label ra.1.name))) r.memory = r.log :=
      List.append_nil _
    rw [hlog]
    exact .inl ⟨_, .jump h hpreceding (needed_of_gotoIf h).2 hexecute,
      inRoutine_jump hd h hlabel hfits, herror⟩
  · obtain ⟨⟨op, rfl, hwaits⟩, rfl⟩ := hsound.stay rfl
    exact .inl ⟨_, .wait h ht hwaits hexecute, h, herror⟩

end

/-- **A step of a run that stands at a place goes on as the routines say, or stops with a
foreseen fault.** -/
theorem executes (hd : c.Distinct) (htypes : ∀ t ∈ plan.declaration.catalog.keys, t ∈ types.keys)
    {place : Place} (h : c.Stands r.memory place) (hplace : place ≠ .halted)
    (herror : r.memory.error = none) :
    c.Continues types r place ∨ c.Stops types r place (r.step c.program types) := by
  cases place with
  | start => exact .inl (continues_start h)
  | driver k => exact .inl (continues_driver hd h herror)
  | routine k ra routine before rest K =>
    have hroutine : c.InRoutine k ra routine before rest K r.memory := h
    cases hroutine.checked with
    | ret hexit => exact .inl (continues_ret h hexit herror)
    | step ht hrest => exact executes_typed hd htypes h ht hrest herror
  | halted => exact absurd rfl hplace

theorem Executes.stepped {place place' : Place} {r' : Run W}
    (h : c.Executes types r place place' r') (hstands : c.Stands r.memory place)
    (hstands' : c.Stands r'.memory place') (herror' : r'.memory.error = none) :
    c.Stepped place r r' := by
  cases h with
  | init =>
    have hfresh : r.memory = Memory.fresh := hstands
    refine .moved .init hstands' herror' (List.append_nil _).symm ?_
    rw [hfresh]
    nofun
  | call hra hk =>
    exact .moved (.call hra hk) hstands' herror' (List.append_nil _).symm fun _ _ hdec => hdec
  | halt => exact .moved .halt hstands' herror' (List.append_nil _).symm fun _ _ hdec => hdec
  | next hroutine ht hbeside _ =>
    exact .moved (.next ht (ht.records hroutine.fits)) hstands' herror' rfl
      fun n d hdec => hbeside.decision hdec
  | jump _ hpreceding hphase _ =>
    exact .moved (.jump hpreceding hphase) hstands' herror' (List.append_nil _).symm
      fun _ _ hdec => hdec
  | ret _ hexit =>
    exact .moved (.ret hexit) hstands' herror' (List.append_nil _).symm fun _ _ hdec => hdec
  | wait _ _ hwaits _ =>
    rw [Run.logged_resource]
    exact .waited hwaits rfl rfl

/-- **A step of a run that stands at a place moves as the routines say, or waits, or stops
with a foreseen fault.** -/
theorem stepped (hd : c.Distinct) (htypes : ∀ t ∈ plan.declaration.catalog.keys, t ∈ types.keys)
    {place : Place} (h : c.Stands r.memory place) (hplace : place ≠ .halted)
    (herror : r.memory.error = none) : c.Stepped place r (r.step c.program types) := by
  rcases executes hd htypes h hplace herror with ⟨place', hexecutes, hstands', herror'⟩ | hstops
  · exact hexecutes.stepped h hstands' herror'
  · generalize r.step c.program types = r' at hstops
    cases hstops with
    | fault hroutine _ hf _ =>
      exact .stopped (Resource.foreseen_of_foils hf (supports_routine htypes hroutine)) rfl

end

end Compilation

end Provisioning
