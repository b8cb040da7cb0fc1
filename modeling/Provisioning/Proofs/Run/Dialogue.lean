/-
What is said to the providers.

The log of a run tells what the run does, but not what it is answered.  Any registry can be
made to record: its providers answer as before and keep a list of what they were asked and
what they answered beside the world.  Forgetting the list gives the run against the registry
itself, so what is recorded is what is said in that run; `forget_step` says so for a step.

An operation says little.  It speaks of one object only, the one of the identifier that is
tracked under the staged name, and of that it asks only what its purpose needs.
-/
import Provisioning.Proofs.Run.Trace

namespace Provisioning

/-- A request with its answer. -/
structure Exchange where
  /-- The type whose provider was asked. -/
  typeId : String
  /-- The identifier of the object, if it was known. -/
  id : Option Json
  request : Request
  answer : Except String request.Answer

/-! ### Recording -/

section

variable {W : Type}

/-- The provider with a record of what it is asked. -/
def Provider.recorded (p : Provider W) (typeId : String) : Provider (W × List Exchange) where
  ask id r w :=
    let answered := p.ask id r w.1
    (answered.1, answered.2, w.2 ++ [⟨typeId, id, r, answered.1⟩])

/-- The type with a provider that records. -/
def Kind.recorded (k : Kind W) (typeId : String) : Kind (W × List Exchange) where
  schema := k.schema
  provider := k.provider.map (·.recorded typeId)

/-- The registry with providers that record. -/
def Registry.recorded (types : Registry W) : Registry (W × List Exchange) :=
  types.mapValues fun typeId k => k.recorded typeId

/-- The staged resource with a provider that records. -/
def Staged.recorded (s : Staged W) : Staged (W × List Exchange) :=
  ⟨s.op, s.name, s.typeId, s.kind.recorded s.typeId⟩

/-- The outcome without the record. -/
def Outcome.forget (o : Outcome (W × List Exchange)) : Outcome W := ⟨o.flow, o.memory, o.world.1⟩

namespace Run

/-- The run with an empty record. -/
def recorded (r : Run W) : Run (W × List Exchange) := ⟨r.memory, r.log, r.waiting, (r.world, [])⟩

/-- The run without the record. -/
def forget (r : Run (W × List Exchange)) : Run W := ⟨r.memory, r.log, r.waiting, r.world.1⟩

@[simp] theorem forget_recorded (r : Run W) : r.recorded.forget = r := rfl

/-- What is said to the providers in the next step. -/
def exchanges (p : Program) (types : Registry W) (r : Run W) : List Exchange :=
  (r.recorded.step p types.recorded).world.2

/-- The next step is logged as `o`, and in it `e` is said. -/
structure Hears (p : Program) (types : Registry W) (r : Run W) (o : Operation) (e : Exchange) :
    Prop where
  logged : upcoming p r.memory = [o]
  said : e ∈ exchanges p types r

end Run

end

/-! ### Forgetting -/

namespace ResourceOp

/-- Whether the operation may make the request. -/
def asks : ResourceOp → Request → Bool
  | .create, .create _ | .read, .read _ | .read, .outputs | .update, .read _
  | .update, .update _ | .delete, .delete | .checkCreate, .complete .create
  | .checkCreate, .outputs | .checkUpdate, .complete .update | .checkUpdate, .outputs
  | .checkDelete, .deleteComplete | .checkExist, .found => true
  | _, _ => false

end ResourceOp

namespace Staged

variable {W : Type} {s : Staged W} {rom : Rom} {m : Memory} {w : W × List Exchange}

/-- The identifier of the object that the operation speaks of. -/
def handle (s : Staged W) (m : Memory) : Option Json :=
  if s.op = .create then none else m.remoteId s.name

/-- What the operation may say. -/
structure Says (s : Staged W) (m : Memory) (e : Exchange) : Prop where
  typeId : e.typeId = s.typeId
  id : e.id = s.handle m
  request : s.op.asks e.request = true

/-- An outcome is another one with a record, in which nothing but what was said before and
what the operation may say. -/
structure Records (s : Staged W) (m : Memory) (before : List Exchange)
    (o' : Outcome (W × List Exchange)) (o : Outcome W) : Prop where
  forget : o'.forget = o
  said : ∀ e ∈ o'.world.2, e ∈ before ∨ s.Says m e

theorem handle_of_ne (hop : s.op ≠ .create) : s.handle m = m.remoteId s.name := if_neg hop

@[simp] theorem op_recorded (s : Staged W) : s.recorded.op = s.op := rfl

@[simp] theorem name_recorded (s : Staged W) : s.recorded.name = s.name := rfl

@[simp] theorem schema_recorded (s : Staged W) : s.recorded.kind.schema = s.kind.schema := rfl

@[simp] theorem mutableOnly_recorded (s : Staged W) (properties : Properties) :
    s.recorded.mutableOnly properties = s.mutableOnly properties := rfl

@[simp] theorem provider_recorded (s : Staged W) :
    s.recorded.provider = s.provider.map (·.recorded s.typeId) := by
  unfold provider Kind.provides recorded Kind.recorded
  cases s.kind.provider <;> rfl

section

variable {before : List Exchange}

theorem records_of_said (hw : ∀ e ∈ w.2, e ∈ before ∨ s.Says m e) {flow : Except Fault Flow}
    {m' : Memory} : s.Records m before ⟨flow, m', w⟩ ⟨flow, m', w.1⟩ :=
  ⟨rfl, hw⟩

/-- What is asked is answered as before, and recorded. -/
theorem ask_recorded (p : Provider W) {id : Option Json} {r : Request}
    (hw : ∀ e ∈ w.2, e ∈ before ∨ s.Says m e) (hid : id = s.handle m)
    (hr : s.op.asks r = true) :
    ∃ a, ∃ w' : W × List Exchange, s.recorded.ask (p.recorded s.typeId) id r w = (a, w') ∧
      s.ask p id r w.1 = (a, w'.1) ∧ ∀ e ∈ w'.2, e ∈ before ∨ s.Says m e := by
  refine ⟨(s.ask p id r w.1).1, ((s.ask p id r w.1).2,
    w.2 ++ [⟨s.typeId, id, r, (p.ask id r w.1).1⟩]), ?_, rfl, ?_⟩
  · unfold ask Provider.recorded
    dsimp only
    rcases p.ask id r w.1 with ⟨_ | _, _⟩ <;> rfl
  · intro e he
    rcases List.mem_append.1 he with he | he
    · exact hw e he
    · obtain rfl := List.mem_singleton.1 he
      exact .inr ⟨rfl, hid, hr⟩

/-! ### One operation after the other -/

theorem prepareCreate_recorded (s : Staged W) (m : Memory) :
    s.recorded.prepareCreate m =
      (s.prepareCreate m).map fun x => (x.1, x.2.recorded s.typeId) := by
  unfold prepareCreate
  rw [provider_recorded]
  show (m.requireObject s.op.name "properties" >>= _) = _
  cases m.requireObject s.op.name "properties" with
  | error f => rfl
  | ok properties =>
    show (if s.kind.schema.needsRemoteId && (m.remoteId s.name).isSome then
        Except.error (Fault.remoteIdAlreadySet s.name) else _) =
      Except.map _ (if s.kind.schema.needsRemoteId && (m.remoteId s.name).isSome then
        Except.error (Fault.remoteIdAlreadySet s.name) else _)
    split
    · rfl
    · cases s.provider <;> rfl

theorem records_create (hop : s.op = .create) (hw : ∀ e ∈ w.2, e ∈ before ∨ s.Says m e) :
    s.Records m before (s.recorded.create m w) (s.create m w.1) := by
  have hhandle : none = s.handle m := (if_pos hop).symm
  unfold create
  rw [prepareCreate_recorded]
  rcases s.prepareCreate m with f | ⟨properties, p⟩
  · exact records_of_said hw
  obtain ⟨a, w', hask', hask, hw⟩ := ask_recorded (r := .create properties) p hw hhandle
    (by rw [hop]; rfl)
  simp only [Except.map, hask', hask, schema_recorded, name_recorded]
  rcases a with f | id
  · exact records_of_said hw
  · show s.Records m before (if s.kind.schema.needsRemoteId && Option.isNone id then _ else _)
      (if s.kind.schema.needsRemoteId && Option.isNone id then _ else _)
    split
    · exact records_of_said hw
    · exact records_of_said hw

theorem records_read (hop : s.op = .read) (hw : ∀ e ∈ w.2, e ∈ before ∨ s.Says m e) :
    s.Records m before (s.recorded.read m w) (s.read m w.1) := by
  have hhandle : m.remoteId s.name = s.handle m := (handle_of_ne (by rw [hop]; nofun)).symm
  unfold read
  simp only [provider_recorded, schema_recorded, name_recorded]
  rcases s.provider with f | p
  · exact records_of_said hw
  obtain ⟨a, w', hask', hask, hw⟩ := ask_recorded (r := .read s.kind.schema.readable) p hw hhandle
    (by rw [hop]; rfl)
  simp only [Except.map, hask', hask]
  rcases a with f | found
  · exact records_of_said hw
  show s.Records m before (if s.kind.schema.outputs.isEmpty then _ else _)
    (if s.kind.schema.outputs.isEmpty then _ else _)
  split
  · exact records_of_said hw
  · obtain ⟨a, w', hask', hask, hw⟩ := ask_recorded (r := .outputs) p hw hhandle
      (by rw [hop]; rfl)
    simp only [hask', hask]
    rcases a with f | outputs
    · exact records_of_said hw
    · exact records_of_said hw

theorem records_sendUpdate (hop : s.op = .update) {p : Provider W} {properties : Properties}
    (hw : ∀ e ∈ w.2, e ∈ before ∨ s.Says m e) :
    s.Records m before (s.recorded.sendUpdate (p.recorded s.typeId) properties m w)
      (s.sendUpdate p properties m w.1) := by
  have hhandle : m.remoteId s.name = s.handle m := (handle_of_ne (by rw [hop]; nofun)).symm
  obtain ⟨a, w', hask', hask, hw⟩ := ask_recorded (r := .update (s.mutableOnly properties)) p hw
    hhandle (by rw [hop]; rfl)
  unfold sendUpdate
  simp only [mutableOnly_recorded, name_recorded, hask', hask]
  rcases a with f | _
  · exact records_of_said hw
  · exact records_of_said hw

theorem records_update (hop : s.op = .update) (hw : ∀ e ∈ w.2, e ∈ before ∨ s.Says m e) :
    s.Records m before (s.recorded.update m w) (s.update m w.1) := by
  have hhandle : m.remoteId s.name = s.handle m := (handle_of_ne (by rw [hop]; nofun)).symm
  unfold update
  simp only [provider_recorded, schema_recorded, name_recorded, op_recorded]
  rcases m.requireObject s.op.name "properties" with f | properties
  · exact records_of_said hw
  rcases s.provider with f | p
  · exact records_of_said hw
  simp only [bind, Except.bind, Except.map, pure, Except.pure]
  rcases s.kind.schema.immutableFields.filter properties.contains with _ | ⟨field, fields⟩
  · exact records_sendUpdate hop hw
  obtain ⟨a, w', hask', hask, hw⟩ := ask_recorded (r := .read (field :: fields)) p hw hhandle
    (by rw [hop]; rfl)
  simp only [hask', hask]
  rcases a with f | current
  · exact records_of_said hw
  dsimp only
  rcases changedImmutable s.kind.schema current properties with _ | _
  · exact records_sendUpdate hop hw
  · exact records_of_said hw

theorem records_delete (hop : s.op = .delete) (hw : ∀ e ∈ w.2, e ∈ before ∨ s.Says m e) :
    s.Records m before (s.recorded.delete m w) (s.delete m w.1) := by
  have hhandle : m.remoteId s.name = s.handle m := (handle_of_ne (by rw [hop]; nofun)).symm
  unfold delete
  simp only [provider_recorded, name_recorded]
  rcases s.provider with f | p
  · exact records_of_said hw
  obtain ⟨a, w', hask', hask, hw⟩ := ask_recorded (r := .delete) p hw hhandle (by rw [hop]; rfl)
  simp only [Except.map, hask', hask]
  rcases a with f | _
  · exact records_of_said hw
  · exact records_of_said hw

theorem records_storeOutputs {c : Change} (hop : s.op = .check c) {p : Provider W}
    (hw : ∀ e ∈ w.2, e ∈ before ∨ s.Says m e) :
    s.Records m before (s.recorded.storeOutputs (p.recorded s.typeId) m w)
      (s.storeOutputs p m w.1) := by
  have hne : s.op ≠ .create := by rw [hop]; cases c <;> nofun
  obtain ⟨a, w', hask', hask, hw⟩ := ask_recorded (r := .outputs) p hw (handle_of_ne hne).symm
    (by rw [hop]; cases c <;> rfl)
  unfold storeOutputs
  simp only [name_recorded, hask', hask]
  rcases a with f | outputs
  · exact records_of_said hw
  · exact records_of_said hw

theorem records_checkChange {c : Change} (hop : s.op = .check c)
    (hw : ∀ e ∈ w.2, e ∈ before ∨ s.Says m e) :
    s.Records m before (s.recorded.checkChange c m w) (s.checkChange c m w.1) := by
  have hhandle : m.remoteId s.name = s.handle m :=
    (handle_of_ne (by rw [hop]; cases c <;> nofun)).symm
  unfold checkChange
  simp only [provider_recorded, name_recorded]
  rcases s.provider with f | p
  · exact records_of_said hw
  obtain ⟨a, w', hask', hask, hw⟩ := ask_recorded (r := .complete c) p hw hhandle
    (by rw [hop]; cases c <;> rfl)
  simp only [Except.map, hask', hask]
  rcases a with f | _ | _
  · exact records_of_said hw
  · exact records_of_said hw
  · exact records_storeOutputs hop hw

theorem records_checkDelete (hop : s.op = .checkDelete)
    (hw : ∀ e ∈ w.2, e ∈ before ∨ s.Says m e) :
    s.Records m before (s.recorded.checkDelete m w) (s.checkDelete m w.1) := by
  have hhandle : m.remoteId s.name = s.handle m := (handle_of_ne (by rw [hop]; nofun)).symm
  unfold checkDelete
  simp only [provider_recorded, name_recorded]
  rcases s.provider with f | p
  · exact records_of_said hw
  obtain ⟨a, w', hask', hask, hw⟩ := ask_recorded (r := .deleteComplete) p hw hhandle
    (by rw [hop]; rfl)
  simp only [Except.map, hask', hask]
  rcases a with f | _ | _
  · exact records_of_said hw
  · exact records_of_said hw
  · exact records_of_said hw

theorem records_checkExist (hop : s.op = .checkExist)
    (hw : ∀ e ∈ w.2, e ∈ before ∨ s.Says m e) :
    s.Records m before (s.recorded.checkExist m w) (s.checkExist m w.1) := by
  have hhandle : m.remoteId s.name = s.handle m := (handle_of_ne (by rw [hop]; nofun)).symm
  unfold checkExist
  simp only [provider_recorded, schema_recorded, name_recorded]
  by_cases h : s.kind.schema.needsRemoteId = true
  · simp only [if_pos h]
    rcases s.provider with f | p
    · exact records_of_said hw
    obtain ⟨a, w', hask', hask, hw⟩ := ask_recorded (r := .found) p hw hhandle (by rw [hop]; rfl)
    simp only [Except.map, hask', hask]
    rcases a with f | found
    · exact records_of_said hw
    · exact records_of_said hw
  · simp only [if_neg h]
    exact records_of_said hw

theorem records_markDeletable (hw : ∀ e ∈ w.2, e ∈ before ∨ s.Says m e) :
    s.Records m before (s.recorded.markDeletable m w) (s.markDeletable m w.1) := by
  show s.Records m before (if (m.remoteId (deletable s.name)).isSome then _ else _)
    (if (m.remoteId (deletable s.name)).isSome then _ else _)
  split
  · exact records_of_said hw
  · exact records_of_said hw

theorem records_filter (hw : ∀ e ∈ w.2, e ∈ before ∨ s.Says m e) :
    s.Records m before (s.recorded.filter m w) (s.filter m w.1) := by
  unfold filter
  simp only [op_recorded, schema_recorded]
  rcases m.requireObject s.op.name "current" with f | current
  · exact records_of_said hw
  rcases m.requireObject s.op.name "properties" with f | properties
  · exact records_of_said hw
  · exact records_of_said hw

theorem records_rescmp (hw : ∀ e ∈ w.2, e ∈ before ∨ s.Says m e) :
    s.Records m before (s.recorded.rescmp rom m w) (s.rescmp rom m w.1) := by
  have hdecide : s.recorded.decide rom m = s.decide rom m := rfl
  unfold rescmp
  rw [hdecide]
  rcases s.decide rom m with f | d
  · exact records_of_said hw
  · exact records_of_said hw

end

/-- **An operation against a provider that records ends as it does against the provider
itself, and the record has only what the operation may say.** -/
theorem records_perform (s : Staged W) (rom : Rom) (m : Memory) (w : W × List Exchange) :
    s.Records m w.2 (s.recorded.perform rom m w) (s.perform rom m w.1) := by
  have hw : ∀ e ∈ w.2, e ∈ w.2 ∨ s.Says m e := fun _ he => .inl he
  unfold perform
  rw [op_recorded]
  split
  · next hop => exact records_create hop hw
  · next hop => exact records_read hop hw
  · next hop => exact records_update hop hw
  · next hop => exact records_delete hop hw
  · next hop => exact records_checkChange (c := .create) hop hw
  · next hop => exact records_checkChange (c := .update) hop hw
  · next hop => exact records_checkDelete hop hw
  · next hop => exact records_checkExist hop hw
  · exact records_markDeletable hw
  · exact records_filter hw
  · exact records_rescmp hw

end Staged

/-! ### Runs -/

section

variable {W : Type} {p : Program} {types : Registry W} {m : Memory}

theorem Registry.get?_recorded (types : Registry W) (typeId : String) :
    types.recorded.get? typeId = (types.get? typeId).map (·.recorded typeId) :=
  Table.get?_mapValues types _ typeId

theorem Staged.ofMemory_recorded (types : Registry W) (op : ResourceOp) (m : Memory) :
    ofMemory types.recorded op m = (ofMemory types op m).map recorded := by
  unfold ofMemory Registry.resolve
  rcases m.requireStr op.name "resource_name" with f | name
  · rfl
  rcases m.requireStr op.name "resource_desc" with f | typeId
  · rfl
  simp only [bind, Except.bind, Registry.get?_recorded]
  cases types.get? typeId <;> rfl

theorem bindStaged_silent {W' : Type} (v : Json) (m : Memory) (w : W) (w' : W') :
    bindStaged v m w' = ⟨(bindStaged v m w).flow, (bindStaged v m w).memory, w'⟩ := by
  unfold bindStaged
  rcases takeStagedKey m with ⟨_ | _, _⟩ <;> rfl

/-- An instruction that is no operation goes its way without the providers. -/
theorem perform_silent {W' : Type} (types : Registry W) (types' : Registry W') {i : Instruction}
    (hi : i.isResourceOp = false) (w : W) (w' : W') :
    perform p types' i m w' = ⟨(perform p types i m w).flow, (perform p types i m w).memory, w'⟩ := by
  cases i with
  | resource op => cases hi
  | init | halt | clear | key name | compare v => rfl
  | value v => exact bindStaged_silent v m w w'
  | ret =>
    simp only [perform]
    cases m.callStack.getLast? <;> rfl
  | invert =>
    simp only [perform]
    cases m.result Instruction.invert.name <;> rfl
  | valueRom address =>
    simp only [perform]
    cases p.tables.rom.resolve m.outputValue address with
    | error f => rfl
    | ok v => exact bindStaged_silent v m w w'
  | valueUpdate name =>
    simp only [perform]
    cases m.decisions.get? name <;> rfl
  | memwrite v =>
    simp only [perform]
    cases m.writeStaged v <;> rfl
  | assert name =>
    simp only [perform]
    cases m.result (Instruction.assert name).name with
    | error f => rfl
    | ok i =>
      dsimp only
      split <;> rfl
  | gotoIf target =>
    simp only [perform]
    cases m.result (Instruction.gotoIf target).name with
    | error f => rfl
    | ok i =>
      dsimp only
      split
      · rfl
      · cases p.target target <;> rfl
  | call label =>
    simp only [perform]
    cases p.label label <;> rfl

theorem execute_silent {W' : Type} (types : Registry W) (types' : Registry W') {i : Instruction}
    (hi : i.isResourceOp = false) (w : W) (w' : W') :
    execute p types' i m w' = ⟨(execute p types i m w).flow, (execute p types i m w).memory, w'⟩ := by
  unfold execute
  split
  · rfl
  · exact perform_silent types types' hi w w'

theorem world_execute {i : Instruction} (hi : i.isResourceOp = false) (w : W) :
    (execute p types i m w).world = w :=
  congrArg Outcome.world (execute_silent types types hi w w)

/-- An instruction against providers that record ends as it does against the providers
themselves. -/
theorem forget_execute (i : Instruction) (w : W × List Exchange) :
    (execute p types.recorded i m w).forget = execute p types i m w.1 := by
  cases hi : i.isResourceOp with
  | false =>
    rw [execute_silent types types.recorded hi w.1 w]
    exact (execute_silent types types hi w.1 w.1).symm
  | true =>
    cases i with
    | resource op =>
      unfold execute
      split
      · rfl
      · simp only [perform, Staged.ofMemory_recorded]
        cases Staged.ofMemory types op m with
        | error f => rfl
        | ok s => exact (s.records_perform p.tables.rom m w).forget
    | _ => cases hi

namespace Run

theorem forget_settle (log : List Operation) (o : Outcome (W × List Exchange)) (pc : Nat) :
    (settle log o pc).forget = settle log o.forget pc := by
  obtain ⟨flow, m, w⟩ := o
  rcases flow with f | _ | a | _ <;> rfl

/-- **A step against providers that record is, but for the record, a step against the
providers themselves.** -/
theorem forget_step (r : Run (W × List Exchange)) :
    (r.step p types.recorded).forget = r.forget.step p types := by
  cases hended : r.ended p with
  | true =>
    have hforget : r.forget.ended p = true := hended
    rw [step_of_ended hended, step_of_ended hforget]
  | false =>
    have hforget : r.forget.ended p = false := hended
    have hlt : r.memory.programCounter < p.instructions.length := by
      unfold ended Memory.halted Program.size at hended
      simp only [Bool.or_eq_false_iff, decide_eq_false_iff_not] at hended
      omega
    have hi := List.getElem?_eq_getElem hlt
    rw [step_of_instruction hended hi, step_of_instruction hforget hi, forget_settle,
      forget_execute]
    rfl

end Run

end

end Provisioning
