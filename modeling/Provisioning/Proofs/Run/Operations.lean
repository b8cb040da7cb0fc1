/-
What an operation on a resource can do.

An operation ends in one of three ways.  It is done, and has changed the memory in the way
that is its purpose; or it waits, and the memory is as before; or a fault stops it, and only
scratch may have changed.  Other instructions may also send control elsewhere; an operation
never does.

Most faults are the outside's: a refusal, a type that cannot be run, an identifier that is
missing or in the way, an immutable field that would change.  Together with an output that is
not there these are the `foreseen` ones.  Anything else means that scratch or the table of
declared values did not hold what the operation looks for.
-/
import Provisioning.Proofs.Fallible
import Provisioning.Run.Step

namespace Provisioning

/-- Whether a fault is one that a correct program may stop with. -/
def Fault.foreseen : Fault → Bool
  | .backend _ _ _ | .noBackend _ | .missingRemoteId _ | .immutableFieldChanged _ _
  | .remoteIdAlreadySet _ | .outputUnavailable _ _ => true
  | _ => false

/-- Whether a fault comes from the objects and their providers. -/
def Fault.outside : Fault → Bool
  | .backend _ _ _ | .noBackend _ | .missingRemoteId _ | .immutableFieldChanged _ _
  | .remoteIdAlreadySet _ => true
  | _ => false

theorem Fault.foreseen_of_outside {f : Fault} (h : f.outside = true) : f.foreseen = true := by
  cases f <;> simp_all [outside, foreseen]

/-! ### Names of operations -/

namespace ResourceOp

/-- All operations. -/
def all : List ResourceOp :=
  [.create, .read, .update, .delete, .checkCreate, .checkUpdate, .checkDelete, .checkExist,
    .markDeletable, .filter, .rescmp]

/-- The word under which an operation is logged. -/
def word : ResourceOp → String
  | .create => "CREATE"
  | .read => "READ"
  | .update => "UPDATE"
  | .delete => "DELETE"
  | .checkCreate => "CHECK_CREATE"
  | .checkUpdate => "CHECK_UPDATE"
  | .checkDelete => "CHECK_DELETE"
  | .checkExist => "CHECK_EXIST"
  | .markDeletable => "MARK_DELETABLE"
  | .filter => "FILTER"
  | .rescmp => "RESCMP"

theorem toUpper_name (op : ResourceOp) : op.name.toUpper = op.word := by
  cases op <;> decide +kernel

/-- The log entry of an operation on a resource. -/
def record (op : ResourceOp) (name : String) : Operation := ⟨op.word, name⟩

theorem word_inj {op op' : ResourceOp} (h : op.word = op'.word) : op = op' := by
  revert h
  cases op <;> cases op' <;> decide

theorem record_inj {op op' : ResourceOp} {name name' : String} :
    op.record name = op'.record name' ↔ op = op' ∧ name = name' := by
  constructor
  · intro h
    exact ⟨word_inj (Operation.mk.inj h).1, (Operation.mk.inj h).2⟩
  · rintro ⟨rfl, rfl⟩
    rfl

/-- Whether the operation may have to be repeated until it is done. -/
def waits : ResourceOp → Bool
  | .checkCreate | .checkUpdate | .checkDelete => true
  | _ => false

/-- The operation that waits until a change is complete. -/
def check : Change → ResourceOp
  | .create => .checkCreate
  | .update => .checkUpdate

theorem eq_check_iff {op : ResourceOp} {c : Change} :
    op = check c ↔ (c = .create ∧ op = .checkCreate) ∨ (c = .update ∧ op = .checkUpdate) := by
  cases c <;> simp [check]

theorem check_inj {c c' : Change} (h : check c = check c') : c = c' := by
  cases c <;> cases c' <;> first | rfl | cases h

theorem waits_check (c : Change) : (check c).waits = true := by
  cases c <;> rfl

/-- The scratch values that the operation takes apart. -/
def objects : ResourceOp → List String
  | .create | .update => ["properties"]
  | .filter => ["current", "properties"]
  | .rescmp => ["current"]
  | _ => []

end ResourceOp

theorem Run.logged_resource (op : ResourceOp) (m : Memory) :
    Run.logged (.resource op) m = [op.record (Run.stagedName m)] := by
  show [Operation.mk op.name.toUpper _] = _
  rw [op.toUpper_name]
  rfl

theorem Run.step_of_instruction {W : Type} {p : Program} {types : Registry W} {r : Run W}
    {i : Instruction} (hrunning : r.ended p = false)
    (hi : p.instructions[r.memory.programCounter]? = some i) :
    r.step p types = Run.settle (r.log ++ Run.logged i r.memory)
      (execute p types i r.memory r.world) r.memory.programCounter := by
  unfold Run.step
  rw [if_neg (by rw [hrunning]; nofun)]
  simp only [hi]

/-! ### What is staged -/

theorem Registry.resolve_eq_ok {W : Type} {types : Registry W} {typeId : String} {kind : Kind W} :
    types.resolve typeId = .ok kind ↔ types.get? typeId = some kind := by
  unfold resolve
  cases types.get? typeId <;> simp

/-- What is staged has its name and its type from scratch, and the type is a registered one. -/
theorem Staged.ofMemory_eq_ok {W : Type} {types : Registry W} {op : ResourceOp} {m : Memory}
    {s : Staged W} :
    ofMemory types op m = .ok s ↔
      s.op = op ∧ m.requireStr op.name "resource_name" = .ok s.name ∧
        m.requireStr op.name "resource_desc" = .ok s.typeId ∧
        types.get? s.typeId = some s.kind := by
  constructor
  · intro h
    obtain ⟨name, hname, h⟩ := bind_eq_ok.1 h
    obtain ⟨typeId, htypeId, h⟩ := bind_eq_ok.1 h
    obtain ⟨kind, hkind, h⟩ := bind_eq_ok.1 h
    obtain rfl := Except.ok.inj h
    exact ⟨rfl, hname, htypeId, Registry.resolve_eq_ok.1 hkind⟩
  · rintro ⟨rfl, hname, htypeId, hkind⟩
    exact bind_eq_ok.2 ⟨_, hname, bind_eq_ok.2 ⟨_, htypeId, bind_eq_ok.2
      ⟨_, Registry.resolve_eq_ok.2 hkind, rfl⟩⟩⟩

/-! ### Ways to end -/

namespace Outcome

variable {W : Type}

/-- An outcome is done, or goes elsewhere, or waits, or is stopped by a fault. -/
structure Ends (o : Outcome W) (m : Memory) (done : Memory → Prop) (goes : Nat → Prop)
    (waits : Prop) (fails : Fault → Prop) : Prop where
  /-- What is done has changed the memory as it should. -/
  next : o.flow = .ok .next → done o.memory
  /-- What goes elsewhere has changed nothing. -/
  jump : ∀ i, o.flow = .ok (.jump i) → goes i ∧ o.memory = m
  /-- What waits has changed nothing. -/
  stay : o.flow = .ok .stay → waits ∧ o.memory = m
  /-- A fault leaves everything but scratch alone. -/
  fault : ∀ f, o.flow = .error f → fails f ∧ ∃ temp, o.memory = { m with temp }

variable {m m' : Memory} {w : W} {done : Memory → Prop} {goes : Nat → Prop} {waits : Prop}
  {fails : Fault → Prop}

theorem ends_next (h : done m') : (next m' w).Ends m done goes waits fails where
  next _ := h
  jump := nofun
  stay := nofun
  fault := nofun

theorem ends_jump {i : Nat} (h : goes i) :
    (Outcome.mk (.ok (.jump i)) m w).Ends m done goes waits fails where
  next := nofun
  jump _ hi := by
    cases hi
    exact ⟨h, rfl⟩
  stay := nofun
  fault := nofun

theorem ends_stay (h : waits) : (Outcome.mk (.ok .stay) m w).Ends m done goes waits fails where
  next := nofun
  jump := nofun
  stay _ := ⟨h, rfl⟩
  fault := nofun

theorem ends_fault {f : Fault} (h : fails f) (temp : Properties) :
    (fault f { m with temp } w).Ends m done goes waits fails where
  next := nofun
  jump := nofun
  stay := nofun
  fault _ hf := by
    cases hf
    exact ⟨h, temp, rfl⟩

end Outcome

namespace Staged

variable {W : Type}

/-! ### What is changed, and what can fail -/

/-- What an operation that is done has changed. -/
def Done (s : Staged W) (m m' : Memory) : Prop :=
  match s.op with
  | .create => ∃ id, m' = { m with remoteIds := m.remoteIds.insert s.name id }
  | .read => ∃ current outputs, m' = { m.setTemp "current" (.obj current) with outputs } ∧
      (outputs = m.outputs ∨ ∃ fields, outputs = m.outputs.insert s.name fields)
  | .update | .delete => m' = m
  | .checkCreate | .checkUpdate =>
    ∃ fields, m' = { m with outputs := m.outputs.insert s.name fields }
  | .checkDelete => m' = confirmDeleted m s.name
  | .checkExist => ∃ found, m' = m.setTest found
  | .markDeletable => ∃ id, m' =
      { m with remoteIds := (m.remoteIds.erase s.name).insert (deletable s.name) id }
  | .filter => ∃ properties, m' = m.setTemp "properties" (.obj properties)
  | .rescmp => ∃ d, d ≠ Decision.missing ∧
      m' = { m with decisions := m.decisions.insert s.name d }

/-- What can stop an operation. -/
inductive Fails (s : Staged W) (rom : Rom) (m : Memory) : Fault → Prop
  /-- The outside. -/
  | outside {f : Fault} : f.outside = true → Fails s rom m f
  /-- A scratch value that is no object. -/
  | operand {f : Fault} {key : String} :
    key ∈ s.op.objects → m.requireObject s.op.name key = .error f → Fails s rom m f
  /-- Declared values that cannot be read. -/
  | unread {f : Fault} :
    s.op = .rescmp → rom.resolve m.outputValue s.name = .error f → Fails s rom m f
  /-- A declared value that is no object. -/
  | noObject {f : Fault} {v : Json} : s.op = .rescmp →
    rom.resolve m.outputValue s.name = .ok v → (∀ fields, v ≠ .obj fields) → Fails s rom m f

/-- How an operation may end: it never goes elsewhere, and only checks wait. -/
def Behaves (s : Staged W) (rom : Rom) (m : Memory) (o : Outcome W) : Prop :=
  o.Ends m (s.Done m) (fun _ => False) (s.op.waits = true) (s.Fails rom m)

variable {s : Staged W} {rom : Rom} {m : Memory} {w : W}

theorem outside_ask {p : Provider W} {id : Option Json} {r : Request} {f : Fault} {w' : W}
    (h : s.ask p id r w = (.error f, w')) : f.outside = true := by
  unfold ask at h
  split at h
  · cases h
  · cases h
    rfl

theorem outside_provider {f : Fault} (h : s.provider = .error f) : f.outside = true := by
  unfold provider Kind.provides at h
  split at h
  · cases h
  · cases h
    rfl

/-- What a provider is needed for behaves if it does so with every provider. -/
theorem behaves_provider {k : Provider W → Outcome W} (h : ∀ p, s.Behaves rom m (k p)) :
    s.Behaves rom m (match s.provider with
      | .error f => Outcome.fault f m w
      | .ok p => k p) := by
  split
  · next f hprovider =>
    exact Outcome.ends_fault (Fails.outside (outside_provider hprovider)) m.temp
  · exact h _

/-- A refusal ends an operation well. -/
theorem behaves_refused {p : Provider W} {id : Option Json} {r : Request} {f : Fault} {w' : W}
    (h : s.ask p id r w = (.error f, w')) (temp : Properties) :
    s.Behaves rom m (.fault f { m with temp } w') :=
  Outcome.ends_fault (.outside (outside_ask h)) temp

theorem fails_prepareCreate (hop : s.op = .create) {f : Fault}
    (h : s.prepareCreate m = .error f) : s.Fails rom m f := by
  rcases bind_eq_error.1 h with h | ⟨properties, -, h⟩
  · exact .operand (by simp [hop, ResourceOp.objects]) h
  · split at h
    · cases h
      exact .outside rfl
    · rcases bind_eq_error.1 h with h | ⟨p, -, h⟩
      · exact .outside (outside_provider h)
      · cases h

/-! ### One operation after the other -/

theorem behaves_create (hop : s.op = .create) : s.Behaves rom m (s.create m w) := by
  unfold create
  split
  · next f hprepare => exact Outcome.ends_fault (fails_prepareCreate hop hprepare) m.temp
  · split
    · next f w' hask => exact behaves_refused hask m.temp
    · dsimp only
      split
      · exact Outcome.ends_fault (Fails.outside rfl) m.temp
      · refine Outcome.ends_next ?_
        unfold Done
        rw [hop]
        exact ⟨_, rfl⟩

theorem behaves_read (hop : s.op = .read) : s.Behaves rom m (s.read m w) := by
  refine behaves_provider ?_
  intro p
  dsimp only
  split
  · next f w' hask => exact behaves_refused hask m.temp
  · next found w' hask =>
    split
    · refine Outcome.ends_next ?_
      unfold Done
      rw [hop]
      exact ⟨_, m.outputs, rfl, .inl rfl⟩
    · split
      · next f w'' hask => exact behaves_refused hask _
      · refine Outcome.ends_next ?_
        unfold Done
        rw [hop]
        exact ⟨_, _, rfl, .inr ⟨_, rfl⟩⟩

theorem behaves_sendUpdate (hop : s.op = .update) {p : Provider W} {properties : Properties} :
    s.Behaves rom m (s.sendUpdate p properties m w) := by
  unfold sendUpdate
  split
  · next f w' hask => exact behaves_refused hask m.temp
  · refine Outcome.ends_next ?_
    unfold Done
    rw [hop]

theorem behaves_update (hop : s.op = .update) : s.Behaves rom m (s.update m w) := by
  unfold update
  split
  · next f hstaged =>
    refine Outcome.ends_fault ?_ m.temp
    rcases bind_eq_error.1 hstaged with h | ⟨properties, -, h⟩
    · exact .operand (by simp [hop, ResourceOp.objects]) h
    · rcases bind_eq_error.1 h with h | ⟨p, -, h⟩
      · exact .outside (outside_provider h)
      · cases h
  · split
    · exact behaves_sendUpdate hop
    · split
      · next f w' hask => exact behaves_refused hask m.temp
      · split
        · exact behaves_sendUpdate hop
        · exact Outcome.ends_fault (Fails.outside rfl) m.temp

theorem behaves_delete (hop : s.op = .delete) : s.Behaves rom m (s.delete m w) := by
  refine behaves_provider ?_
  intro p
  split
  · next f w' hask => exact behaves_refused hask m.temp
  · refine Outcome.ends_next ?_
    unfold Done
    rw [hop]

theorem behaves_storeOutputs {c : Change} (hop : s.op = .check c) {p : Provider W} :
    s.Behaves rom m (s.storeOutputs p m w) := by
  unfold storeOutputs
  split
  · next f w' hask => exact behaves_refused hask m.temp
  · refine Outcome.ends_next ?_
    unfold Done
    rw [hop]
    cases c <;> exact ⟨_, rfl⟩

theorem behaves_checkChange {c : Change} (hop : s.op = .check c) :
    s.Behaves rom m (s.checkChange c m w) := by
  refine behaves_provider ?_
  intro p
  split
  · next f w' hask => exact behaves_refused hask m.temp
  · dsimp only
    split
    · exact behaves_storeOutputs hop
    · exact Outcome.ends_stay (by rw [hop, ResourceOp.waits_check])

theorem behaves_checkDelete (hop : s.op = .checkDelete) : s.Behaves rom m (s.checkDelete m w) := by
  refine behaves_provider ?_
  intro p
  split
  · next f w' hask => exact behaves_refused hask m.temp
  · dsimp only
    split
    · refine Outcome.ends_next ?_
      unfold Done
      rw [hop]
    · exact Outcome.ends_stay (by rw [hop]; rfl)

theorem behaves_checkExist (hop : s.op = .checkExist) : s.Behaves rom m (s.checkExist m w) := by
  have hdone : ∀ found, s.Done m (m.setTest found) := by
    intro found
    unfold Done
    rw [hop]
    exact ⟨found, rfl⟩
  unfold checkExist
  split
  · refine behaves_provider ?_
    intro p
    split
    · next f w' hask => exact behaves_refused hask m.temp
    · exact Outcome.ends_next (hdone _)
  · exact Outcome.ends_next (hdone true)

theorem behaves_markDeletable (hop : s.op = .markDeletable) :
    s.Behaves rom m (s.markDeletable m w) := by
  unfold markDeletable
  dsimp only
  split
  · exact Outcome.ends_fault (Fails.outside rfl) m.temp
  · refine Outcome.ends_next ?_
    unfold Done
    rw [hop]
    exact ⟨_, rfl⟩

theorem behaves_filter (hop : s.op = .filter) : s.Behaves rom m (s.filter m w) := by
  unfold filter
  split
  · next f hstaged =>
    refine Outcome.ends_fault ?_ m.temp
    rcases bind_eq_error.1 hstaged with h | ⟨current, -, h⟩
    · exact .operand (by simp [hop, ResourceOp.objects]) h
    · rcases bind_eq_error.1 h with h | ⟨properties, -, h⟩
      · exact .operand (by simp [hop, ResourceOp.objects]) h
      · cases h
  · refine Outcome.ends_next ?_
    unfold Done
    rw [hop]
    exact ⟨_, rfl⟩

theorem compare_ne_missing (schema : Schema) (current desired : Properties) :
    compare schema current desired ≠ .missing := by
  unfold compare
  split
  · nofun
  · split <;> nofun

theorem fails_decide (hop : s.op = .rescmp) {f : Fault} (h : s.decide rom m = .error f) :
    s.Fails rom m f := by
  rcases bind_eq_error.1 h with h | ⟨v, hv, h⟩
  · exact .unread hop h
  · cases v with
    | obj fields =>
      rcases bind_eq_error.1 h with h | ⟨desired, -, h⟩
      · cases h
      · rcases bind_eq_error.1 h with h | ⟨current, -, h⟩
        · exact .operand (by simp [hop, ResourceOp.objects]) h
        · cases h
    | null | bool | num | str | arr => exact .noObject hop hv nofun

theorem decide_ne_missing {d : Decision} (h : s.decide rom m = .ok d) : d ≠ .missing := by
  obtain ⟨v, -, h⟩ := bind_eq_ok.1 h
  cases v with
  | obj fields =>
    obtain ⟨desired, -, h⟩ := bind_eq_ok.1 h
    obtain ⟨current, -, h⟩ := bind_eq_ok.1 h
    cases h
    exact compare_ne_missing _ _ _
  | null | bool | num | str | arr => cases h

theorem behaves_rescmp (hop : s.op = .rescmp) : s.Behaves rom m (s.rescmp rom m w) := by
  unfold rescmp
  split
  · next f hdecide => exact Outcome.ends_fault (fails_decide hop hdecide) m.temp
  · next d hdecide =>
    refine Outcome.ends_next ?_
    unfold Done
    rw [hop]
    exact ⟨d, decide_ne_missing hdecide, rfl⟩

/-- **An operation is done and has changed what it should, or waits and has changed nothing,
or is stopped by a fault and has changed only scratch.** -/
theorem behaves_perform (s : Staged W) (rom : Rom) (m : Memory) (w : W) :
    s.Behaves rom m (s.perform rom m w) := by
  unfold perform
  split
  · next hop => exact behaves_create hop
  · next hop => exact behaves_read hop
  · next hop => exact behaves_update hop
  · next hop => exact behaves_delete hop
  · next hop => exact behaves_checkChange (c := .create) hop
  · next hop => exact behaves_checkChange (c := .update) hop
  · next hop => exact behaves_checkDelete hop
  · next hop => exact behaves_checkExist hop
  · next hop => exact behaves_markDeletable hop
  · next hop => exact behaves_filter hop
  · next hop => exact behaves_rescmp hop

end Staged

end Provisioning
