/-
What an instruction says, and what it makes of the answers.

An instruction looks at the memory, asks the providers something, and depending on what they
answer it asks on, until it has made up its mind: where control goes, and what is written.
That is a `Talk`, a tree with a question at each node and a branch for each answer.  It is
built from the memory alone; no provider and no world occurs in it.

Holding a talk with the providers of a registry gives the outcome of the instruction and all
that is said on the way: `execute_recorded`.  So two runs go on alike if the talks that they
hold are the same and the answers are, whatever else is different about them.
-/
import Provisioning.Proofs.Run.Availability
import Provisioning.Proofs.Run.Budget

namespace Provisioning

/-! ### Talks -/

/-- A request to the provider of a type. -/
structure Call where
  /-- The type whose provider is asked. -/
  typeId : String
  /-- The identifier of the object, if it is known. -/
  id : Option Json
  request : Request
deriving DecidableEq

/-- What was asked in an exchange. -/
def Exchange.call (e : Exchange) : Call := ⟨e.typeId, e.id, e.request⟩

/-- The request with its answer. -/
def Call.answered (call : Call) (answer : Except String call.request.Answer) : Exchange :=
  ⟨call.typeId, call.id, call.request, answer⟩

/-- What is asked, depending on the answers, until there is a result. -/
inductive Talk (α : Type) where
  | done (a : α)
  | ask (call : Call) (next : Except String call.request.Answer → Talk α)

/-- What the provider of a type answers; where there is none, everything is refused. -/
def Registry.answer {W : Type} (types : Registry W) (call : Call) (w : W) :
    Except String call.request.Answer × W :=
  match (types.get? call.typeId).bind Kind.provider with
  | some p => p.ask call.id call.request w
  | none => (.error "", w)

namespace Talk

variable {α W : Type}

/-- The result of a talk that was held, all that was said, and the world afterwards. -/
structure Held (α W : Type) where
  result : α
  said : List Exchange
  world : W

/-- Holds a talk with the providers of a registry. -/
def hold (types : Registry W) : Talk α → W → Held α W
  | .done a, w => ⟨a, [], w⟩
  | .ask call next, w =>
    let answered := types.answer call w
    let rest := hold types (next answered.1) answered.2
    ⟨rest.result, call.answered answered.1 :: rest.said, rest.world⟩

end Talk

/-- What is said and what becomes of the world when some requests are made. -/
def Registry.tell {W : Type} (types : Registry W) : List Call → W → List Exchange × W
  | [], w => ([], w)
  | call :: rest, w =>
    let answered := types.answer call w
    let told := types.tell rest answered.2
    (call.answered answered.1 :: told.1, told.2)

theorem Registry.tell_append {W : Type} (types : Registry W) (calls calls' : List Call) (w : W) :
    types.tell (calls ++ calls') w =
      ((types.tell calls w).1 ++ (types.tell calls' (types.tell calls w).2).1,
        (types.tell calls' (types.tell calls w).2).2) := by
  induction calls generalizing w with
  | nil => rfl
  | cons call rest ih => simp only [List.cons_append, tell, ih]

theorem Registry.calls_tell {W : Type} (types : Registry W) (calls : List Call) (w : W) :
    (types.tell calls w).1.map Exchange.call = calls := by
  induction calls generalizing w with
  | nil => rfl
  | cons call rest ih => rw [tell, List.map_cons, ih]; rfl

/-- To hold a talk is to make its requests. -/
theorem Talk.tell_said {α W : Type} (types : Registry W) (t : Talk α) (w : W) :
    types.tell ((t.hold types w).said.map Exchange.call) w =
      ((t.hold types w).said, (t.hold types w).world) := by
  induction t generalizing w with
  | done a => rfl
  | ask call next ih =>
    have hrest := ih (types.answer call w).1 (types.answer call w).2
    show types.tell (call :: _) w = _
    rw [Registry.tell, hrest]
    rfl

/-! ### What is written -/

/-- One change of a memory. -/
inductive Write where
  /-- Scratch is emptied. -/
  | clear
  /-- The staged key is taken out of scratch. -/
  | unstage
  | bind (key : String) (v : Json)
  /-- An identifier is tracked under a name, or no longer. -/
  | track (name : String) (id : Json)
  | untrack (name : String)
  /-- The outputs of a name are stored, or dropped. -/
  | store (name : String) (fields : Properties)
  | discard (name : String)
  | decide (name : String) (d : Decision)
  /-- A name is listed among the deleted ones. -/
  | list (name : String)

/-- The memory after a change. -/
def Memory.apply (m : Memory) : Write → Memory
  | .clear => { m with temp := [] }
  | .unstage => { m with temp := m.temp.swapErase Memory.stagedKey }
  | .bind key v => m.setTemp key v
  | .track name id => { m with remoteIds := m.remoteIds.insert name id }
  | .untrack name => { m with remoteIds := m.remoteIds.erase name }
  | .store name fields => { m with outputs := m.outputs.insert name fields }
  | .discard name => { m with outputs := m.outputs.erase name }
  | .decide name d => { m with decisions := m.decisions.insert name d }
  | .list name => { m with deleted := m.deleted ++ [name] }

/-- The memory after some changes. -/
def Memory.applyAll (m : Memory) (ws : List Write) : Memory := ws.foldl apply m

@[simp] theorem Memory.applyAll_nil (m : Memory) : m.applyAll [] = m := rfl

@[simp] theorem Memory.applyAll_cons (m : Memory) (wr : Write) (ws : List Write) :
    m.applyAll (wr :: ws) = (m.apply wr).applyAll ws := rfl

/-- Where control goes, before targets are looked up. -/
inductive Turn where
  | next
  /-- The same instruction is carried out again. -/
  | stay
  | branch (target : Target)

/-- What an instruction has made up its mind to do. -/
structure Upshot where
  turn : Except Fault Turn
  writes : List Write

/-- Where control goes in a program. -/
def Upshot.flow (u : Upshot) (p : Program) : Except Fault Flow :=
  match u.turn with
  | .error f => .error f
  | .ok .next => .ok .next
  | .ok .stay => .ok .stay
  | .ok (.branch target) => (p.target target).map .jump

namespace Talk

variable {W : Type}

/-- Nothing is asked: some changes are made. -/
def next (ws : List Write) : Talk Upshot := .done ⟨.ok .next, ws⟩

/-- Nothing is asked: a fault stops the run. -/
def fault (f : Fault) (ws : List Write) : Talk Upshot := .done ⟨.error f, ws⟩

/-- Nothing is asked: what is looked for has not happened yet. -/
def stay : Talk Upshot := .done ⟨.ok .stay, []⟩

/-- What is needed first is there, or a fault stops the run. -/
def need {α : Type} (x : Except Fault α) (rest : α → Talk Upshot) : Talk Upshot :=
  match x with
  | .error f => .fault f []
  | .ok a => rest a

/-- The outcome of a talk that is held with providers that record. -/
def outcome (p : Program) (types : Registry W) (t : Talk Upshot) (m : Memory)
    (w : W × List Exchange) : Outcome (W × List Exchange) :=
  let held := t.hold types w.1
  ⟨held.result.flow p, m.applyAll held.result.writes, (held.world, w.2 ++ held.said)⟩

theorem outcome_done (p : Program) (types : Registry W) (u : Upshot) (m : Memory)
    (w : W × List Exchange) :
    (Talk.done u).outcome p types m w = ⟨u.flow p, m.applyAll u.writes, w⟩ := by
  simp [outcome, hold]

@[simp] theorem outcome_next (p : Program) (types : Registry W) (ws : List Write) (m : Memory)
    (w : W × List Exchange) :
    (Talk.next ws).outcome p types m w = .next (m.applyAll ws) w :=
  outcome_done p types _ m w

@[simp] theorem outcome_fault (p : Program) (types : Registry W) (f : Fault) (ws : List Write)
    (m : Memory) (w : W × List Exchange) :
    (Talk.fault f ws).outcome p types m w = .fault f (m.applyAll ws) w :=
  outcome_done p types _ m w

@[simp] theorem outcome_stay (p : Program) (types : Registry W) (m : Memory)
    (w : W × List Exchange) : Talk.stay.outcome p types m w = ⟨.ok .stay, m, w⟩ :=
  outcome_done p types _ m w

theorem outcome_need {α : Type} (p : Program) (types : Registry W) (x : Except Fault α)
    (rest : α → Talk Upshot) (m : Memory) (w : W × List Exchange) :
    (need x rest).outcome p types m w =
      match x with
      | .error f => .fault f m w
      | .ok a => (rest a).outcome p types m w := by
  cases x with
  | error f => exact outcome_fault p types f [] m w
  | ok a => rfl

end Talk

/-! ### Operations on the staged resource -/

namespace Staged

variable {W : Type}

/-- Asks about an object.  What is written before the answer stays when it is refused. -/
def request (s : Staged W) (id : Option Json) (r : Request) (written : List Write)
    (next : r.Answer → Talk Upshot) : Talk Upshot :=
  .ask ⟨s.typeId, id, r⟩ fun
    | .ok a => next a
    | .error reason => .fault (.backend s.op.name s.name reason) written

def talkCreate (s : Staged W) (m : Memory) : Talk Upshot :=
  .need (s.prepareCreate m) fun prepared =>
    s.request none (.create prepared.1) [] fun id =>
      if s.kind.schema.needsRemoteId && Option.isNone id then .fault (.missingRemoteId s.name) []
      else .next [.track s.name (Option.getD id .null)]

def talkRead (s : Staged W) (m : Memory) : Talk Upshot :=
  let fields := s.kind.schema.readable
  let id := m.remoteId s.name
  .need s.provider fun _ => s.request id (.read fields) [] fun found =>
    let current : Write := .bind "current" (.obj (currentFields fields found))
    if s.kind.schema.outputs.isEmpty then .next [current]
    else s.request id .outputs [current] fun outputs => .next [current, .store s.name outputs]

def talkSend (s : Staged W) (properties : Properties) (m : Memory) : Talk Upshot :=
  s.request (m.remoteId s.name) (.update (s.mutableOnly properties)) [] fun _ => .next []

def talkUpdate (s : Staged W) (m : Memory) : Talk Upshot :=
  .need (m.requireObject s.op.name "properties") fun properties => .need s.provider fun _ =>
    match s.kind.schema.immutableFields.filter properties.contains with
    | [] => s.talkSend properties m
    | fixed =>
      s.request (m.remoteId s.name) (.read fixed) [] fun current =>
        match changedImmutable s.kind.schema current properties with
        | [] => s.talkSend properties m
        | changed => .fault (.immutableFieldChanged s.name changed) []

def talkDelete (s : Staged W) (m : Memory) : Talk Upshot :=
  .need s.provider fun _ => s.request (m.remoteId s.name) .delete [] fun _ => .next []

def talkOutputs (s : Staged W) (m : Memory) : Talk Upshot :=
  s.request (m.remoteId s.name) .outputs [] fun outputs => .next [.store s.name outputs]

def talkCheck (s : Staged W) (c : Change) (m : Memory) : Talk Upshot :=
  .need s.provider fun _ => s.request (m.remoteId s.name) (.complete c) [] fun complete =>
    cond complete (s.talkOutputs m) .stay

def talkCheckDelete (s : Staged W) (m : Memory) : Talk Upshot :=
  .need s.provider fun _ => s.request (m.remoteId s.name) .deleteComplete [] fun complete =>
    cond complete (.next [.list s.name, .untrack s.name, .discard s.name]) .stay

/-- Binds whether a test held. -/
def testWrite (holds : Bool) : Write := .bind Memory.resultKey (.int (if holds then 1 else 0))

def talkCheckExist (s : Staged W) (m : Memory) : Talk Upshot :=
  if s.kind.schema.needsRemoteId then
    .need s.provider fun _ => s.request (m.remoteId s.name) .found [] fun found =>
      .next [testWrite found]
  else .next [testWrite true]

def talkMarkDeletable (s : Staged W) (m : Memory) : Talk Upshot :=
  let aside := deletable s.name
  if (m.remoteId aside).isSome then .fault (.remoteIdAlreadySet aside) []
  else .next [.untrack s.name, .track aside ((m.remoteIds.get? s.name).getD .null)]

def talkFilter (s : Staged W) (m : Memory) : Talk Upshot :=
  .need (m.requireObject s.op.name "current") fun current =>
    .need (m.requireObject s.op.name "properties") fun desired =>
      .next [.bind "properties" (.obj (updatable s.kind.schema current desired))]

def talkRescmp (s : Staged W) (rom : Rom) (m : Memory) : Talk Upshot :=
  .need (s.decide rom m) fun d => .next [.decide s.name d]

/-- What an operation says. -/
def talk (s : Staged W) (rom : Rom) (m : Memory) : Talk Upshot :=
  match s.op with
  | .create => s.talkCreate m
  | .read => s.talkRead m
  | .update => s.talkUpdate m
  | .delete => s.talkDelete m
  | .checkCreate => s.talkCheck .create m
  | .checkUpdate => s.talkCheck .update m
  | .checkDelete => s.talkCheckDelete m
  | .checkExist => s.talkCheckExist m
  | .markDeletable => s.talkMarkDeletable m
  | .filter => s.talkFilter m
  | .rescmp => s.talkRescmp rom m

variable {s : Staged W} {types : Registry W} {p : Program} {rom : Rom} {m : Memory}
  {w : W × List Exchange}

/-- To hold a talk that begins with a request is to ask and then to hold the rest. -/
theorem outcome_request (hkind : types.get? s.typeId = some s.kind) {q : Provider W}
    (hq : s.provider = .ok q) (id : Option Json) (r : Request) (written : List Write)
    (next : r.Answer → Talk Upshot) (m : Memory) (w : W × List Exchange) :
    (s.request id r written next).outcome p types m w =
      match s.recorded.ask (q.recorded s.typeId) id r w with
      | (.error f, w) => .fault f (m.applyAll written) w
      | (.ok a, w) => (next a).outcome p types m w := by
  have hprovider : s.kind.provider = some q := Compilation.provider_eq_some hq
  have hanswer : types.answer ⟨s.typeId, id, r⟩ w.1 = q.ask id r w.1 := by
    rw [Registry.answer, hkind, Option.bind_some, hprovider]
  simp only [Talk.outcome, request, Talk.hold, hanswer, Staged.ask, Provider.recorded,
    Call.answered]
  rcases q.ask id r w.1 with ⟨reason | a, w'⟩
  · simp [Talk.fault, Talk.hold, Outcome.fault, Upshot.flow]
  · simp

/-! ### One operation after the other -/

theorem create_recorded (hkind : types.get? s.typeId = some s.kind) :
    s.recorded.create m w = (s.talkCreate m).outcome p types m w := by
  unfold create talkCreate
  rw [prepareCreate_recorded, Talk.outcome_need]
  cases hprepare : s.prepareCreate m with
  | error f => rfl
  | ok x =>
    have hq : s.provider = .ok x.2 := (prepareCreate_eq_ok hprepare).2.1
    simp only [Except.map, outcome_request hkind hq, schema_recorded, name_recorded]
    rcases s.recorded.ask (x.2.recorded s.typeId) none (.create x.1) w with ⟨f | id, w'⟩
    · rfl
    · show (if s.kind.schema.needsRemoteId && Option.isNone id then _ else _) =
        Talk.outcome p types
          (if s.kind.schema.needsRemoteId && Option.isNone id then _ else _) m w'
      split
      · exact (Talk.outcome_fault p types _ [] m w').symm
      · exact (Talk.outcome_next p types [.track s.name (Option.getD id .null)] m w').symm

theorem read_recorded (hkind : types.get? s.typeId = some s.kind) :
    s.recorded.read m w = (s.talkRead m).outcome p types m w := by
  unfold read talkRead
  rw [Talk.outcome_need]
  simp only [provider_recorded, schema_recorded, name_recorded]
  cases hq : s.provider with
  | error f => rfl
  | ok q =>
    simp only [Except.map, outcome_request hkind hq]
    rcases s.recorded.ask (q.recorded s.typeId) (m.remoteId s.name)
      (.read s.kind.schema.readable) w with ⟨f | found, w'⟩
    · rfl
    · show (if s.kind.schema.outputs.isEmpty then _ else _) =
        Talk.outcome p types (if s.kind.schema.outputs.isEmpty then _ else _) m w'
      split
      · exact (Talk.outcome_next p types [.bind "current" (.obj _)] m w').symm
      · rw [outcome_request hkind hq]
        rcases s.recorded.ask (q.recorded s.typeId) (m.remoteId s.name) .outputs w'
          with ⟨f | outputs, w''⟩
        · rfl
        · exact (Talk.outcome_next p types [.bind "current" (.obj _), .store s.name outputs] m
            w'').symm

theorem send_recorded (hkind : types.get? s.typeId = some s.kind) {q : Provider W}
    (hq : s.provider = .ok q) {properties : Properties} :
    s.recorded.sendUpdate (q.recorded s.typeId) properties m w =
      (s.talkSend properties m).outcome p types m w := by
  unfold sendUpdate talkSend
  rw [outcome_request hkind hq]
  simp only [name_recorded, mutableOnly_recorded]
  rcases s.recorded.ask (q.recorded s.typeId) (m.remoteId s.name)
    (.update (s.mutableOnly properties)) w with ⟨f | _, w'⟩
  · rfl
  · exact (Talk.outcome_next p types [] m w').symm

theorem update_recorded (hkind : types.get? s.typeId = some s.kind) :
    s.recorded.update m w = (s.talkUpdate m).outcome p types m w := by
  unfold update talkUpdate
  simp only [provider_recorded, schema_recorded, name_recorded, op_recorded, Talk.outcome_need]
  cases m.requireObject s.op.name "properties" with
  | error f => rfl
  | ok properties =>
    cases hq : s.provider with
    | error f => rfl
    | ok q =>
      simp only [bind, Except.bind, Except.map, pure, Except.pure]
      rcases s.kind.schema.immutableFields.filter properties.contains with _ | ⟨field, fields⟩
      · exact send_recorded hkind hq
      · simp only [outcome_request hkind hq]
        rcases s.recorded.ask (q.recorded s.typeId) (m.remoteId s.name) (.read (field :: fields)) w
          with ⟨f | current, w'⟩
        · rfl
        · dsimp only
          rcases changedImmutable s.kind.schema current properties with _ | _
          · exact send_recorded hkind hq
          · exact (Talk.outcome_fault p types _ [] m w').symm

theorem delete_recorded (hkind : types.get? s.typeId = some s.kind) :
    s.recorded.delete m w = (s.talkDelete m).outcome p types m w := by
  unfold delete talkDelete
  rw [Talk.outcome_need]
  simp only [provider_recorded, name_recorded]
  cases hq : s.provider with
  | error f => rfl
  | ok q =>
    simp only [Except.map, outcome_request hkind hq]
    rcases s.recorded.ask (q.recorded s.typeId) (m.remoteId s.name) .delete w with ⟨f | _, w'⟩
    · rfl
    · exact (Talk.outcome_next p types [] m w').symm

theorem outputs_recorded (hkind : types.get? s.typeId = some s.kind) {q : Provider W}
    (hq : s.provider = .ok q) :
    s.recorded.storeOutputs (q.recorded s.typeId) m w =
      (s.talkOutputs m).outcome p types m w := by
  unfold storeOutputs talkOutputs
  rw [outcome_request hkind hq]
  simp only [name_recorded]
  rcases s.recorded.ask (q.recorded s.typeId) (m.remoteId s.name) .outputs w
    with ⟨f | outputs, w'⟩
  · rfl
  · exact (Talk.outcome_next p types [.store s.name outputs] m w').symm

theorem checkChange_recorded (c : Change) (hkind : types.get? s.typeId = some s.kind) :
    s.recorded.checkChange c m w = (s.talkCheck c m).outcome p types m w := by
  unfold checkChange talkCheck
  rw [Talk.outcome_need]
  simp only [provider_recorded, name_recorded]
  cases hq : s.provider with
  | error f => rfl
  | ok q =>
    simp only [Except.map, outcome_request hkind hq]
    rcases s.recorded.ask (q.recorded s.typeId) (m.remoteId s.name) (.complete c) w
      with ⟨f | _ | _, w'⟩
    · rfl
    · exact (Talk.outcome_stay p types m w').symm
    · exact outputs_recorded hkind hq

theorem checkDelete_recorded (hkind : types.get? s.typeId = some s.kind) :
    s.recorded.checkDelete m w = (s.talkCheckDelete m).outcome p types m w := by
  unfold checkDelete talkCheckDelete
  rw [Talk.outcome_need]
  simp only [provider_recorded, name_recorded]
  cases hq : s.provider with
  | error f => rfl
  | ok q =>
    simp only [Except.map, outcome_request hkind hq]
    rcases s.recorded.ask (q.recorded s.typeId) (m.remoteId s.name) .deleteComplete w
      with ⟨f | _ | _, w'⟩
    · rfl
    · exact (Talk.outcome_stay p types m w').symm
    · exact (Talk.outcome_next p types
        [.list s.name, .untrack s.name, .discard s.name] m w').symm

theorem checkExist_recorded (hkind : types.get? s.typeId = some s.kind) :
    s.recorded.checkExist m w = (s.talkCheckExist m).outcome p types m w := by
  unfold checkExist talkCheckExist
  simp only [provider_recorded, schema_recorded, name_recorded]
  split
  · rw [Talk.outcome_need]
    cases hq : s.provider with
    | error f => rfl
    | ok q =>
      simp only [Except.map, outcome_request hkind hq]
      rcases s.recorded.ask (q.recorded s.typeId) (m.remoteId s.name) .found w
        with ⟨f | found, w'⟩
      · rfl
      · exact (Talk.outcome_next p types [testWrite found] m w').symm
  · exact (Talk.outcome_next p types [testWrite true] m w).symm

theorem markDeletable_recorded :
    s.recorded.markDeletable m w = (s.talkMarkDeletable m).outcome p types m w := by
  show (if (m.remoteId (deletable s.name)).isSome then _ else _) =
    Talk.outcome p types (if (m.remoteId (deletable s.name)).isSome then _ else _) m w
  split
  · exact (Talk.outcome_fault p types _ [] m w).symm
  · exact (Talk.outcome_next p types [.untrack s.name, .track (deletable s.name) _] m w).symm

theorem filter_recorded :
    s.recorded.filter m w = (s.talkFilter m).outcome p types m w := by
  unfold filter talkFilter
  simp only [op_recorded, schema_recorded, Talk.outcome_need]
  cases m.requireObject s.op.name "current" with
  | error f => rfl
  | ok current =>
    cases m.requireObject s.op.name "properties" with
    | error f => rfl
    | ok desired => exact (Talk.outcome_next p types [.bind "properties" _] m w).symm

theorem rescmp_recorded :
    s.recorded.rescmp rom m w = (s.talkRescmp rom m).outcome p types m w := by
  have hdecide : s.recorded.decide rom m = s.decide rom m := rfl
  unfold rescmp talkRescmp
  rw [hdecide, Talk.outcome_need]
  cases s.decide rom m with
  | error f => rfl
  | ok d => exact (Talk.outcome_next p types [.decide s.name d] m w).symm

/-- **An operation is a talk that is held with the provider of its type.** -/
theorem perform_recorded (hkind : types.get? s.typeId = some s.kind) :
    s.recorded.perform rom m w = (s.talk rom m).outcome p types m w := by
  rw [perform, talk, op_recorded]
  cases s.op with
  | create => exact create_recorded hkind
  | read => exact read_recorded hkind
  | update => exact update_recorded hkind
  | delete => exact delete_recorded hkind
  | checkCreate => exact checkChange_recorded .create hkind
  | checkUpdate => exact checkChange_recorded .update hkind
  | checkDelete => exact checkDelete_recorded hkind
  | checkExist => exact checkExist_recorded hkind
  | markDeletable => exact markDeletable_recorded
  | filter => exact filter_recorded
  | rescmp => exact rescmp_recorded

end Staged

/-! ### Instructions -/

/-- Whether an instruction stays within its routine, and is carried out by holding a talk. -/
def Instruction.inner : Instruction → Bool
  | .init | .halt | .call _ | .ret => false
  | _ => true

theorem Instruction.isResourceOp_of_not_inner {i : Instruction} (h : i.inner = false) :
    i.isResourceOp = false := by
  cases i <;> first | rfl | cases h

/-- Binds a value to the staged key. -/
def Talk.bindStaged (v : Json) (m : Memory) : Talk Upshot :=
  match m.temp.get? Memory.stagedKey with
  | none => .fault .noKeySet []
  | some (.str key) => .next [.unstage, .bind key v]
  | some other =>
    .fault (.invalidOperand "value" ("staged key " ++ other.text ++ " is not a string")) [.unstage]

/-- The change that writes a value under a name into one of the tables. -/
def Write.into (table key : String) (v : Json) : Except Fault Write :=
  match table with
  | "remote_ids" => .ok (if v.isNull then .untrack key else .track key v)
  | "outputs" =>
    match v with
    | .null => .ok (.discard key)
    | .obj fields => .ok (.store key fields)
    | _ => .error (.invalidOperand "memwrite" ("outputs must be a map, got " ++ v.text))
  | "update_action" =>
    match v.asStr?.bind Decision.ofText? with
    | some d => .ok (.decide key d)
    | none => .error (.invalidOperand "memwrite" ("bad update action " ++ v.text))
  | _ => .error (.invalidOperand "memwrite" ("cannot write into '" ++ table ++ "'"))

/-- What an instruction says whose scratch values are all there. -/
def Instruction.say {W : Type} (rom : Rom) (types : Registry W) (i : Instruction) (m : Memory) :
    Talk Upshot :=
  match i with
  | .clear => .next [.clear]
  | .invert => .need (m.result i.name) fun r => .next [Staged.testWrite (r = 0)]
  | .key name => .next [.bind Memory.stagedKey (.str name)]
  | .value v => .bindStaged v m
  | .valueRom address => .need (rom.resolve m.outputValue address) fun v => .bindStaged v m
  | .valueUpdate name =>
    match m.decisions.get? name with
    | none => .fault (.decisionMissing name) []
    | some d => .next [.clear, .bind Memory.resultKey (.str d.text)]
  | .memwrite v =>
    .need (m.requireStr "memwrite" "superkey") fun table =>
      .need (m.requireStr "memwrite" "key") fun key =>
        .need (Write.into table key v) fun wr => .next [wr]
  | .compare expected =>
    .next [Staged.testWrite (match m.temp.get? Memory.resultKey with
      | some v => v.same expected
      | none => false)]
  | .assert name =>
    .need (m.result i.name) fun r => if r = 1 then .next [] else .fault (.assertion name) []
  | .gotoIf target =>
    .need (m.result i.name) fun r => if r = 0 then .next [] else .done ⟨.ok (.branch target), []⟩
  | .resource op => .need (Staged.ofMemory types op m) fun s => s.talk rom m
  | .init | .halt | .call _ | .ret => .next []

/-- What an instruction says, the first missing scratch value being reported before
anything else. -/
def Instruction.talk {W : Type} (rom : Rom) (types : Registry W) (i : Instruction) (m : Memory) :
    Talk Upshot :=
  match i.requiredKeys.find? fun k => !m.temp.contains k with
  | some k => .fault (.missingParameter i.name k) []
  | none => i.say rom types m

section

variable {W : Type} {p : Program} {types : Registry W} {i : Instruction} {m : Memory}
  {w : W × List Exchange}

theorem bindStaged_recorded (v : Json) :
    bindStaged v m w = (Talk.bindStaged v m).outcome p types m w := by
  unfold bindStaged Talk.bindStaged takeStagedKey
  cases m.temp.get? Memory.stagedKey with
  | none => exact (Talk.outcome_fault p types _ [] m w).symm
  | some k =>
    cases k with
    | str key => exact (Talk.outcome_next p types [.unstage, .bind key v] m w).symm
    | _ => exact (Talk.outcome_fault p types _ [.unstage] m w).symm

theorem write_eq (m : Memory) (table key : String) (v : Json) :
    m.write table key v = (Write.into table key v).map m.apply := by
  unfold Memory.write Write.into
  split
  · split <;> rfl
  · cases v <;> rfl
  · cases v.asStr?.bind Decision.ofText? <;> rfl
  · simp [Except.map]

theorem memwrite_recorded (v : Json) :
    perform p types.recorded (.memwrite v) m w =
      ((Instruction.memwrite v).say p.tables.rom types m).outcome p types m w := by
  rw [perform, Instruction.say, Talk.outcome_need]
  cases htable : m.requireStr "memwrite" "superkey" with
  | error f =>
    have hwritten : m.writeStaged v = .error f := by
      rw [Memory.writeStaged, htable]
      rfl
    rw [hwritten]
  | ok table =>
    dsimp only
    rw [Talk.outcome_need]
    cases hkey : m.requireStr "memwrite" "key" with
    | error f =>
      have hwritten : m.writeStaged v = .error f := by
        rw [Memory.writeStaged, htable, hkey]
        rfl
      rw [hwritten]
    | ok key =>
      have hwritten : m.writeStaged v = (Write.into table key v).map m.apply := by
        rw [Memory.writeStaged, htable, hkey]
        exact write_eq m table key v
      dsimp only
      rw [hwritten, Talk.outcome_need]
      cases Write.into table key v with
      | error f => rfl
      | ok wr => exact (Talk.outcome_next p types [wr] m w).symm

/-- An instruction whose scratch values are there is a talk that is held. -/
theorem say_recorded (hinner : i.inner = true) :
    perform p types.recorded i m w = (i.say p.tables.rom types m).outcome p types m w := by
  cases i with
  | init | halt | call | ret => cases hinner
  | clear => exact (Talk.outcome_next p types [.clear] m w).symm
  | key name => exact (Talk.outcome_next p types [.bind Memory.stagedKey (.str name)] m w).symm
  | compare expected => exact (Talk.outcome_next p types [Staged.testWrite _] m w).symm
  | value v => exact bindStaged_recorded v
  | invert =>
    rw [perform, Instruction.say, Talk.outcome_need]
    cases m.result Instruction.invert.name with
    | error f => rfl
    | ok r => exact (Talk.outcome_next p types [Staged.testWrite (r = 0)] m w).symm
  | assert name =>
    rw [perform, Instruction.say, Talk.outcome_need]
    cases m.result (Instruction.assert name).name with
    | error f => rfl
    | ok r =>
      show (if r = 1 then _ else _) = Talk.outcome p types (if r = 1 then _ else _) m w
      split
      · exact (Talk.outcome_next p types [] m w).symm
      · exact (Talk.outcome_fault p types _ [] m w).symm
  | gotoIf target =>
    rw [perform, Instruction.say, Talk.outcome_need]
    cases m.result (Instruction.gotoIf target).name with
    | error f => rfl
    | ok r =>
      show (if r = 0 then _ else _) = Talk.outcome p types (if r = 0 then _ else _) m w
      split
      · exact (Talk.outcome_next p types [] m w).symm
      · rw [Talk.outcome_done]
        show _ = Outcome.mk ((p.target target).map .jump) m w
        cases p.target target <;> rfl
  | valueRom address =>
    rw [perform, Instruction.say, Talk.outcome_need]
    cases p.tables.rom.resolve m.outputValue address with
    | error f => rfl
    | ok v => exact bindStaged_recorded v
  | valueUpdate name =>
    rw [perform, Instruction.say]
    cases m.decisions.get? name with
    | none => exact (Talk.outcome_fault p types _ [] m w).symm
    | some d =>
      exact (Talk.outcome_next p types [.clear, .bind Memory.resultKey (.str d.text)] m w).symm
  | memwrite v => exact memwrite_recorded v
  | resource op =>
    rw [perform, Instruction.say, Talk.outcome_need, Staged.ofMemory_recorded]
    cases hs : Staged.ofMemory types op m with
    | error f => rfl
    | ok s =>
      obtain ⟨-, -, -, hkind⟩ := Staged.ofMemory_eq_ok.1 hs
      exact s.perform_recorded hkind

/-- **An instruction is a talk that is held with the providers.** -/
theorem execute_recorded (hinner : i.inner = true) :
    execute p types.recorded i m w = (i.talk p.tables.rom types m).outcome p types m w := by
  rw [execute, Instruction.talk]
  cases i.requiredKeys.find? fun k => !m.temp.contains k with
  | some k => exact (Talk.outcome_fault p types _ [] m w).symm
  | none => exact say_recorded hinner

/-- Without the record, the same talk is held. -/
theorem execute_eq_hold (types : Registry W) (hinner : i.inner = true) (world : W) :
    execute p types i m world =
      let held := (i.talk p.tables.rom types m).hold types world
      ⟨held.result.flow p, m.applyAll held.result.writes, held.world⟩ := by
  rw [← forget_execute i (world, []), execute_recorded hinner]
  rfl

/-- **A step in a routine holds the talk of its instruction, and all that is said in the step
is said there.** -/
theorem Run.step_of_talk (types : Registry W) {r : Run W} (hrunning : r.ended p = false)
    (hi : p.instructions[r.memory.programCounter]? = some i) (hinner : i.inner = true) :
    let held := (i.talk p.tables.rom types r.memory).hold types r.world
    r.step p types = settle (r.log ++ logged i r.memory)
        ⟨held.result.flow p, r.memory.applyAll held.result.writes, held.world⟩
        r.memory.programCounter ∧
      exchanges p types r = held.said := by
  constructor
  · rw [step_of_instruction hrunning hi, execute_eq_hold types hinner]
  · rw [exchanges_of_instruction hrunning hi, execute_recorded hinner]
    exact List.nil_append _

namespace Run

/-- A step logs the same where the same name is staged. -/
theorem logged_congr {i : Instruction} {m m' : Memory}
    (h : i.isResourceOp = true → stagedName m' = stagedName m) : logged i m' = logged i m := by
  cases i with
  | resource op => rw [logged_resource, logged_resource, h rfl]
  | _ => rfl

/-- All that is said in the first steps of a run, each exchange with the name that was staged. -/
def spoken (p : Program) (types : Registry W) (r : Run W) : (n : Nat) → List (String × Exchange)
  | 0 => []
  | n + 1 =>
    let before := steps p types n r
    spoken p types r n ++ (exchanges p types before).map (stagedName before.memory, ·)

theorem spoken_add (p : Program) (types : Registry W) (r : Run W) (n k : Nat) :
    spoken p types r (n + k) = spoken p types r n ++ spoken p types (steps p types n r) k := by
  induction k with
  | zero => exact (List.append_nil _).symm
  | succ k ih => rw [← Nat.add_assoc, spoken, spoken, ih, steps_add, List.append_assoc]

/-- Behind the end of a run nothing is said. -/
theorem spoken_of_ended_le {p : Program} {types : Registry W} {r : Run W} {n n' : Nat}
    (h : (steps p types n r).ended p = true) (hn : n ≤ n') :
    spoken p types r n' = spoken p types r n := by
  induction n', hn using Nat.le_induction with
  | base => rfl
  | succ n' hn ih =>
    rw [spoken, steps_of_ended_le h hn, exchanges_of_ended h, List.map_nil, List.append_nil, ih]

/-- A step makes the requests that are said in it. -/
theorem tell_exchanges (p : Program) (types : Registry W) (r : Run W) :
    types.tell ((exchanges p types r).map Exchange.call) r.world =
      (exchanges p types r, (r.step p types).world) := by
  cases hrunning : r.ended p with
  | true => rw [exchanges_of_ended hrunning, step_of_ended hrunning]; rfl
  | false =>
    obtain ⟨i, hi⟩ := exists_instruction hrunning
    cases hinner : i.inner with
    | true =>
      obtain ⟨hstep, hsaid⟩ := step_of_talk types hrunning hi hinner
      rw [hsaid, hstep, Talk.tell_said]
      unfold settle
      split <;> rfl
    | false =>
      have hsilent := i.isResourceOp_of_not_inner hinner
      rw [exchanges_of_silent hrunning hi hsilent, step_of_instruction hrunning hi]
      have hworld : (execute p types i r.memory r.world).world = r.world :=
        world_execute hsilent r.world
      unfold settle
      split <;> exact congrArg (Prod.mk []) hworld.symm

/-- **What is said in a run, and the world that it leaves, follow from the requests that it
makes.** -/
theorem tell_spoken (p : Program) (types : Registry W) (r : Run W) (n : Nat) :
    types.tell ((spoken p types r n).map fun e => e.2.call) r.world =
      ((spoken p types r n).map Prod.snd, (steps p types n r).world) := by
  induction n with
  | zero => rfl
  | succ n ih =>
    have hmap : ((exchanges p types (steps p types n r)).map
        (stagedName (steps p types n r).memory, ·)).map (fun e => e.2.call) =
          (exchanges p types (steps p types n r)).map Exchange.call := by
      rw [List.map_map]
      rfl
    rw [spoken, List.map_append, Registry.tell_append, ih, hmap, tell_exchanges, steps_succ,
      List.map_append, List.map_map]
    exact congrArg (fun es => (_ ++ es, _)) (List.map_id _).symm

end Run

end

end Provisioning
