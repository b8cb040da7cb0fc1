/-
How an instruction conducts its talk.

All checks that an instruction can make by itself come before its first request.  If one of
them fails, nothing was said and nothing but scratch is touched.  Behind the first answer there
is little left to go wrong: the provider refuses, gives no identifier where one is needed, or
shows that an immutable field would change.  And the tables are written at the very end, so no
fault finds them half written.

Only the first request can be one that is answered with "not yet", and then the talk is over:
the instruction stays, and has changed nothing.  Any other answer is followed by an end that
does not stay.

`Talk.Regular` says all of this of a talk.  It is shown for the talk of every instruction by
going through them once; what a fault leaves behind and what a poll leaves behind are read off
it.
-/
import Provisioning.Proofs.Run.Alike

namespace Provisioning

/-! ### Answers -/

namespace Request

/-- Whether the request asks if something that was begun is complete. -/
def awaits : Request → Bool
  | .complete _ | .deleteComplete => true
  | .create _ | .read _ | .update _ | .delete | .outputs | .found => false

/-- The answer says that what was begun is not complete yet. -/
def notYet : (r : Request) → Except String r.Answer → Bool
  | .complete _, .ok false | .deleteComplete, .ok false => true
  | _, _ => false

theorem notYet_of_not_awaits {r : Request} (h : r.awaits = false)
    (a : Except String r.Answer) : r.notYet a = false := by
  cases r <;> first | rfl | cases h

end Request

/-- The exchange is a poll: what is asked for is not complete yet. -/
def Exchange.notYet (e : Exchange) : Bool := e.request.notYet e.answer

namespace Fault

/-- Whether a fault is found in what a provider answers. -/
def answered : Fault → Bool
  | .backend _ _ _ | .missingRemoteId _ | .immutableFieldChanged _ _ => true
  | _ => false

end Fault

/-! ### Regular talks -/

/-- The change is to scratch only. -/
def Write.scratch : Write → Bool
  | .clear | .unstage | .bind _ _ => true
  | _ => false

theorem Write.scratch_nil : ∀ wr ∈ ([] : List Write), wr.scratch = true := nofun

/-- What a fault may have behind it: `asked` tells whether a request was made before. -/
structure Fault.Contained (f : Fault) (asked : Bool) (ws : List Write) : Prop where
  /-- The tables are not touched. -/
  scratch : ∀ wr ∈ ws, wr.scratch = true
  /-- After a request only an answer can be at fault. -/
  answered : asked = true → f.answered = true
  /-- What is missing is noticed before anything is touched. -/
  missing : ∀ instruction key, f = .missingParameter instruction key → ws = []

/-- An end that does not stay. -/
structure Upshot.Firm (u : Upshot) (asked : Bool) : Prop where
  moves : u.turn ≠ .ok .stay
  /-- A branch is taken without a word, and changes nothing. -/
  branches : ∀ target, u.turn = .ok (.branch target) → asked = false ∧ u.writes = []
  fails : ∀ f, u.turn = .error f → f.Contained asked u.writes

namespace Talk

/-- How a talk may go on behind an answer: without waiting for anything. -/
def Closes : Talk Upshot → Prop
  | .done u => u.Firm true
  | .ask call next => call.request.awaits = false ∧ ∀ a, (next a).Closes

/-- How a talk may go: "not yet" is only said to the first request, and ends it. -/
def Regular : Talk Upshot → Prop
  | .done u => u.Firm false
  | .ask call next => ∀ a, if call.request.notYet a then next a = .stay else (next a).Closes

/-! ### The talks of operations -/

theorem firm_next (ws : List Write) (asked : Bool) : Upshot.Firm ⟨.ok .next, ws⟩ asked where
  moves := nofun
  branches := by rintro _ ⟨⟩
  fails := by rintro _ ⟨⟩

theorem firm_branch (target : Target) : Upshot.Firm ⟨.ok (.branch target), []⟩ false where
  moves := nofun
  branches _ _ := ⟨rfl, rfl⟩
  fails := by rintro _ ⟨⟩

theorem firm_fault {f : Fault} {asked : Bool} {ws : List Write} (h : f.Contained asked ws) :
    Upshot.Firm ⟨.error f, ws⟩ asked where
  moves := nofun
  branches := nofun
  fails := by
    rintro _ ⟨⟩
    exact h

/-- A fault that is found before the first request and before anything is touched. -/
theorem contained_nil (f : Fault) : f.Contained false [] :=
  ⟨Write.scratch_nil, nofun, fun _ _ _ => rfl⟩

theorem contained_of_answered {f : Fault} (h : f.answered = true) {ws : List Write}
    (hws : ∀ wr ∈ ws, wr.scratch = true) (asked : Bool) : f.Contained asked ws where
  scratch := hws
  answered _ := h
  missing := by
    rintro _ _ rfl
    cases h

theorem regular_next (ws : List Write) : (next ws).Regular := firm_next ws false

theorem regular_fault {f : Fault} {ws : List Write} (h : f.Contained false ws) :
    (fault f ws).Regular :=
  firm_fault h

theorem closes_next (ws : List Write) : (next ws).Closes := firm_next ws true

theorem closes_fault {f : Fault} (h : f.answered = true) : (fault f []).Closes :=
  firm_fault (contained_of_answered h Write.scratch_nil true)

/-- What is not there is a fault before the first request. -/
theorem regular_need {α : Type} {x : Except Fault α} {rest : α → Talk Upshot}
    (h : ∀ a, x = .ok a → (rest a).Regular) : (need x rest).Regular := by
  cases x with
  | error f => exact regular_fault (contained_nil f)
  | ok a => exact h a rfl

end Talk

namespace Staged

open Talk

variable {W : Type} (s : Staged W) (id : Option Json)

theorem closes_request {r : Request} (hr : r.awaits = false) {written : List Write}
    (hwritten : ∀ wr ∈ written, wr.scratch = true) {next : r.Answer → Talk Upshot}
    (h : ∀ a, (next a).Closes) : (s.request id r written next).Closes := by
  refine ⟨hr, ?_⟩
  rintro (reason | a)
  · exact firm_fault (contained_of_answered rfl hwritten true)
  · exact h a

theorem regular_of_closes {r : Request} (hr : r.awaits = false) {written : List Write}
    {next : r.Answer → Talk Upshot} (h : (s.request id r written next).Closes) :
    (s.request id r written next).Regular := by
  intro a
  rw [Request.notYet_of_not_awaits hr a]
  exact h.2 a

theorem regular_request {r : Request} (hr : r.awaits = false) {written : List Write}
    (hwritten : ∀ wr ∈ written, wr.scratch = true) {next : r.Answer → Talk Upshot}
    (h : ∀ a, (next a).Closes) : (s.request id r written next).Regular :=
  regular_of_closes s id hr (closes_request s id hr hwritten h)

variable (rom : Rom) (m : Memory)

theorem closes_outputs : (s.talkOutputs m).Closes :=
  closes_request s _ rfl Write.scratch_nil fun _ => closes_next _

theorem closes_send (properties : Properties) : (s.talkSend properties m).Closes :=
  closes_request s _ rfl Write.scratch_nil fun _ => closes_next _

theorem regular_create : (s.talkCreate m).Regular := by
  refine regular_need fun prepared _ => regular_request s none rfl Write.scratch_nil fun id => ?_
  split
  · exact closes_fault rfl
  · exact closes_next _

theorem regular_read : (s.talkRead m).Regular := by
  refine regular_need fun _ _ => regular_request s _ rfl Write.scratch_nil fun found => ?_
  split
  · exact closes_next _
  · refine closes_request s _ rfl ?_ fun _ => closes_next _
    intro wr hwr
    obtain rfl := List.mem_singleton.1 hwr
    rfl

theorem regular_update : (s.talkUpdate m).Regular := by
  refine regular_need fun properties _ => regular_need fun _ _ => ?_
  split
  · exact regular_of_closes s _ rfl (closes_send s m properties)
  · refine regular_request s _ rfl Write.scratch_nil fun current => ?_
    split
    · exact closes_send s m properties
    · exact closes_fault rfl

theorem regular_delete : (s.talkDelete m).Regular :=
  regular_need fun _ _ => regular_request s _ rfl Write.scratch_nil fun _ => closes_next _

theorem regular_check (c : Change) : (s.talkCheck c m).Regular := by
  refine regular_need fun _ _ => ?_
  rintro (reason | _ | _)
  · exact closes_fault rfl
  · exact rfl
  · exact closes_outputs s m

theorem regular_checkDelete : (s.talkCheckDelete m).Regular := by
  refine regular_need fun _ _ => ?_
  rintro (reason | _ | _)
  · exact closes_fault rfl
  · exact rfl
  · exact closes_next _

theorem regular_checkExist : (s.talkCheckExist m).Regular := by
  unfold talkCheckExist
  split
  · exact regular_need fun _ _ => regular_request s _ rfl Write.scratch_nil fun _ => closes_next _
  · exact regular_next _

theorem regular_markDeletable : (s.talkMarkDeletable m).Regular := by
  unfold talkMarkDeletable
  dsimp only
  split
  · exact regular_fault (contained_nil _)
  · exact regular_next _

theorem regular_filter : (s.talkFilter m).Regular :=
  regular_need fun _ _ => regular_need fun _ _ => regular_next _

theorem regular_rescmp : (s.talkRescmp rom m).Regular :=
  regular_need fun _ _ => regular_next _

/-- **Every operation conducts its talk regularly.** -/
theorem regular_talk : (s.talk rom m).Regular := by
  unfold talk
  split
  · exact s.regular_create m
  · exact s.regular_read m
  · exact s.regular_update m
  · exact s.regular_delete m
  · exact s.regular_check m .create
  · exact s.regular_check m .update
  · exact s.regular_checkDelete m
  · exact s.regular_checkExist m
  · exact s.regular_markDeletable m
  · exact s.regular_filter m
  · exact s.regular_rescmp rom m

end Staged

/-! ### The talks of instructions -/

section

open Talk

variable {W : Type}

theorem regular_bindStaged (v : Json) (m : Memory) : (Talk.bindStaged v m).Regular := by
  unfold Talk.bindStaged
  split
  · exact regular_fault (contained_nil _)
  · exact regular_next _
  · refine regular_fault ⟨?_, nofun, nofun⟩
    intro wr hwr
    obtain rfl := List.mem_singleton.1 hwr
    rfl

theorem Instruction.regular_say (rom : Rom) (types : Registry W) (i : Instruction) (m : Memory) :
    (i.say rom types m).Regular := by
  cases i with
  | init | halt | call | ret | clear | key | compare => exact regular_next _
  | value v => exact regular_bindStaged v m
  | invert => exact regular_need fun _ _ => regular_next _
  | valueRom address => exact regular_need fun v _ => regular_bindStaged v m
  | valueUpdate name =>
    rw [say]
    split
    · exact regular_fault (contained_nil _)
    · exact regular_next _
  | memwrite v =>
    exact regular_need fun _ _ => regular_need fun _ _ => regular_need fun _ _ => regular_next _
  | assert name =>
    refine regular_need fun r _ => ?_
    split
    · exact regular_next _
    · exact regular_fault (contained_nil _)
  | gotoIf target =>
    refine regular_need fun r _ => ?_
    split
    · exact regular_next _
    · exact firm_branch target
  | resource op => exact regular_need fun s _ => s.regular_talk rom m

/-- **Every instruction conducts its talk regularly.** -/
theorem Instruction.regular_talk (rom : Rom) (types : Registry W) (i : Instruction) (m : Memory) :
    (i.talk rom types m).Regular := by
  unfold talk
  split
  · exact regular_fault (contained_nil _)
  · exact i.regular_say rom types m

end

/-! ### Holding a regular talk -/

namespace Talk

variable {W : Type} {types : Registry W} {t : Talk Upshot} {w : W}

theorem Closes.firm (h : t.Closes) (types : Registry W) (w : W) :
    (t.hold types w).result.Firm true := by
  induction t generalizing w with
  | done u => exact h
  | ask call next ih => exact ih _ (h.2 _) _

/-- Behind the first answer there are no polls. -/
theorem Closes.said (h : t.Closes) (types : Registry W) (w : W) :
    ∀ e ∈ (t.hold types w).said, e.notYet = false := by
  induction t generalizing w with
  | done u => exact nofun
  | ask call next ih =>
    refine List.forall_mem_cons.2 ⟨?_, ih _ (h.2 _) _⟩
    exact Request.notYet_of_not_awaits h.1 _

/-- **A regular talk ends with a poll, or it does not stay and has no polls in it.** -/
theorem Regular.ends (h : t.Regular) (types : Registry W) (w : W) :
    ((t.hold types w).result = ⟨.ok .stay, []⟩ ∧
        ∃ e, (t.hold types w).said = [e] ∧ e.notYet = true) ∨
      ((t.hold types w).result.Firm (!(t.hold types w).said.isEmpty) ∧
        ∀ e ∈ (t.hold types w).said, e.notYet = false) := by
  cases t with
  | done u => exact .inr ⟨h, nofun⟩
  | ask call next =>
    have hnext := h (types.answer call w).1
    split at hnext
    · next hnotYet =>
      rw [hold, hnext]
      exact .inl ⟨rfl, _, rfl, hnotYet⟩
    · next hanswered =>
      exact .inr ⟨hnext.firm types _,
        List.forall_mem_cons.2 ⟨Bool.eq_false_iff.2 hanswered, hnext.said types _⟩⟩

end Talk

/-- A fault in the end of a talk, or in the target of its branch, is contained. -/
theorem Upshot.Firm.contained {u : Upshot} {asked : Bool} (h : u.Firm asked) {p : Program}
    {f : Fault} (hf : u.flow p = .error f) : f.Contained asked u.writes := by
  rcases Upshot.error_of_flow hf with hturn | ⟨target, hturn⟩
  · exact h.fails f hturn
  · obtain ⟨rfl, hwrites⟩ := h.branches target hturn
    rw [hwrites]
    exact Talk.contained_nil f

/-! ### What a fault leaves behind -/

theorem Memory.applyAll_scratch {ws : List Write} (h : ∀ wr ∈ ws, wr.scratch = true)
    (m : Memory) : ∃ temp, m.applyAll ws = { m with temp } := by
  induction ws generalizing m with
  | nil => exact ⟨m.temp, rfl⟩
  | cons wr rest ih =>
    obtain ⟨hwr, hrest⟩ := List.forall_mem_cons.1 h
    obtain ⟨temp, htemp⟩ := ih hrest (m.apply wr)
    refine ⟨temp, htemp.trans ?_⟩
    cases wr <;> first | rfl | cases hwr

section

variable {W : Type} {p : Program} {types : Registry W} {i : Instruction} {m : Memory} {w : W}
  {f : Fault}

/-- What an instruction leaves behind that a fault has stopped. -/
structure Leaves (p : Program) (types : Registry W) (i : Instruction) (m : Memory) (w : W)
    (f : Fault) : Prop where
  /-- Only scratch may have changed. -/
  memory : ∃ temp, (execute p types i m w).memory = { m with temp }
  /-- Unless it is an answer that is at fault, nothing was said, and the world is as it was. -/
  silent : f.answered = false →
    (execute p types.recorded i m (w, [])).world = (w, []) ∧ (execute p types i m w).world = w
  /-- What is missing is noticed before anything is touched. -/
  missing : ∀ instruction key, f = .missingParameter instruction key →
    (execute p types i m w).memory = m

/-- The driver's instructions and returns say nothing, and a fault finds all as it was. -/
theorem leaves_of_not_inner (hinner : i.inner = false)
    (h : (execute p types i m w).flow = .error f) : Leaves p types i m w f := by
  have hsilent := i.isResourceOp_of_not_inner hinner
  have hmemory : (execute p types i m w).memory = m := by
    cases i with
    | init | halt => cases h
    | ret =>
      change (perform p types .ret m w).flow = .error f at h
      show (perform p types .ret m w).memory = m
      rw [perform] at h ⊢
      split at h <;> first | rfl | cases h
    | call label =>
      change (perform p types (.call label) m w).flow = .error f at h
      show (perform p types (.call label) m w).memory = m
      rw [perform] at h ⊢
      split at h <;> first | rfl | cases h
    | _ => cases hinner
  refine ⟨⟨m.temp, hmemory⟩, fun _ => ⟨?_, world_execute hsilent w⟩, fun _ _ _ => hmemory⟩
  exact world_execute hsilent (w, [])

/-- An instruction that holds a talk leaves behind what the talk does. -/
theorem leaves_of_inner (hinner : i.inner = true)
    (h : (execute p types i m w).flow = .error f) : Leaves p types i m w f := by
  obtain ⟨held, hheld⟩ : ∃ held, (i.talk p.tables.rom types m).hold types w = held := ⟨_, rfl⟩
  have hexecute : execute p types i m w =
      ⟨held.result.flow p, m.applyAll held.result.writes, held.world⟩ := by
    rw [execute_eq_hold types hinner, hheld]
  have hrecorded : (execute p types.recorded i m (w, [])).world = (held.world, held.said) := by
    rw [execute_recorded hinner, Talk.outcome, hheld]
    rfl
  have hends := (i.regular_talk p.tables.rom types m).ends types w
  have htell := Talk.tell_said types (i.talk p.tables.rom types m) w
  rw [hheld] at hends htell
  rw [hexecute] at h
  rcases hends with ⟨hstay, -⟩ | ⟨hfirm, -⟩
  · rw [hstay] at h
    cases h
  have hcontained := hfirm.contained h
  obtain ⟨temp, htemp⟩ := Memory.applyAll_scratch hcontained.scratch m
  constructor
  · rw [hexecute]
    exact ⟨temp, htemp⟩
  · intro hf
    have hsaid : held.said = [] := by
      cases hsaid : held.said with
      | nil => rfl
      | cons e es =>
        rw [hsaid] at hcontained
        rw [hcontained.answered rfl] at hf
        cases hf
    rw [hsaid] at htell hrecorded
    have hworld : held.world = w := (congrArg Prod.snd htell).symm
    rw [hrecorded, hexecute, hworld]
    exact ⟨rfl, rfl⟩
  · rintro instruction key rfl
    rw [hexecute, hcontained.missing instruction key rfl]
    rfl

theorem leaves_of_error (h : (execute p types i m w).flow = .error f) :
    Leaves p types i m w f := by
  cases hinner : i.inner with
  | true => exact leaves_of_inner hinner h
  | false => exact leaves_of_not_inner hinner h

/-- What a step leaves behind whose instruction was stopped by a fault. -/
structure Run.StoppedBy (p : Program) (types : Registry W) (r : Run W) (f : Fault) : Prop where
  /-- The fault is noted; but for it and scratch the memory is as before. -/
  memory : ∃ temp, (r.step p types).memory = { r.memory with temp, error := some f } ∧
    ∀ instruction key, f = .missingParameter instruction key → temp = r.memory.temp
  /-- Unless it is an answer that is at fault, nothing was said, and the world is as it was. -/
  silent : f.answered = false →
    exchanges p types r = [] ∧ (r.step p types).world = r.world

theorem Leaves.stoppedBy {r : Run W} (h : Leaves p types i r.memory r.world f)
    (hrunning : r.ended p = false) (hi : p.instructions[r.memory.programCounter]? = some i)
    (hf : (execute p types i r.memory r.world).flow = .error f) : r.StoppedBy p types f := by
  have hstep : r.step p types = ⟨{ (execute p types i r.memory r.world).memory with
      error := some f }, r.log ++ Run.logged i r.memory, false,
      (execute p types i r.memory r.world).world⟩ := by
    rw [Run.step_of_instruction hrunning hi, Run.settle, hf]
  constructor
  · obtain ⟨temp, htemp⟩ := h.memory
    refine ⟨temp, by rw [hstep, htemp], fun instruction key hmissing => ?_⟩
    have hsame := h.missing instruction key hmissing
    rw [htemp] at hsame
    exact congrArg Memory.temp hsame
  · intro hanswered
    obtain ⟨hrecorded, hworld⟩ := h.silent hanswered
    rw [Run.exchanges_of_instruction hrunning hi, hrecorded, hstep]
    exact ⟨rfl, hworld⟩

/-- **A fault finds the tables and control as they were.**  Only scratch may have changed, and
not even that if a scratch value was missing; and unless an answer is at fault, no provider was
asked.  The run adds nothing to this but the fault itself. -/
theorem leaves_of_fault (p : Program) (types : Registry W) :
    (∀ i m w f, (execute p types i m w).flow = .error f → Leaves p types i m w f) ∧
      ∀ (r : Run W) i f, r.ended p = false →
        p.instructions[r.memory.programCounter]? = some i →
        (execute p types i r.memory r.world).flow = .error f → r.StoppedBy p types f :=
  ⟨fun _ _ _ _ h => leaves_of_error h,
    fun _ _ _ hrunning hi h => (leaves_of_error h).stoppedBy hrunning hi h⟩

end

/-- A provider that reads fields, but has no outputs to give. -/
def deafProvider : Provider Unit where
  ask id request w := match request with
    | .outputs => (.error "down", w)
    | other => plainProvider.ask id other w

/-- The one type of plain plans, with that provider. -/
def deafTypes : Registry Unit :=
  Table.ofList [("file", ⟨plainSchema true, some deafProvider⟩)]

/-- A reading is refused at the second request, with what was read first left in scratch; a
creation without properties does not begin. -/
theorem leaves_of_fault_refused :
    let p : Program := ⟨Program.empty.tables, [.resource .read, .resource .create]⟩
    let m := { Memory.fresh with
      temp := [("resource_name", .str "x"), ("resource_desc", .str "file")] }
    let r : Run Unit := ⟨m, [], false, ()⟩
    (r.step p deafTypes).memory.temp ≠ m.temp ∧
      r.StoppedBy p deafTypes (.backend "read" "x" "down") ∧
      Leaves p deafTypes (.resource .create) m () (.missingParameter "create" "properties") := by
  intro p m r
  obtain ⟨hleaves, hstopped⟩ := leaves_of_fault p deafTypes
  exact ⟨by decide, hstopped r (.resource .read) _ rfl rfl rfl,
    hleaves (.resource .create) m () _ rfl⟩

end Provisioning
