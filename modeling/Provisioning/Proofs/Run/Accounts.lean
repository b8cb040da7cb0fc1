/-
The account of a call.

A call of an engine counts what was logged while it went on, and tells an observer of it.
Both are sums over the steps that the call makes, so what is added by one step is said once,
and everything about a call follows: `summary_run`, `reports_run`.

What is logged is what is attempted.  An operation enters the log before it is carried out, and
the step that a fault stops is counted like any other.  So the changes that are counted are
those that were made, and the one that a fault has stopped if it was to be a change:
`countsDone_iff`.
-/
import Provisioning.Proofs.Run.Budget
import Provisioning.Proofs.Run.Outputs

namespace Provisioning

/-! ### Adding up over the steps of a run -/

namespace Run

variable {W : Type} {p : Program} {types : Registry W} {r : Run W} {op : ResourceOp}

/-- In how many of the states before the next `n` steps something holds. -/
def tally (p : Program) (types : Registry W) (holds : Run W → Bool) (r : Run W) (n : Nat) : Nat :=
  (List.range n).countP fun t => holds (steps p types t r)

theorem tally_succ (holds : Run W → Bool) (r : Run W) (n : Nat) :
    tally p types holds r (n + 1) =
      tally p types holds r n + if holds (steps p types n r) then 1 else 0 := by
  unfold tally
  rw [List.range_succ, List.countP_append, List.countP_singleton]

/-- The steps of a run can be counted in two parts. -/
theorem tally_add (holds : Run W → Bool) (r : Run W) (m n : Nat) :
    tally p types holds r (m + n) =
      tally p types holds r m + tally p types holds (steps p types m r) n := by
  induction n with
  | zero => rfl
  | succ n ih => rw [← Nat.add_assoc, tally_succ, ih, tally_succ, steps_add, Nat.add_assoc]

theorem tally_eq_zero {holds : Run W → Bool} {n : Nat} :
    tally p types holds r n = 0 ↔ ∀ t < n, holds (steps p types t r) = false := by
  unfold tally
  simp [List.countP_eq_zero]

/-! ### What a step attempts -/

/-- Whether the next step carries out an operation. -/
def attempts (p : Program) (op : ResourceOp) (r : Run W) : Bool :=
  !r.ended p && decide (p.instructions[r.memory.programCounter]? = some (.resource op))

/-- Whether the next step is stopped by a fault. -/
def stops (p : Program) (types : Registry W) (r : Run W) : Bool :=
  !r.ended p && match p.instructions[r.memory.programCounter]? with
    | none => false
    | some i => match (execute p types i r.memory r.world).flow with
      | .error _ => true
      | .ok _ => false

/-- Whether the next step carries out an operation, and no fault stops it. -/
def completes (p : Program) (types : Registry W) (op : ResourceOp) (r : Run W) : Bool :=
  r.attempts p op && !r.stops p types

/-- Whether the next step carries out an operation, and a fault stops it. -/
def breaksOff (p : Program) (types : Registry W) (op : ResourceOp) (r : Run W) : Bool :=
  r.attempts p op && r.stops p types

theorem attempts_of_ended (h : r.ended p = true) : r.attempts p op = false := by
  rw [attempts, h]
  rfl

theorem stays_of_ended (h : r.ended p = true) : r.stays p types = false := by
  rw [stays, h]
  rfl

theorem waits_of_stays (hrunning : r.ended p = false)
    (hi : p.instructions[r.memory.programCounter]? = some (.resource op))
    (h : r.stays p types = true) : op.waits = true := by
  have hflow := (stays_of_instruction hrunning hi).1 h
  unfold execute at hflow
  split at hflow
  · cases hflow
  · rw [perform] at hflow
    split at hflow
    · cases hflow
    · next s hs =>
      rw [← (Staged.ofMemory_eq_ok.1 hs).1]
      exact ((s.behaves_perform p.tables.rom r.memory r.world).stay hflow).1

theorem attempts_of_instruction {i : Instruction} (hrunning : r.ended p = false)
    (hi : p.instructions[r.memory.programCounter]? = some i) :
    r.attempts p op = decide (i = .resource op) := by
  rw [attempts, hrunning, hi]
  simp

theorem attempts_eq (p : Program) (types : Registry W) (op : ResourceOp) (r : Run W) (n : Nat) :
    tally p types (attempts p op) r n =
      tally p types (completes p types op) r n + tally p types (breaksOff p types op) r n := by
  induction n with
  | zero => rfl
  | succ n ih =>
    have hstep : ∀ r : Run W, (if r.attempts p op then 1 else 0) =
        (if r.completes p types op then 1 else 0) + if r.breaksOff p types op then 1 else 0 := by
      intro r
      rw [completes, breaksOff]
      cases r.attempts p op <;> cases r.stops p types <;> rfl
    rw [tally_succ, tally_succ, tally_succ, ih, hstep]
    omega

theorem running_of_stops (h : r.stops p types = true) : r.ended p = false := by
  unfold stops at h
  simpa using (Bool.and_eq_true_iff.1 h).1

theorem error_of_stops (h : r.stops p types = true) :
    (r.step p types).memory.error.isSome = true := by
  have hrunning := running_of_stops h
  obtain ⟨i, hi⟩ := exists_instruction hrunning
  rw [stops, hrunning, hi] at h
  rw [step_of_instruction hrunning hi, settle]
  dsimp only at h
  split at h
  · next f hflow => rw [hflow]; rfl
  · cases h

/-- **No more than one step is stopped by a fault, and none if the run has not failed.** -/
theorem tally_stops_le (p : Program) (types : Registry W) (r : Run W) (n : Nat) :
    tally p types (stops p types) r n ≤
      if (steps p types n r).memory.error.isSome then 1 else 0 := by
  induction n with
  | zero => exact Nat.zero_le _
  | succ n ih =>
    rw [tally_succ, steps_succ]
    cases hstops : (steps p types n r).stops p types with
    | true =>
      have hnone : (steps p types n r).memory.error = none :=
        error_of_running (running_of_stops hstops)
      rw [hnone] at ih
      rw [error_of_stops hstops]
      exact Nat.add_le_add_right ih 1
    | false =>
      cases herror : (steps p types n r).memory.error with
      | none =>
        rw [herror] at ih
        exact ih.trans (Nat.zero_le _)
      | some f =>
        have hended : (steps p types n r).ended p = true := by
          unfold ended Memory.halted
          rw [herror]
          simp
        rw [step_of_ended hended]
        exact ih

theorem attempts_inj {op op' : ResourceOp} (h : r.attempts p op = true)
    (h' : r.attempts p op' = true) : op = op' := by
  have hi := of_decide_eq_true (Bool.and_eq_true_iff.1 h).2
  rw [of_decide_eq_true (Bool.and_eq_true_iff.1 h').2] at hi
  exact (Instruction.resource.inj (Option.some.inj hi)).symm

/-- Of the changes no more fail than there are faults. -/
theorem tally_breaksOff_le (p : Program) (types : Registry W) (r : Run W) (n : Nat) :
    tally p types (breaksOff p types .create) r n + tally p types (breaksOff p types .update) r n +
      tally p types (breaksOff p types .delete) r n ≤ tally p types (stops p types) r n := by
  have hstep : ∀ r : Run W, ((if r.breaksOff p types .create then 1 else 0) +
      (if r.breaksOff p types .update then 1 else 0) +
        if r.breaksOff p types .delete then 1 else 0) ≤ if r.stops p types then 1 else 0 := by
    intro r
    have hupdate : r.attempts p .create = true → r.attempts p .update ≠ true :=
      fun h h' => nomatch attempts_inj h h'
    have hdelete : r.attempts p .create = true → r.attempts p .delete ≠ true :=
      fun h h' => nomatch attempts_inj h h'
    have hother : r.attempts p .update = true → r.attempts p .delete ≠ true :=
      fun h h' => nomatch attempts_inj h h'
    unfold breaksOff
    revert hupdate hdelete hother
    cases r.attempts p .create <;> cases r.attempts p .update <;> cases r.attempts p .delete <;>
      cases r.stops p types <;> simp
  induction n with
  | zero => exact Nat.le_refl 0
  | succ n ih =>
    simp only [tally_succ]
    have hle := hstep (steps p types n r)
    omega

/-! ### What an observer is told -/

/-- What an observer is told of the next step: what is logged, as a poll exactly if the step
leaves a check waiting. -/
def reports (p : Program) (types : Registry W) (r : Run W) : List Event :=
  (upcoming p r.memory).map (if r.stays p types then Event.poll else Event.operation)

/-- What an observer is told of the next `n` steps. -/
def reported (p : Program) (types : Registry W) (r : Run W) (n : Nat) : List Event :=
  (List.range n).flatMap fun t => reports p types (steps p types t r)

theorem reports_of_ended (h : r.ended p = true) : reports p types r = [] := by
  rw [reports, upcoming_of_halted h]
  rfl

theorem reported_succ (r : Run W) (n : Nat) :
    reported p types r (n + 1) = reported p types r n ++ reports p types (steps p types n r) := by
  unfold reported
  rw [List.range_succ, List.flatMap_append, List.flatMap_singleton]

theorem reported_add (r : Run W) (m n : Nat) :
    reported p types r (m + n) =
      reported p types r m ++ reported p types (steps p types m r) n := by
  induction n with
  | zero => exact (List.append_nil _).symm
  | succ n ih =>
    rw [← Nat.add_assoc, reported_succ, ih, reported_succ, steps_add, List.append_assoc]

end Run

/-- The operation that an event is about. -/
def Event.operation? : Event → Option Operation
  | .operation o | .poll o => some o
  | .finish _ => none

/-- An event about an operation, not the end of a call. -/
def Event.isReport (event : Event) : Bool := event.operation?.isSome

namespace Run

variable {W : Type} {p : Program} {types : Registry W} {r : Run W}

theorem operation?_reports (r : Run W) :
    (reports p types r).filterMap Event.operation? = upcoming p r.memory := by
  unfold reports
  rw [List.filterMap_map]
  cases r.stays p types <;> exact List.filterMap_some

/-- **The reports are the entries that the log gains, each once and in their order.** -/
theorem log_reported (r : Run W) (n : Nat) :
    (steps p types n r).log = r.log ++ (reported p types r n).filterMap Event.operation? := by
  induction n with
  | zero => exact (List.append_nil _).symm
  | succ n ih =>
    rw [steps_succ, log_step, ih, reported_succ, List.filterMap_append, operation?_reports,
      List.append_assoc]

theorem isReport_reported (r : Run W) (n : Nat) :
    (reported p types r n).filter Event.isReport = reported p types r n := by
  refine List.filter_eq_self.2 fun event hevent => ?_
  obtain ⟨t, -, ht⟩ := List.mem_flatMap.1 hevent
  obtain ⟨o, -, rfl⟩ := List.mem_map.1 ht
  split <;> rfl

/-- The account of up to `n` steps. -/
def account (p : Program) (types : Registry W) (r : Run W) (n : Nat) (outcome : RunOutcome) :
    Summary where
  outcome
  steps := tally p types (fun r => !r.ended p) r n
  created := tally p types (attempts p .create) r n
  updated := tally p types (attempts p .update) r n
  deleted := tally p types (attempts p .delete) r n
  reads := tally p types (attempts p .read) r n
  polls := tally p types (stays p types) r n

end Run

/-! ### The account of an engine -/

theorem Summary.add_record (s : Summary) (op : ResourceOp) (name : String) :
    s.add (op.record name) =
      { s with
        created := s.created + if op = .create then 1 else 0
        updated := s.updated + if op = .update then 1 else 0
        deleted := s.deleted + if op = .delete then 1 else 0
        reads := s.reads + if op = .read then 1 else 0 } := by
  cases op <;> rfl

namespace Engine

variable {W : Type} {e : Engine W} {g : Progress W}

/-- **What one step adds to the account.** -/
theorem summary_advance (hrunning : g.run.ended e.program = false) :
    (e.advance g).summary =
      { g.summary with
        steps := g.summary.steps + 1
        created := g.summary.created + if g.run.attempts e.program .create then 1 else 0
        updated := g.summary.updated + if g.run.attempts e.program .update then 1 else 0
        deleted := g.summary.deleted + if g.run.attempts e.program .delete then 1 else 0
        reads := g.summary.reads + if g.run.attempts e.program .read then 1 else 0
        polls := g.summary.polls + if g.run.stays e.program e.registry then 1 else 0 } := by
  obtain ⟨i, hi⟩ := Run.exists_instruction hrunning
  have hattempts : ∀ op, g.run.attempts e.program op = decide (i = .resource op) :=
    fun op => Run.attempts_of_instruction hrunning hi
  show g.summary.addStep (e.step g.run).waiting _ = _
  have hwaiting : (e.step g.run).waiting = g.run.stays e.program e.registry :=
    Run.waiting_step hrunning
  rw [fresh_advance, hwaiting, Run.upcoming_of_instruction hrunning hi, Summary.addStep]
  simp only [hattempts]
  cases i with
  | resource op =>
    rw [Run.logged_resource]
    cases hstays : g.run.stays e.program e.registry with
    | true =>
      have hwaits := Run.waits_of_stays hrunning hi hstays
      cases op <;> first | rfl | cases hwaits
    | false =>
      rw [if_neg nofun, List.foldl_cons, List.foldl_nil, Summary.add_record]
      cases op <;> rfl
  | _ =>
    have hstays : g.run.stays e.program e.registry = false := by
      refine Bool.eq_false_iff.2 fun h => ?_
      obtain ⟨op, hop⟩ := Run.op_of_stay ((Run.stays_of_instruction hrunning hi).1 h)
      cases hop
    rw [hstays]
    rfl

theorem events_advance (hrunning : g.run.ended e.program = false) :
    (e.advance g).events = g.events ++ Run.reports e.program e.registry g.run := by
  have hwaiting : (e.step g.run).waiting = g.run.stays e.program e.registry :=
    Run.waiting_step hrunning
  show g.events ++ List.map (if (e.step g.run).waiting then _ else _) _ = _
  rw [fresh_advance, hwaiting]
  rfl

/-- Driving a run accounts for each of its steps. -/
theorem account_drive (e : Engine W) (budget : Nat) (r : Run W) :
    (e.drive budget ⟨r, .empty, []⟩).summary =
        Run.account e.program e.registry r budget .completed ∧
      (e.drive budget ⟨r, .empty, []⟩).events = Run.reported e.program e.registry r budget := by
  induction budget with
  | zero => exact ⟨rfl, rfl⟩
  | succ n ih =>
    have hrun := drive_run (e := e) n ⟨r, .empty, []⟩
    rw [drive_succ, Run.reported_succ]
    unfold Run.account
    simp only [Run.tally_succ]
    rw [← hrun]
    split
    · next hended =>
      rw [Run.reports_of_ended hended, List.append_nil, Run.stays_of_ended hended]
      simp only [Run.attempts_of_ended hended, hended]
      exact ih
    · next hended =>
      have hrunning := Bool.eq_false_iff.2 hended
      rw [summary_advance hrunning, events_advance hrunning, ih.1, ih.2]
      refine ⟨?_, rfl⟩
      simp only [hrunning]
      rfl

/-- **The summary of a call accounts for the steps that it makes.** -/
theorem summary_run (e : Engine W) (budget : Nat) (r : Run W) :
    (e.run budget r).summary = Run.account e.program e.registry r budget
      (e.outcome (Run.steps e.program e.registry budget r)) := by
  unfold run
  dsimp only
  rw [(account_drive e budget r).1, drive_run]
  rfl

/-- **A call reports each step that it makes, and then its end.** -/
theorem events_run (e : Engine W) (budget : Nat) (r : Run W) :
    (e.run budget r).events = Run.reported e.program e.registry r budget ++
      [.finish (e.outcome (Run.steps e.program e.registry budget r))] := by
  unfold run
  dsimp only
  rw [(account_drive e budget r).2, drive_run]

/-! ### Changes that were made -/

/-- The changes that a call counts are the operations that were completed while it went on. -/
structure CountsDone (e : Engine W) (budget : Nat) (r : Run W) : Prop where
  created : (e.run budget r).summary.created =
    Run.tally e.program e.registry (Run.completes e.program e.registry .create) r budget
  updated : (e.run budget r).summary.updated =
    Run.tally e.program e.registry (Run.completes e.program e.registry .update) r budget
  deleted : (e.run budget r).summary.deleted =
    Run.tally e.program e.registry (Run.completes e.program e.registry .delete) r budget

/-- How many changes were completed while a call went on. -/
def changesMade (e : Engine W) (budget : Nat) (r : Run W) : Nat :=
  let completed op :=
    Run.tally e.program e.registry (Run.completes e.program e.registry op) r budget
  completed .create + completed .update + completed .delete

/-- What a call counts are the changes that were made, and those that have failed. -/
theorem counts_attempts (e : Engine W) (budget : Nat) (r : Run W) :
    (e.CountsDone budget r ↔ ∀ op ∈ [ResourceOp.create, .update, .delete],
        Run.tally e.program e.registry (Run.breaksOff e.program e.registry op) r budget = 0) ∧
      (e.run budget r).summary.changes = e.changesMade budget r +
        (Run.tally e.program e.registry (Run.breaksOff e.program e.registry .create) r budget +
          Run.tally e.program e.registry (Run.breaksOff e.program e.registry .update) r budget +
          Run.tally e.program e.registry (Run.breaksOff e.program e.registry .delete) r budget) := by
  have hcreated := congrArg Summary.created (summary_run e budget r)
  have hupdated := congrArg Summary.updated (summary_run e budget r)
  have hdeleted := congrArg Summary.deleted (summary_run e budget r)
  dsimp only [Run.account] at hcreated hupdated hdeleted
  rw [Run.attempts_eq e.program e.registry] at hcreated hupdated hdeleted
  constructor
  · rw [List.forall_mem_cons, List.forall_mem_cons, List.forall_mem_singleton]
    constructor
    · rintro ⟨h₁, h₂, h₃⟩
      omega
    · rintro ⟨h₁, h₂, h₃⟩
      exact ⟨by omega, by omega, by omega⟩
  · unfold Summary.changes changesMade
    dsimp only
    omega

/-- **The changes that a call counts are those that were made, exactly if no fault has stopped
one.**  A fault stops one step at most, so one change too many may be counted, and only if the
call ends with the run failed. -/
theorem countsDone_iff (e : Engine W) (budget : Nat) (r : Run W) :
    (e.CountsDone budget r ↔ ∀ op ∈ [ResourceOp.create, .update, .delete], ∀ t < budget,
        (Run.steps e.program e.registry t r).breaksOff e.program e.registry op = false) ∧
      ((e.run budget r).summary.outcome ≠ .failed → e.CountsDone budget r) ∧
      e.changesMade budget r ≤ (e.run budget r).summary.changes ∧
      (e.run budget r).summary.changes ≤ e.changesMade budget r + 1 := by
  obtain ⟨hexact, hchanges⟩ := counts_attempts e budget r
  have hfailed := Run.tally_breaksOff_le e.program e.registry r budget
  have hstopped := Run.tally_stops_le e.program e.registry r budget
  refine ⟨?_, ?_, by omega, ?_⟩
  · simp only [hexact, Run.tally_eq_zero]
  · intro houtcome
    have hnone : (Run.steps e.program e.registry budget r).memory.error.isSome = false := by
      refine Bool.eq_false_iff.2 fun h => houtcome ?_
      rw [summary_run]
      exact if_pos h
    rw [hnone, if_neg nofun] at hstopped
    have hzero := hfailed.trans hstopped
    rw [hexact, List.forall_mem_cons, List.forall_mem_cons, List.forall_mem_singleton]
    exact ⟨by omega, by omega, by omega⟩
  · have hone : (if (Run.steps e.program e.registry budget r).memory.error.isSome
        then 1 else 0) ≤ 1 := by split <;> omega
    omega

end Engine

/-- A provider that refuses to create anything. -/
def refusingProvider : Provider Unit where
  ask id request w := match request with
    | .create _ => (.error "down", w)
    | other => plainProvider.ask id other w

/-- The one type of plain plans, with that provider. -/
def refusingTypes : Registry Unit :=
  Table.ofList [("file", ⟨plainSchema false, some refusingProvider⟩)]

/-- A creation that is refused is counted, where nothing was created. -/
theorem Engine.not_countsDone_refused :
    ∃ e : Engine Unit, Engine.compile refusingTypes (plainPlan false [] ["x"] false) = .ok e ∧
      (e.run 26 (Run.fresh ())).summary.outcome = .failed ∧
      (e.run 26 (Run.fresh ())).summary.created = 1 ∧ e.changesMade 26 (Run.fresh ()) = 0 ∧
      ¬ e.CountsDone 26 (Run.fresh ()) := by
  obtain ⟨e, he⟩ : ∃ e, Engine.compile refusingTypes (plainPlan false [] ["x"] false) = .ok e :=
    ⟨_, rfl⟩
  have hcreated : (e.run 26 (Run.fresh ())).summary.created = 1 := by
    cases he
    decide +kernel
  have hnone : Run.tally e.program e.registry (Run.completes e.program e.registry .create)
      (Run.fresh ()) 26 = 0 := by
    cases he
    decide +kernel
  refine ⟨e, he, by cases he; decide +kernel, hcreated, by cases he; decide +kernel, fun h => ?_⟩
  have hsame := h.created
  rw [hcreated, hnone] at hsame
  cases hsame

end Provisioning
