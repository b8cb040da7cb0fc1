/-
Runs in instalments.

Whoever drives an engine may give it its budget in parts.  A call keeps nothing of its own
beyond its account, and the account is a sum over steps.  So where one call stops the next goes
on as if nothing had happened, and what the calls count and report adds up to what one call
counts and reports: `instalments`.
-/
import Provisioning.Proofs.Run.Accounts

namespace Provisioning

/-- Summaries whose counts add up to those of a summary. -/
structure Summary.SumUpTo (parts : List Summary) (whole : Summary) : Prop where
  steps : (parts.map steps).sum = whole.steps
  created : (parts.map created).sum = whole.created
  updated : (parts.map updated).sum = whole.updated
  deleted : (parts.map deleted).sum = whole.deleted
  reads : (parts.map reads).sum = whole.reads
  polls : (parts.map polls).sum = whole.polls

namespace Engine

variable {W : Type}

/-- What is told of a run before its call is at its end. -/
def Progress.reports (g : Progress W) : List Event := g.events.filter Event.isReport

/-- The calls of an engine with one budget after the other, each going on where the one before
has stopped. -/
def calls (e : Engine W) : (budgets : List Nat) → Run W → List (Progress W)
  | [], _ => []
  | budget :: budgets, r => e.run budget r :: calls e budgets (e.run budget r).run

variable {e : Engine W}

theorem reports_run (e : Engine W) (budget : Nat) (r : Run W) :
    (e.run budget r).reports = Run.reported e.program e.registry r budget := by
  rw [Progress.reports, events_run, List.filter_append, Run.isReport_reported]
  exact List.append_nil _

/-- The last of several calls has made all the steps. -/
theorem exists_last (e : Engine W) (budget : Nat) (budgets : List Nat) (r : Run W) :
    ∃ last, (e.calls (budget :: budgets) r).getLast? = some last ∧
      last.run = Run.steps e.program e.registry (budget :: budgets).sum r ∧
      last.summary.outcome = e.outcome last.run := by
  induction budgets generalizing budget r with
  | nil => exact ⟨e.run budget r, rfl, run_run e budget r, rfl⟩
  | cons budget' budgets ih =>
    obtain ⟨last, hlast, hrun, houtcome⟩ := ih budget' (e.run budget r).run
    refine ⟨last, ?_, ?_, houtcome⟩
    · rw [calls, List.getLast?_cons, hlast]
      rfl
    · rw [hrun, run_run, ← Run.steps_add]
      rfl

theorem sum_calls {count : Summary → Nat} {holds : Run W → Bool}
    (hcount : ∀ budget r, count (e.run budget r).summary =
      Run.tally e.program e.registry holds r budget) (budgets : List Nat) (r : Run W) :
    ((e.calls budgets r).map fun g => count g.summary).sum =
      Run.tally e.program e.registry holds r budgets.sum := by
  induction budgets generalizing r with
  | nil => rfl
  | cons budget budgets ih =>
    rw [calls, List.map_cons, List.sum_cons, List.sum_cons, ih, hcount, run_run, Run.tally_add]

theorem sumUpTo_calls (e : Engine W) (budgets : List Nat) (r : Run W) :
    Summary.SumUpTo ((e.calls budgets r).map Progress.summary)
      (e.run budgets.sum r).summary := by
  have hsum : ∀ (count : Summary → Nat) (holds : Run W → Bool),
      (∀ budget r, count (e.run budget r).summary =
        Run.tally e.program e.registry holds r budget) →
      (((e.calls budgets r).map Progress.summary).map count).sum =
        count (e.run budgets.sum r).summary := by
    intro count holds hcount
    rw [hcount, List.map_map, ← sum_calls hcount]
    rfl
  have hrun := summary_run e
  exact {
    steps := hsum _ (fun r => !r.ended e.program) fun _ _ => congrArg Summary.steps (hrun _ _)
    created := hsum _ (Run.attempts _ .create) fun _ _ => congrArg Summary.created (hrun _ _)
    updated := hsum _ (Run.attempts _ .update) fun _ _ => congrArg Summary.updated (hrun _ _)
    deleted := hsum _ (Run.attempts _ .delete) fun _ _ => congrArg Summary.deleted (hrun _ _)
    reads := hsum _ (Run.attempts _ .read) fun _ _ => congrArg Summary.reads (hrun _ _)
    polls := hsum _ (Run.stays _ _) fun _ _ => congrArg Summary.polls (hrun _ _) }

/-- What is reported step by step follows one on the other. -/
theorem reports_calls (e : Engine W) (budgets : List Nat) (r : Run W) :
    (e.calls budgets r).flatMap Progress.reports =
      Run.reported e.program e.registry r budgets.sum := by
  induction budgets generalizing r with
  | nil => rfl
  | cons budget budgets ih =>
    rw [calls, List.flatMap_cons, ih, reports_run, run_run, List.sum_cons, Run.reported_add]

/-- **A budget may be given in instalments.**  Calls one after the other leave the run where one
call with the sum of their budgets leaves it, and it stands as it does there.  Their counts add
up, and their reports joined are the reports of that call: each entry that the log has gained,
once and in its order, as a poll exactly if its step has left a check waiting. -/
theorem instalments (e : Engine W) (budget : Nat) (budgets : List Nat) (r : Run W) :
    ∃ last whole, (e.calls (budget :: budgets) r).getLast? = some last ∧
      e.run (budget :: budgets).sum r = whole ∧
      last.run = whole.run ∧ last.summary.outcome = whole.summary.outcome ∧
      Summary.SumUpTo ((e.calls (budget :: budgets) r).map Progress.summary) whole.summary ∧
      (e.calls (budget :: budgets) r).flatMap Progress.reports = whole.reports ∧
      whole.reports = Run.reported e.program e.registry r (budget :: budgets).sum ∧
      whole.run.log = r.log ++ whole.reports.filterMap Event.operation? := by
  obtain ⟨last, hlast, hrun, houtcome⟩ := exists_last e budget budgets r
  refine ⟨last, _, hlast, rfl, ?_, ?_, sumUpTo_calls e _ r, ?_, reports_run e _ r, ?_⟩
  · rw [hrun, run_run]
  · rw [houtcome, hrun, summary_run]
    rfl
  · rw [reports_calls, reports_run]
  · rw [run_run, reports_run, Run.log_reported]

end Engine

end Provisioning
