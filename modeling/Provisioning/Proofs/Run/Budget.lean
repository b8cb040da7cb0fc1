/-
Runs within a budget.

An engine makes the steps of a run one after the other and counts them.  What it has done
after a budget is spent is what the run does in as many steps, and it has counted each step
once, as a poll if a check was left waiting: `drive_counts`.
-/
import Mathlib.Data.Finset.Card
import Provisioning.Proofs.Run.Trace
import Provisioning.Run.Engine

namespace Provisioning

/-! ### Steps that stay -/

namespace Run

variable {W : Type} {p : Program} {types : Registry W} {r : Run W}

/-- Whether the next step carries out an instruction that control stays with. -/
def stays (p : Program) (types : Registry W) (r : Run W) : Bool :=
  !r.ended p && match p.instructions[r.memory.programCounter]? with
    | none => false
    | some i => match (execute p types i r.memory r.world).flow with
      | .ok .stay => true
      | _ => false

/-- How many of the first `n` steps of a run leave a check waiting. -/
def polls (p : Program) (types : Registry W) (w : W) (n : Nat) : Nat :=
  ((Finset.range n).filter fun t => (steps p types t (fresh w)).stays p types = true).card

theorem polls_succ (w : W) (n : Nat) :
    polls p types w (n + 1) =
      polls p types w n + if (steps p types n (fresh w)).stays p types then 1 else 0 := by
  unfold polls
  rw [Finset.range_add_one, Finset.filter_insert]
  split
  · rw [Finset.card_insert_of_notMem (by simp)]
  · rfl

theorem exists_instruction (hrunning : r.ended p = false) :
    ∃ i, p.instructions[r.memory.programCounter]? = some i := by
  have hlt : r.memory.programCounter < p.instructions.length := by
    unfold ended Memory.halted at hrunning
    simp only [Bool.or_eq_false_iff, decide_eq_false_iff_not] at hrunning
    exact Nat.lt_of_not_le hrunning.2
  exact ⟨_, List.getElem?_eq_getElem hlt⟩

theorem unended_of_running (h : r.ended p = false) : r.memory.ended = false := by
  unfold ended Memory.halted at h
  simp only [Bool.or_eq_false_iff] at h
  exact h.1.1

theorem error_of_running (h : r.ended p = false) : r.memory.error = none := by
  unfold ended Memory.halted at h
  simp only [Bool.or_eq_false_iff, Option.isSome_eq_false_iff, Option.isNone_iff_eq_none] at h
  exact h.1.2

theorem stays_of_instruction {i : Instruction} (hrunning : r.ended p = false)
    (hi : p.instructions[r.memory.programCounter]? = some i) :
    r.stays p types = true ↔ (execute p types i r.memory r.world).flow = .ok .stay := by
  unfold stays
  rw [hrunning, hi]
  simp only [Bool.not_false, Bool.true_and]
  split
  · next h => simp [h]
  · next h => simpa using h

/-- A step stays exactly if it leaves a check waiting. -/
theorem waiting_step (hrunning : r.ended p = false) :
    (r.step p types).waiting = r.stays p types := by
  obtain ⟨i, hi⟩ := exists_instruction hrunning
  have hiff : r.stays p types = true ↔ _ := stays_of_instruction hrunning hi
  rw [step_of_instruction hrunning hi]
  generalize execute p types _ r.memory r.world = o at hiff ⊢
  obtain ⟨flow, m, w⟩ := o
  rcases flow with f | _ | a | _
  · exact (Bool.eq_false_iff.2 fun h => nomatch hiff.1 h).symm
  · exact (Bool.eq_false_iff.2 fun h => nomatch hiff.1 h).symm
  · exact (Bool.eq_false_iff.2 fun h => nomatch hiff.1 h).symm
  · exact (hiff.2 rfl).symm

theorem running_of_stays (h : r.stays p types = true) : r.ended p = false := by
  unfold stays at h
  simpa using (Bool.and_eq_true_iff.1 h).1

/-- Behind its end a run stays as it is. -/
theorem steps_of_ended_le {n n' : Nat} (h : (steps p types n r).ended p = true) (hn : n ≤ n') :
    steps p types n' r = steps p types n r := by
  induction n', hn using Nat.le_induction with
  | base => rfl
  | succ n' _ ih => rw [steps_succ, ih, step_of_ended h]

theorem bindStaged_ne_stay {v : Json} {m : Memory} {w : W} :
    (bindStaged v m w).flow ≠ .ok .stay := by
  unfold bindStaged
  split <;> exact nofun

theorem op_of_stay {i : Instruction} {m : Memory} {w : W}
    (h : (execute p types i m w).flow = .ok .stay) : ∃ op, i = .resource op := by
  unfold execute at h
  split at h
  · cases h
  cases i with
  | resource op => exact ⟨op, rfl⟩
  | init | halt | clear | key _ | compare _ => cases h
  | value v => exact absurd h bindStaged_ne_stay
  | valueRom address =>
    rw [perform] at h
    split at h
    · cases h
    · exact absurd h bindStaged_ne_stay
  | ret | invert | valueUpdate _ | memwrite _ | call _ =>
    rw [perform] at h
    split at h <;> cases h
  | assert _ =>
    rw [perform] at h
    split at h
    · cases h
    · split at h <;> cases h
  | gotoIf _ =>
    rw [perform] at h
    split at h
    · cases h
    · split at h
      · cases h
      · split at h <;> cases h

theorem upcoming_of_stays (h : r.stays p types = true) :
    ∃ o, upcoming p r.memory = [o] := by
  have hrunning := running_of_stays h
  obtain ⟨i, hi⟩ := exists_instruction hrunning
  obtain ⟨op, rfl⟩ := op_of_stay ((stays_of_instruction hrunning hi).1 h)
  rw [upcoming_of_instruction hrunning hi, logged_resource]
  exact ⟨_, rfl⟩

end Run

/-! ### Engines -/

namespace Summary

/-- Operations that are not polls are counted neither as polls nor as steps. -/
theorem counts_foldl_add (s : Summary) (os : List Operation) :
    (os.foldl add s).steps = s.steps ∧ (os.foldl add s).polls = s.polls := by
  have hadd : ∀ (s : Summary) (o : Operation),
      (s.add o).steps = s.steps ∧ (s.add o).polls = s.polls := by
    intro s o
    unfold add
    split <;> exact ⟨rfl, rfl⟩
  induction os generalizing s with
  | nil => exact ⟨rfl, rfl⟩
  | cons o os ih =>
    rw [List.foldl_cons, (ih _).1, (ih _).2]
    exact hadd s o

/-- The operations that are counted as changes. -/
def changing : List String := ["CREATE", "UPDATE", "DELETE"]

theorem changes_add {o : Operation} (h : o.name ∉ changing) (s : Summary) :
    (s.add o).changes = s.changes := by
  unfold add
  split
  · next heq => exact absurd (heq ▸ by decide) h
  · next heq => exact absurd (heq ▸ by decide) h
  · next heq => exact absurd (heq ▸ by decide) h
  · rfl
  · rfl

theorem changes_addStep {os : List Operation} (h : ∀ o ∈ os, o.name ∉ changing) (s : Summary)
    (waiting : Bool) : (s.addStep waiting os).changes = s.changes := by
  have hfold : ∀ s : Summary, (os.foldl add s).changes = s.changes := by
    induction os with
    | nil => exact fun _ => rfl
    | cons o os ih =>
      intro s
      rw [List.foldl_cons, ih (fun o ho => h o (List.mem_cons_of_mem _ ho)),
        changes_add (h o List.mem_cons_self)]
  unfold addStep
  cases waiting with
  | true => rfl
  | false => exact hfold _

end Summary

namespace Engine

variable {W : Type} {e : Engine W} {g : Progress W}

theorem drive_of_ended (h : g.run.ended e.program = true) (budget : Nat) :
    e.drive budget g = g := by
  cases budget with
  | zero => rfl
  | succ n =>
    rw [drive]
    exact if_pos h

theorem drive_succ (budget : Nat) (g : Progress W) :
    e.drive (budget + 1) g = if (e.drive budget g).run.ended e.program then e.drive budget g
      else e.advance (e.drive budget g) := by
  induction budget generalizing g with
  | zero => rfl
  | succ n ih =>
    rw [drive]
    split
    · next h => rw [drive_of_ended h, if_pos h]
    · next h =>
      rw [ih, drive, if_neg h]

/-- **Driving a run makes its steps.** -/
theorem drive_run (budget : Nat) (g : Progress W) :
    (e.drive budget g).run = Run.steps e.program e.registry budget g.run := by
  induction budget with
  | zero => rfl
  | succ n ih =>
    rw [drive_succ, Run.steps_succ, ← ih]
    split
    · next h => exact (Run.step_of_ended h).symm
    · rfl

/-- The operations that a step adds to the log. -/
theorem fresh_advance (g : Progress W) :
    (e.step g.run).log.drop g.run.log.length = Run.upcoming e.program g.run.memory := by
  unfold step
  rw [Run.log_step, List.drop_left]

/-- A step is counted, as a poll if a check is left waiting. -/
theorem counts_advance (hrunning : g.run.ended e.program = false) :
    (e.advance g).summary.steps = g.summary.steps + 1 ∧
      (e.advance g).summary.polls =
        g.summary.polls + if g.run.stays e.program e.registry then 1 else 0 := by
  unfold advance Summary.addStep
  dsimp only
  rw [fresh_advance]
  have hwaiting : (e.step g.run).waiting = g.run.stays e.program e.registry :=
    Run.waiting_step hrunning
  rw [hwaiting]
  cases hstays : g.run.stays e.program e.registry with
  | false => exact Summary.counts_foldl_add _ _
  | true =>
    obtain ⟨o, ho⟩ := Run.upcoming_of_stays hstays
    rw [ho]
    exact ⟨rfl, rfl⟩

/-- **What an engine has counted after a budget is spent: the steps that were made before the
run ended, and those of them that left a check waiting.** -/
theorem drive_counts (e : Engine W) (w : W) (budget : Nat) :
    ∃ n ≤ budget,
      (∀ t < n, (Run.steps e.program e.registry t (Run.fresh w)).ended e.program = false) ∧
      (e.drive budget ⟨Run.fresh w, .empty, []⟩).run =
        Run.steps e.program e.registry n (Run.fresh w) ∧
      (e.drive budget ⟨Run.fresh w, .empty, []⟩).summary.steps = n ∧
      (e.drive budget ⟨Run.fresh w, .empty, []⟩).summary.polls =
        Run.polls e.program e.registry w n ∧
      (n = budget ∨ (Run.steps e.program e.registry n (Run.fresh w)).ended e.program = true) := by
  induction budget with
  | zero => exact ⟨0, Nat.le_refl 0, nofun, rfl, rfl, rfl, .inl rfl⟩
  | succ b ih =>
    obtain ⟨n, hn, hbefore, hrun, hsteps, hpolls, hlast⟩ := ih
    rw [drive_succ]
    split
    · next hended =>
      exact ⟨n, Nat.le_succ_of_le hn, hbefore, hrun, hsteps, hpolls, .inr (hrun ▸ hended)⟩
    · next hended =>
      have hrunning := Bool.eq_false_iff.2 hended
      rw [hrun] at hrunning
      obtain rfl : n = b := hlast.resolve_right (Bool.eq_false_iff.1 hrunning)
      obtain ⟨hsteps', hpolls'⟩ := counts_advance (Bool.eq_false_iff.2 hended)
      refine ⟨n + 1, Nat.le_refl _, ?_, ?_, ?_, ?_, .inl rfl⟩
      · intro t ht
        rcases Nat.lt_succ_iff_lt_or_eq.1 ht with hlt | rfl
        · exact hbefore t hlt
        · exact hrunning
      · rw [Run.steps_succ, ← hrun]
        rfl
      · rw [hsteps', hsteps]
      · rw [hpolls', hpolls, hrun, Run.polls_succ]

theorem run_run (e : Engine W) (budget : Nat) (r : Run W) :
    (e.run budget r).run = Run.steps e.program e.registry budget r :=
  drive_run budget _

/-- Where the log has no changes, none are counted. -/
theorem changes_drive (budget : Nat) (w : W)
    (h : ∀ o ∈ (e.drive budget ⟨Run.fresh w, .empty, []⟩).run.log, o.name ∉ Summary.changing) :
    (e.drive budget ⟨Run.fresh w, .empty, []⟩).summary.changes = 0 := by
  induction budget with
  | zero => rfl
  | succ b ih =>
    rw [drive_succ] at h ⊢
    split at h
    · next hended =>
      rw [if_pos hended]
      exact ih h
    · next hended =>
      rw [if_neg hended]
      generalize e.drive b ⟨Run.fresh w, .empty, []⟩ = g at h ih
      have hlog : (e.advance g).run.log = g.run.log ++ Run.upcoming e.program g.run.memory :=
        Run.log_step g.run
      rw [hlog] at h
      show (g.summary.addStep _ _).changes = 0
      rw [fresh_advance, Summary.changes_addStep fun o ho => h o (List.mem_append_right _ ho)]
      exact ih fun o ho => h o (List.mem_append_left _ ho)

/-- A run that has ended is not paused. -/
theorem outcome_ne_paused (e : Engine W) {budget : Nat} {r : Run W}
    (h : (e.run budget r).run.ended e.program = true) :
    (e.run budget r).summary.outcome ≠ .paused := by
  show e.outcome (e.run budget r).run ≠ .paused
  unfold outcome
  rw [h]
  split <;> exact nofun

end Engine

end Provisioning
