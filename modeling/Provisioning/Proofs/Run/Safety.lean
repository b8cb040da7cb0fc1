/-
Compiled programs do not go wrong.

Every state of a run stands at a place or has stopped with a foreseen fault: that holds at
the beginning, and a step keeps it.  So no scratch value is ever missing or of the wrong
shape, no label and no address is unknown, no return is without a call, and no branch asks
for a decision that was not made.  What can still happen is that the outside refuses.

A run that has ended without a fault does not stand in the program any more.  It has executed
the last instruction of the driver, where no call is in progress.

Nothing is assumed about the providers or the world.  The registry only has to have the types
of the declaration, which it has when a declaration is run against the types it was made with.
-/
import Provisioning.Proofs.Run.Place

namespace Provisioning

/-! ### Runs, step by step -/

namespace Run

variable {W : Type} {p : Program} {types : Registry W} {r : Run W}

theorem step_of_ended (h : r.ended p = true) : r.step p types = r := by
  unfold step
  rw [if_pos h]

theorem ended_congr {W' : Type} {r' : Run W'} (h : r'.memory = r.memory) :
    r'.ended p = r.ended p := by
  rw [ended, ended, h]

theorem steps_of_ended (h : r.ended p = true) (n : Nat) : steps p types n r = r := by
  cases n with
  | zero => rfl
  | succ n =>
    rw [steps]
    exact if_pos h

theorem steps_succ (n : Nat) (r : Run W) :
    steps p types (n + 1) r = (steps p types n r).step p types := by
  induction n generalizing r with
  | zero =>
    rw [steps, steps, steps]
    split
    · next h => exact (step_of_ended h).symm
    · rfl
  | succ n ih =>
    rw [steps]
    split
    · next h => rw [steps_of_ended h, step_of_ended h]
    · next h =>
      rw [ih, steps, if_neg h]

theorem steps_add (n k : Nat) (r : Run W) :
    steps p types (n + k) r = steps p types k (steps p types n r) := by
  induction k with
  | zero => rfl
  | succ k ih => rw [← Nat.add_assoc, steps_succ, steps_succ, ih]

/-- What a step keeps, every run keeps. -/
theorem steps_induction {P : Run W → Prop} (hstep : ∀ r, P r → P (r.step p types)) (h : P r)
    (n : Nat) : P (steps p types n r) := by
  induction n with
  | zero => exact h
  | succ n ih =>
    rw [steps_succ]
    exact hstep _ ih

end Run

/-- Whether an instruction is the driver's. -/
def Instruction.drives : Instruction → Bool
  | .init | .halt | .call _ => true
  | _ => false

/-! ### A registry for plain plans -/

/-- A provider that grants everything and reads nothing back. -/
def plainProvider : Provider Unit where
  ask _ request w := (match request with
    | .create _ => .ok (some (.str "id"))
    | .read _ | .outputs => .ok []
    | .update _ | .delete => .ok ()
    | .found | .complete _ | .deleteComplete => .ok true, w)

/-- The one type of plain plans. -/
def plainTypes (late : Bool) : Registry Unit :=
  Table.ofList [("file", ⟨plainSchema late, some plainProvider⟩)]

namespace Compilation

variable {plan : Plan} {c : Compilation plan} {W : Type} {types : Registry W} {r : Run W}

/-- A memory stands somewhere, or a foreseen fault has stopped its run. -/
inductive OnCourse (c : Compilation plan) (m : Memory) : Prop
  | running {place : Place} : c.Stands m place → m.error = none → OnCourse c m
  | stopped {f : Fault} : m.error = some f → f.foreseen = true → OnCourse c m

theorem onCourse_fresh (c : Compilation plan) (w : W) : c.OnCourse (Run.fresh w).memory :=
  .running (show c.Stands Memory.fresh .start from rfl) rfl

/-- At the places before the last an instruction of the driver comes next, or the first one of
what is left of a routine. -/
theorem next_of_stands (hd : c.Distinct) {m : Memory} {place : Place} (h : c.Stands m place)
    (hplace : place ≠ .halted) : ∃ i, c.program.instructions[m.programCounter]? = some i ∧
      m.ended = false ∧ (i.drives = true ∨
        ∃ k ra routine before rest K, place = .routine k ra routine before (i :: rest) K) := by
  cases place with
  | start =>
    obtain rfl : m = Memory.fresh := h
    exact ⟨_, c.instruction_init, rfl, .inl rfl⟩
  | driver k =>
    have hdriver : c.InDriver k m := h
    rw [hdriver.programCounter]
    rcases Nat.lt_or_eq_of_le hdriver.le with hlt | rfl
    · obtain ⟨ra, hra, phase, hcall⟩ := exists_call hlt
      exact ⟨_, instruction_call hd.keys hra hcall, hdriver.ended, .inl rfl⟩
    · exact ⟨_, instruction_halt hd.keys, hdriver.ended, .inl rfl⟩
  | routine k ra routine before rest K =>
    have hroutine : c.InRoutine k ra routine before rest K m := h
    cases rest with
    | nil => cases hroutine.checked
    | cons i rest =>
      exact ⟨i, instruction_routine hroutine, hroutine.ended,
        .inr ⟨k, ra, routine, before, rest, K, rfl⟩⟩
  | halted => exact absurd rfl hplace

/-- An instruction that is not the driver's stands in a routine. -/
theorem routine_of_instruction (hd : c.Distinct) {m : Memory} {place : Place}
    (h : c.Stands m place) (hplace : place ≠ .halted) {i : Instruction}
    (hi : c.program.instructions[m.programCounter]? = some i) (hbody : i.drives = false) :
    ∃ k ra routine before rest K, place = .routine k ra routine before (i :: rest) K := by
  obtain ⟨i', hi', -, hdrives⟩ := next_of_stands hd h hplace
  obtain rfl : i = i' := Option.some.inj (hi.symm.trans hi')
  exact hdrives.resolve_left (by simp [hbody])

theorem running_of_stands (hd : c.Distinct) {m : Memory} {place : Place} (h : c.Stands m place)
    (hplace : place ≠ .halted) (herror : m.error = none) : m.halted c.program.size = false := by
  obtain ⟨i, hi, hended, -⟩ := next_of_stands hd h hplace
  have hlt : m.programCounter < c.program.size := (List.getElem?_eq_some_iff.1 hi).1
  unfold Memory.halted
  rw [hended, herror]
  simpa using hlt

theorem halted_of_stands {m : Memory} (h : c.Stands m .halted) (length : Nat) :
    m.halted length = true := by
  have hhalted : m.ended = true ∧ _ := h
  unfold Memory.halted
  rw [hhalted.1]
  rfl

theorem ne_halted_of_running {m : Memory} {place : Place} (h : c.Stands m place)
    (hrunning : m.halted c.program.size = false) : place ≠ .halted := by
  rintro rfl
  rw [halted_of_stands h] at hrunning
  cases hrunning

theorem ended_of_error {p : Program} {f : Fault} (h : r.memory.error = some f) :
    r.ended p = true := by
  unfold Run.ended Memory.halted
  rw [h]
  simp

theorem step_cases (hd : c.Distinct)
    (htypes : ∀ t ∈ plan.declaration.catalog.keys, t ∈ types.keys) {place : Place}
    (h : c.Stands r.memory place) (herror : r.memory.error = none) :
    (place = .halted ∧ r.ended c.program = true) ∨
      (place ≠ .halted ∧ c.Stepped place r (r.step c.program types)) := by
  by_cases hplace : place = .halted
  · subst hplace
    exact .inl ⟨rfl, halted_of_stands h c.program.size⟩
  · exact .inr ⟨hplace, stepped hd htypes h hplace herror⟩

theorem onCourse_step (hd : c.Distinct)
    (htypes : ∀ t ∈ plan.declaration.catalog.keys, t ∈ types.keys) (h : c.OnCourse r.memory) :
    c.OnCourse (r.step c.program types).memory := by
  cases h with
  | running hstands herror =>
    rcases step_cases hd htypes hstands herror with ⟨-, hended⟩ | ⟨-, hstepped⟩
    · rw [Run.step_of_ended hended]
      exact .running hstands herror
    · cases hstepped with
      | moved _ hstands' herror' _ _ => exact .running hstands' herror'
      | waited _ hmemory _ =>
        rw [hmemory]
        exact .running hstands herror
      | stopped hf hmemory =>
        rw [hmemory]
        exact .stopped rfl hf
  | stopped herror hf =>
    rw [Run.step_of_ended (ended_of_error herror)]
    exact .stopped herror hf

/-- Every state of a run is on course. -/
theorem onCourse_steps (hd : c.Distinct)
    (htypes : ∀ t ∈ plan.declaration.catalog.keys, t ∈ types.keys) (w : W) (n : Nat) :
    c.OnCourse (Run.steps c.program types n (Run.fresh w)).memory :=
  Run.steps_induction (P := fun r => c.OnCourse r.memory)
    (fun _ h => onCourse_step hd htypes h) (c.onCourse_fresh w) n

theorem OnCourse.foreseen {m : Memory} (h : c.OnCourse m) {f : Fault} (hf : m.error = some f) :
    f.foreseen = true := by
  cases h with
  | running _ herror =>
    rw [herror] at hf
    cases hf
  | stopped herror hforeseen =>
    rw [herror] at hf
    cases hf
    exact hforeseen

/-- A run on course that can make no further step, and was not stopped, is at its end. -/
theorem OnCourse.halted {m : Memory} (hd : c.Distinct) (h : c.OnCourse m)
    (hhalted : m.halted c.program.size = true) (hnone : m.error = none) :
    c.Stands m .halted := by
  cases h with
  | @running place hstands herror =>
    by_cases hplace : place = .halted
    · subst hplace
      exact hstands
    · rw [running_of_stands hd hstands hplace herror] at hhalted
      cases hhalted
  | stopped herror _ =>
    rw [herror] at hnone
    cases hnone

/-- **No run of a compiled program stops with a fault that is not foreseen, and a run that
ends without a fault has executed the last instruction, with no call in progress.** -/
theorem foreseen_of_steps {p : Program} (h : plan.compile = .ok p) :
    ∃ c : Compilation plan, c.program = p ∧ (c.Distinct → ∀ {W : Type} (types : Registry W),
      (∀ t ∈ plan.declaration.catalog.keys, t ∈ types.keys) → ∀ (w : W) (n : Nat),
        (∀ f, (Run.steps p types n (Run.fresh w)).memory.error = some f → f.foreseen = true) ∧
        ((Run.steps p types n (Run.fresh w)).ended p = true →
          (Run.steps p types n (Run.fresh w)).memory.error = none →
            (Run.steps p types n (Run.fresh w)).memory.ended = true ∧
              (Run.steps p types n (Run.fresh w)).memory.callStack = [])) := by
  obtain ⟨c, rfl⟩ := compile_eq_ok.1 h
  refine ⟨c, rfl, ?_⟩
  intro hd W types htypes w n
  have hcourse := onCourse_steps hd htypes w n
  constructor
  · intro f hf
    exact hcourse.foreseen hf
  · intro hended hnone
    have hhalted : _ = true ∧ _ = [] ∧ _ := hcourse.halted hd hended hnone
    exact ⟨hhalted.1, hhalted.2.1⟩

/-- A plan whose runs are safe, and one of them comes to its end. -/
theorem foreseen_of_steps_plain :
    ∃ p, (plainPlan true ["x", "y"] ["y", "z"] true).compile = .ok p ∧
      (∀ n f, (Run.steps p (plainTypes true) n (Run.fresh ())).memory.error = some f →
        f.foreseen = true) ∧
      (Run.steps p (plainTypes true) 200 (Run.fresh ())).memory.ended = true := by
  obtain ⟨c, hc, hsafe⟩ :=
    foreseen_of_steps (rfl : (plainPlan true ["x", "y"] ["y", "z"] true).compile = .ok _)
  have htypes : ∀ t ∈ (plainPlan true ["x", "y"] ["y", "z"] true).declaration.catalog.keys,
      t ∈ (plainTypes true).keys := by decide
  refine ⟨_, rfl, fun n f hf => ?_, by decide +kernel⟩
  exact (hsafe c.distinct_plain (plainTypes true) htypes () n).1 f hf

end Compilation

end Provisioning
