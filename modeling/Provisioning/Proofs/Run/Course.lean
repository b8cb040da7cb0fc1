/-
The course of a run.

A run goes from place to place, one step after the other, until it ends.  `Reaches` says to
which place it has come after how many steps, with all that is known of each step on the way,
and results about runs are proved by induction on it.  After any number of steps a run is at
a place, or it has come to the end of its program before, or a fault has stopped it:
`stage_steps`.

Three things are read off the course once and for all.  The driver makes its calls one after
the other, so where a later call is in progress every earlier one has returned.  What is
achieved for a resource was performed by an earlier step.  And what was said in a step was
said by an operation that came next then.
-/
import Provisioning.Proofs.Plan.Order
import Provisioning.Proofs.Run.Effects

namespace Provisioning

/-- By step `t` of a run, the call of a label has returned to the driver. -/
def Returned {W : Type} (p : Program) (types : Registry W) (w : W) (t : Nat) (label : String) :
    Prop :=
  ∃ i n, n ≤ t ∧ p.instructions[i]? = some (.call label) ∧
    (Run.steps p types n (Run.fresh w)).memory.programCounter = i + 1 ∧
    (Run.steps p types n (Run.fresh w)).memory.callStack = []

namespace Compilation

variable {plan : Plan} {W : Type}

/-- The run of the program in a world after `n` steps. -/
def after (c : Compilation plan) (types : Registry W) (w : W) (n : Nat) : Run W :=
  Run.steps c.program types n (Run.fresh w)

/-- A step leads from a place to a place. -/
structure Advances (c : Compilation plan) (types : Registry W) (r r' : Run W)
    (place place' : Place) : Prop where
  stands : c.Stands r.memory place
  running : r.memory.error = none
  stands' : c.Stands r'.memory place'
  running' : r'.memory.error = none
  executes : c.Executes types r place place' r'
  effect : c.Effect types r r' place place'
  /-- What was decided stays decided. -/
  kept : ∀ n d, r.memory.decisions.get? n = some d → r'.memory.decisions.get? n = some d

/-- A run has come to a place after `n` steps. -/
inductive Reaches (c : Compilation plan) (types : Registry W) (w : W) : Nat → Place → Prop
  | start : Reaches c types w 0 .start
  | step {n : Nat} {place place' : Place} : Reaches c types w n place →
    c.Advances types (c.after types w n) (c.after types w (n + 1)) place place' →
    Reaches c types w (n + 1) place'

/-- Where a run is after `n` steps. -/
inductive Stage (c : Compilation plan) (types : Registry W) (w : W) (n : Nat) : Prop
  | running {place : Place} : c.Reaches types w n place → Stage c types w n
  /-- It was at its end before. -/
  | halted {t : Nat} : t < n → c.Reaches types w t .halted →
    c.after types w n = c.after types w t → Stage c types w n
  /-- It was stopped by a step that is past. -/
  | stopped {t : Nat} {place : Place} : t < n → c.Reaches types w t place →
    c.Stops types (c.after types w t) place (c.after types w (t + 1)) →
    c.after types w n = c.after types w (t + 1) → Stage c types w n

section

variable {c : Compilation plan} {types : Registry W} {w : W} {n : Nat} {place : Place}

theorem after_succ (c : Compilation plan) (types : Registry W) (w : W) (n : Nat) :
    c.after types w (n + 1) = (c.after types w n).step c.program types :=
  Run.steps_succ n (Run.fresh w)

theorem Reaches.stands (h : c.Reaches types w n place) :
    c.Stands (c.after types w n).memory place ∧ (c.after types w n).memory.error = none := by
  cases h with
  | start => exact ⟨rfl, rfl⟩
  | step _ hadvances => exact ⟨hadvances.stands', hadvances.running'⟩

theorem advances_of_continues (hd : c.Distinct)
    (htypes : ∀ t ∈ plan.declaration.catalog.keys, t ∈ types.keys) {r : Run W}
    (hstands : c.Stands r.memory place) (herror : r.memory.error = none)
    (h : c.Continues types r place) :
    ∃ place', c.Advances types r (r.step c.program types) place place' := by
  obtain ⟨place', hexecutes, hstands', herror'⟩ := h
  refine ⟨place', hstands, herror, hstands', herror', hexecutes,
    effect_of_executes hd htypes hexecutes hstands herror, ?_⟩
  cases hexecutes.stepped hstands hstands' herror' with
  | moved _ _ _ _ hkept => exact hkept
  | waited _ hmemory _ => rw [hmemory]; exact fun _ _ h => h
  | stopped _ hmemory =>
    rw [hmemory] at herror'
    cases herror'

/-- **After any number of steps, a run is at a place, or has ended there or was stopped.** -/
theorem stage_steps (hd : c.Distinct)
    (htypes : ∀ t ∈ plan.declaration.catalog.keys, t ∈ types.keys) (w : W) (n : Nat) :
    c.Stage types w n := by
  induction n with
  | zero => exact .running .start
  | succ n ih =>
    have hsame : (c.after types w n).ended c.program = true →
        c.after types w (n + 1) = c.after types w n := by
      intro hended
      rw [after_succ]
      exact Run.step_of_ended hended
    cases ih with
    | @running place h =>
      obtain ⟨hstands, herror⟩ := h.stands
      by_cases hplace : place = .halted
      · subst hplace
        exact .halted (Nat.lt_succ_self n) h (hsame (halted_of_stands hstands c.program.size))
      · rcases executes hd htypes hstands hplace herror with hcontinues | hstops
        · obtain ⟨place', hadvances⟩ :=
            advances_of_continues hd htypes hstands herror hcontinues
          exact .running (.step h (by rw [after_succ]; exact hadvances))
        · exact .stopped (Nat.lt_succ_self n) h (by rw [after_succ]; exact hstops) rfl
    | @halted t ht h heq =>
      have hended : (c.after types w n).ended c.program = true := by
        rw [heq]
        exact halted_of_stands h.stands.1 c.program.size
      exact .halted (ht.trans (Nat.lt_succ_self n)) h ((hsame hended).trans heq)
    | @stopped t place ht h hstops heq =>
      have hended : (c.after types w n).ended c.program = true := by
        rw [heq]
        generalize c.after types w (t + 1) = r at hstops
        cases hstops with
        | fault => exact ended_of_error rfl
      exact .stopped (ht.trans (Nat.lt_succ_self n)) h hstops ((hsame hended).trans heq)

theorem exists_reaches (hd : c.Distinct)
    (htypes : ∀ t ∈ plan.declaration.catalog.keys, t ∈ types.keys)
    (hrunning : (c.after types w n).ended c.program = false) :
    ∃ place, c.Reaches types w n place := by
  cases stage_steps hd htypes w n with
  | running h => exact ⟨_, h⟩
  | halted _ h heq =>
    rw [heq] at hrunning
    have hended : (c.after types w _).ended c.program = true :=
      halted_of_stands h.stands.1 c.program.size
    rw [hended] at hrunning
    cases hrunning
  | @stopped t _ _ _ hstops heq =>
    rw [heq] at hrunning
    generalize c.after types w (t + 1) = r at hstops hrunning
    cases hstops with
    | fault =>
      rw [ended_of_error rfl] at hrunning
      cases hrunning

/-- A run that has ended without a fault has come to the end of its program. -/
theorem reaches_halted (hd : c.Distinct)
    (htypes : ∀ t ∈ plan.declaration.catalog.keys, t ∈ types.keys)
    (hended : (c.after types w n).ended c.program = true)
    (herror : (c.after types w n).memory.error = none) :
    ∃ t ≤ n, c.Reaches types w t .halted ∧ c.after types w n = c.after types w t := by
  cases stage_steps hd htypes w n with
  | @running place h =>
    by_cases hplace : place = .halted
    · subst hplace
      exact ⟨n, Nat.le_refl n, h, rfl⟩
    · have hrunning : (c.after types w n).ended c.program = false :=
        running_of_stands hd h.stands.1 hplace herror
      rw [hrunning] at hended
      cases hended
  | halted ht h heq => exact ⟨_, ht.le, h, heq⟩
  | @stopped t _ _ _ hstops heq =>
    rw [heq] at herror
    generalize c.after types w (t + 1) = r at hstops herror
    cases hstops with
    | fault => cases herror

/-! ### Calls -/

theorem Advances.moves {r r' : Run W} {place' : Place}
    (h : c.Advances types r r' place place') :
    (∃ logged, c.Moves logged place place') ∨ place' = place := by
  cases h.effect with
  | init => exact .inl ⟨_, .init⟩
  | quiet hmoves => exact .inl ⟨_, hmoves⟩
  | forget _ _ _ hmoves => exact .inl ⟨_, hmoves⟩
  | settle _ hmoves => exact .inl ⟨_, hmoves⟩
  | did _ hmoves => exact .inl ⟨_, hmoves⟩
  | wait => exact .inr rfl

/-- How many calls a memory has made. -/
def made (c : Compilation plan) (m : Memory) : Nat :=
  if m.ended then c.schedule.length
  else match m.callStack with
    | [] => m.programCounter - 1
    | caller :: _ => caller - 1

theorem calls_eq_made {m : Memory} (h : c.Stands m place) : c.calls place = c.made m := by
  cases place with
  | start =>
    obtain rfl : m = Memory.fresh := h
    rfl
  | driver k =>
    have hdriver : c.InDriver k m := h
    simp [made, hdriver.ended, hdriver.callStack, hdriver.programCounter, calls]
  | routine k ra routine before rest K =>
    have hroutine : c.InRoutine k ra routine before rest K m := h
    simp [made, hroutine.ended, hroutine.callStack, calls]
  | halted =>
    have hhalted : m.ended = true ∧ _ := h
    simp [made, hhalted.1, calls]

theorem Moves.calls_le {logged : List Operation} {place' : Place}
    (h : c.Moves logged place place') : c.calls place ≤ c.calls place' := by
  cases h with
  | ret => exact Nat.le_succ _
  | _ => exact Nat.le_refl _

theorem calls_le_of_advances {r r' : Run W} {place' : Place}
    (h : c.Advances types r r' place place') : c.calls place ≤ c.calls place' := by
  rcases h.moves with ⟨_, hmoves⟩ | rfl
  · exact hmoves.calls_le
  · exact Nat.le_refl _

theorem calls_le_of_reaches {n' : Nat} {place' : Place} (h : c.Reaches types w n place)
    (h' : c.Reaches types w n' place') (hn : n ≤ n') : c.calls place ≤ c.calls place' := by
  have hsame : ∀ {t : Nat} {p₁ p₂ : Place}, c.Reaches types w t p₁ → c.Reaches types w t p₂ →
      c.calls p₁ = c.calls p₂ := by
    intro t p₁ p₂ h₁ h₂
    rw [calls_eq_made h₁.stands.1, calls_eq_made h₂.stands.1]
  induction h' with
  | start =>
    obtain rfl : n = 0 := Nat.le_zero.1 hn
    exact (hsame h .start).le
  | step hreaches hadvances ih =>
    rcases Nat.lt_or_eq_of_le hn with hlt | rfl
    · exact (ih (Nat.le_of_lt_succ hlt)).trans (calls_le_of_advances hadvances)
    · exact (hsame h (.step hreaches hadvances)).le

/-- Where a call is in progress, every earlier one has returned to the driver. -/
theorem Reaches.returned (h : c.Reaches types w n place) (hplace : place ≠ .start) {j : Nat}
    (hj : j ≤ c.calls place) : ∃ t ≤ n, c.Reaches types w t (.driver j) := by
  induction h with
  | start => exact absurd rfl hplace
  | @step n place place' hreaches hadvances ih =>
    have hearlier : place ≠ .start → j ≤ c.calls place →
        ∃ t ≤ n + 1, c.Reaches types w t (.driver j) := by
      intro hne hj
      obtain ⟨t, ht, hreached⟩ := ih hne hj
      exact ⟨t, Nat.le_succ_of_le ht, hreached⟩
    rcases hadvances.moves with ⟨logged, hmoves⟩ | rfl
    · cases hmoves with
      | init =>
        obtain rfl : j = 0 := Nat.le_zero.1 hj
        exact ⟨n + 1, Nat.le_refl _, .step hreaches hadvances⟩
      | ret =>
        rcases Nat.lt_or_eq_of_le hj with hlt | rfl
        · exact hearlier nofun (Nat.le_of_lt_succ hlt)
        · exact ⟨n + 1, Nat.le_refl _, .step hreaches hadvances⟩
      | _ => exact hearlier nofun hj
    · exact hearlier hplace hj

theorem lt_of_calls_lt {t t' : Nat} {place' : Place} (h : c.Reaches types w t place)
    (h' : c.Reaches types w t' place') (hlt : c.calls place < c.calls place') : t < t' := by
  by_contra hle
  exact absurd hlt (Nat.not_lt.2 (calls_le_of_reaches h' h (Nat.le_of_not_lt hle)))

/-- Where a call is in progress, every call of an earlier entry of the schedule has
returned. -/
theorem Reaches.returned_of_lt {t : Nat} (hd : c.Distinct) (h : c.Reaches types w t place)
    (hplace : place ≠ .start) {ra : Resource × Action} (hra : ra ∈ c.actions) {phase : Phase}
    {j : Nat} (hj : c.schedule[j]? = some (ra.1.name, phase)) (hlt : j < c.calls place) :
    Returned c.program types w t ((Routine.forPhase ra.2 phase).label ra.1.name) := by
  obtain ⟨n, hn, hreached⟩ := h.returned hplace hlt
  have hdriver : c.InDriver (j + 1) (c.after types w n).memory := hreached.stands.1
  exact ⟨j + 1, n, hn, instruction_call hd.keys hra hj, hdriver.programCounter,
    hdriver.callStack⟩

theorem forward_of_reaches {n' : Nat} {place' : Place} (h : c.Reaches types w n place)
    (h' : c.Reaches types w n' place') (hn : n ≤ n') {phase : Phase}
    (hphase : phase ∈ Phase.forward) {name : String}
    (hk : c.schedule[c.calls place']? = some (name, phase)) : place.forward := by
  cases place with
  | start | driver | halted => trivial
  | routine k rb routine before rest K =>
    have hroutine : c.InRoutine k rb routine before rest K (c.after types w n).memory :=
      h.stands.1
    by_contra hnot
    have hbackward : routine.phase ∈ Phase.backward := by
      have hmem : routine.phase ∉ Phase.forward := hnot
      revert hmem
      cases routine.phase <;> decide
    have hlt := forward_lt_backward hphase hbackward hk hroutine.scheduled
    exact absurd (calls_le_of_reaches h h' hn) (Nat.not_le.2 hlt)

theorem backward_of_reaches {n' k' : Nat} {rb : Resource × Action} {routine : Routine}
    {before rest : List Instruction} {K : Known} (h : c.Reaches types w n place)
    (h' : c.Reaches types w n' (.routine k' rb routine before rest K)) (hn : n ≤ n') {phase : Phase}
    (hphase : phase ∈ Phase.backward) {name : String}
    (hk : c.schedule[c.calls place]? = some (name, phase)) : routine.phase ∈ Phase.backward := by
  have hroutine : c.InRoutine k' rb routine before rest K (c.after types w n').memory :=
    h'.stands.1
  by_contra hnot
  have hforward : routine.phase ∈ Phase.forward := by
    revert hnot
    cases routine.phase <;> decide
  have hlt : k' < c.calls place := forward_lt_backward hforward hphase hroutine.scheduled hk
  exact absurd (calls_le_of_reaches h h' hn) (Nat.not_le.2 hlt)

/-! ### Looking back -/

theorem Advances.not_ended {r r' : Run W} {place' : Place} (hd : c.Distinct)
    (h : c.Advances types r r' place place') : r.ended c.program = false := by
  refine running_of_stands hd h.stands ?_ h.running
  rintro rfl
  cases h.executes

/-- Where a run has come to a place, it has come to one at each earlier step, and went on. -/
theorem Reaches.earlier (h : c.Reaches types w n place) {t : Nat} (ht : t < n) :
    ∃ p p', c.Reaches types w t p ∧
      c.Advances types (c.after types w t) (c.after types w (t + 1)) p p' := by
  induction h with
  | start => exact absurd ht (Nat.not_lt_zero t)
  | step hreaches hadvances ih =>
    rcases Nat.lt_succ_iff_lt_or_eq.1 ht with hlt | rfl
    · exact ih hlt
    · exact ⟨_, _, hreaches, hadvances⟩

theorem Reaches.eq_start (h : c.Reaches types w 0 place) : place = .start := by
  cases h
  rfl

theorem Advances.loaded {r r' : Run W} {place' : Place}
    (h : c.Advances types r r' .start place') :
    r'.memory.remoteIds = plan.prior.mapValues (fun _ t => t.remoteId) ∧
      r'.memory.outputs = Table.empty ∧ r'.memory.decisions = Table.empty ∧
      r'.memory.deleted = [] ∧ r'.world = r.world := by
  generalize hplace : Place.start = place at h
  cases h.effect with
  | init hids houtputs hdecisions hdeleted hworld =>
    exact ⟨hids, houtputs, hdecisions, hdeleted, hworld⟩
  | quiet _ hne => exact absurd hplace.symm hne
  | forget | settle | did | wait => cases hplace

theorem Reaches.ne_start (h : c.Reaches types w n place) (hn : 0 < n) : place ≠ .start := by
  cases h with
  | start => exact absurd hn (Nat.lt_irrefl 0)
  | step _ hadvances =>
    rcases hadvances.moves with ⟨_, hmoves⟩ | rfl
    · cases hmoves <;> nofun
    · have hexecutes := hadvances.executes
      rintro rfl
      cases hexecutes

/-- What the first step establishes and every later step keeps holds wherever a run that has begun
comes to. -/
@[elab_as_elim]
theorem Reaches.begun_induction
    {motive : ∀ {n : Nat} {place : Place}, c.Reaches types w n place → 0 < n → Prop}
    (loaded : ∀ {place : Place}
      (hadvances : c.Advances types (c.after types w 0) (c.after types w 1) .start place),
      motive (.step .start hadvances) Nat.one_pos)
    (step : ∀ {n : Nat} {place place' : Place} (hreaches : c.Reaches types w n place) (hn : 0 < n)
      (hadvances : c.Advances types (c.after types w n) (c.after types w (n + 1)) place place'),
      motive hreaches hn → motive (hreaches.step hadvances) n.succ_pos)
    (h : c.Reaches types w n place) (hn : 0 < n) : motive h hn := by
  induction h with
  | start => exact absurd hn (Nat.lt_irrefl 0)
  | @step n place place' hreaches hadvances ih =>
    rcases Nat.eq_zero_or_pos n with rfl | hpos
    · obtain rfl := hreaches.eq_start
      exact loaded hadvances
    · exact step hreaches hpos hadvances (ih hpos)

theorem Reaches.pos (h : c.Reaches types w n place) (hplace : place ≠ .start) : 0 < n := by
  cases h with
  | start => exact absurd rfl hplace
  | step => exact Nat.succ_pos _

/-- A routine is entered at its first instruction, and then goes on one after the other. -/
theorem Executes.behind {r r' : Run W} {k : Nat} {ra : Resource × Action} {routine : Routine}
    {done rest : List Instruction} {K' : Known}
    (h : c.Executes types r place (.routine k ra routine done rest K') r') :
    done = [] ∨
      (∃ before i K, done = before ++ [i] ∧ place = .routine k ra routine before (i :: rest) K) ∨
      (place = .routine k ra routine done rest K' ∧ r'.memory = r.memory) := by
  generalize hplace : Place.routine k ra routine done rest K' = place' at h
  cases h with
  | init | halt | ret => cases hplace
  | call | jump =>
    cases hplace
    exact .inl rfl
  | next =>
    cases hplace
    exact .inr (.inl ⟨_, _, _, rfl, rfl⟩)
  | wait =>
    cases hplace
    exact .inr (.inr ⟨rfl, rfl⟩)

theorem Executes.executed {r r' : Run W} {k : Nat} {ra : Resource × Action} {routine : Routine}
    {i : Instruction} {before rest : List Instruction} {K K' : Known}
    (h : c.Executes types r (.routine k ra routine before (i :: rest) K)
      (.routine k ra routine (before ++ [i]) rest K') r') :
    ra.1.Typed plan.createMissing routine K i K' ∧
      ∃ m, execute c.program types i r.memory r.world = .next m r'.world ∧
        r'.memory = { m with programCounter := r.memory.programCounter + 1 } := by
  generalize hplace : Place.routine k ra routine (before ++ [i]) rest K' = place' at h
  cases h with
  | next _ ht _ hexecute =>
    cases hplace
    exact ⟨ht, _, hexecute, rfl⟩
  | jump => simp at hplace
  | ret => cases hplace
  | wait => simp at hplace

theorem Executes.beyond {r r' : Run W} {k : Nat} {ra : Resource × Action} {routine : Routine}
    {op : ResourceOp} {before rest : List Instruction} {K : Known} {place' : Place}
    (h : c.Executes types r (.routine k ra routine before (.resource op :: rest) K) place' r') :
    (∃ K', place' = .routine k ra routine (before ++ [.resource op]) rest K') ∨
      (op.waits = true ∧ place' = .routine k ra routine before (.resource op :: rest) K ∧
        r'.memory = r.memory) := by
  cases h with
  | next => exact .inl ⟨_, rfl⟩
  | wait _ _ hwaits => exact .inr ⟨hwaits, rfl, rfl⟩

theorem Advances.performed {r r' : Run W} {k : Nat} {ra : Resource × Action} {routine : Routine}
    {op : ResourceOp} {before rest : List Instruction} {K K' : Known} (hd : c.Distinct)
    (htypes : ∀ t ∈ plan.declaration.catalog.keys, t ∈ types.keys)
    (h : c.Advances types r r' (.routine k ra routine before (.resource op :: rest) K)
      (.routine k ra routine (before ++ [.resource op]) rest K')) :
    ∃ (s : Staged W) (m : Memory), s.op = op ∧
      c.Faces types k ra routine before rest K s r.memory ∧
      c.Moves [op.record s.name] (.routine k ra routine before (.resource op :: rest) K)
        (.routine k ra routine (before ++ [.resource op]) rest K') ∧
      s.Performed c.program.tables.rom r.memory r.world m r'.world
        (Run.exchanges c.program types r) ∧
      r'.memory = { m with programCounter := r.memory.programCounter + 1 } := by
  have hroutine : c.InRoutine k ra routine before (.resource op :: rest) K r.memory := h.stands
  obtain ⟨ht, m, hexecute, hmemory⟩ := h.executes.executed
  obtain ⟨s, rfl, hfaces, hK⟩ := exists_faces htypes hroutine ht
  exact ⟨s, m, rfl, hfaces, .next ht (hK ▸ Known.records_did _ _ _),
    performed_of_faces hfaces (h.not_ended hd) hexecute, hmemory⟩

/-- A run in a routine has executed the instruction that stands before its place, and since
then it has at most waited. -/
theorem Reaches.previous {k : Nat} {ra : Resource × Action} {routine : Routine} {i : Instruction}
    {before rest : List Instruction} {K' : Known}
    (h : c.Reaches types w n (.routine k ra routine (before ++ [i]) rest K')) :
    ∃ t < n, ∃ K, c.Reaches types w t (.routine k ra routine before (i :: rest) K) ∧
      c.Advances types (c.after types w t) (c.after types w (t + 1))
        (.routine k ra routine before (i :: rest) K)
        (.routine k ra routine (before ++ [i]) rest K') ∧
      (c.after types w n).memory = (c.after types w (t + 1)).memory := by
  generalize hplace : Place.routine k ra routine (before ++ [i]) rest K' = place at h
  induction h with
  | start => cases hplace
  | @step n p p' hreaches hadvances ih =>
    subst hplace
    rcases hadvances.executes.behind with hnil | ⟨before', i', K, heq, rfl⟩ | ⟨rfl, hmemory⟩
    · simp at hnil
    · obtain ⟨rfl, hlast⟩ := List.append_inj' heq rfl
      obtain rfl := List.singleton_inj.1 hlast
      exact ⟨n, Nat.lt_succ_self n, K, hreaches, hadvances, rfl⟩
    · obtain ⟨t, ht, K, hreached, hadvanced, heq⟩ := ih rfl
      exact ⟨t, Nat.lt_succ_of_lt ht, K, hreached, hadvanced, hmemory.trans heq⟩

/-- What was done before a routine was jumped to begins what is done in it. -/
theorem Reaches.preceding_isPrefix {k : Nat} {ra : Resource × Action} {routine : Routine}
    {before rest : List Instruction} {K : Known}
    (h : c.Reaches types w n (.routine k ra routine before rest K)) :
    ra.1.preceding plan.createMissing routine <+: K.records := by
  generalize hplace : Place.routine k ra routine before rest K = place at h
  induction h generalizing before rest K with
  | start => cases hplace
  | @step n p p' hreaches hadvances ih =>
    subst hplace
    have hexecutes := hadvances.executes
    generalize hplace : Place.routine k ra routine before rest K = place' at hexecutes
    generalize c.after types w (n + 1) = r' at hexecutes
    cases hexecutes with
    | init | halt | ret => cases hplace
    | call | jump =>
      cases hplace
      exact List.prefix_rfl
    | next _ ht =>
      cases hplace
      exact (ih rfl).trans ht.records_isPrefix
    | wait =>
      cases hplace
      exact ih rfl

theorem Reaches.le_of_ended {t : Nat} {p : Place} (hd : c.Distinct) (h : c.Reaches types w t p)
    (hended : (c.after types w n).ended c.program = true) : t ≤ n := by
  by_contra hlt
  obtain ⟨_, _, _, hadvances⟩ := h.earlier (Nat.lt_of_not_le hlt)
  rw [hadvances.not_ended hd] at hended
  cases hended

/-- The tables of a run are those of the last place it has come to. -/
theorem Stage.last (hd : c.Distinct) (h : c.Stage types w n) (hn : 0 < n) :
    ∃ t ≤ n, 0 < t ∧ (∃ p, c.Reaches types w t p) ∧
      (c.after types w t).memory.SameTables (c.after types w n).memory ∧
      ∀ t' ≤ n, ∀ p, c.Reaches types w t' p → t' ≤ t := by
  cases h with
  | running h => exact ⟨n, Nat.le_refl n, hn, ⟨_, h⟩, ⟨rfl, rfl, rfl, rfl⟩, fun _ ht _ _ => ht⟩
  | @halted t ht h heq =>
    have hended : (c.after types w t).ended c.program = true :=
      halted_of_stands h.stands.1 c.program.size
    refine ⟨t, ht.le, ?_, ⟨_, h⟩, heq ▸ ⟨rfl, rfl, rfl, rfl⟩, fun t' _ p hp => ?_⟩
    · rcases Nat.eq_zero_or_pos t with rfl | hpos
      · cases h
      · exact hpos
    · exact hp.le_of_ended hd hended
  | @stopped t place ht h hstops heq =>
    have hstopped : place ≠ .start ∧ (c.after types w (t + 1)).memory.error ≠ none ∧
        (c.after types w t).memory.SameTables (c.after types w (t + 1)).memory := by
      generalize c.after types w (t + 1) = r at hstops
      cases hstops with
      | fault => exact ⟨nofun, nofun, rfl, rfl, rfl, rfl⟩
    obtain ⟨hplace, herror, htables⟩ := hstopped
    refine ⟨t, ht.le, ?_, ⟨_, h⟩, heq ▸ htables, fun t' ht' p hp => ?_⟩
    · rcases Nat.eq_zero_or_pos t with rfl | hpos
      · cases h
        exact absurd rfl hplace
      · exact hpos
    · by_contra hlt
      -- Behind the fault there is no place, and no step that leads to one.
      rcases Nat.lt_or_eq_of_le (Nat.lt_of_not_le hlt) with hlt | rfl
      · obtain ⟨_, _, hreached, _⟩ := hp.earlier hlt
        exact herror hreached.stands.2
      · exact herror hp.stands.2

/-! ### What is done -/

/-- In step `t`, the operation on the staged resource is done in a routine of a resource. -/
inductive Does (c : Compilation plan) (types : Registry W) (w : W) (t : Nat)
    (ra : Resource × Action) (s : Staged W) : Prop
  | intro {k : Nat} {routine : Routine} {before rest : List Instruction} {K : Known}
    {m : Memory} :
    c.Reaches types w t (.routine k ra routine before (.resource s.op :: rest) K) →
    c.Faces types k ra routine before rest K s (c.after types w t).memory →
    s.Performed c.program.tables.rom (c.after types w t).memory (c.after types w t).world m
      (c.after types w (t + 1)).world (Run.exchanges c.program types (c.after types w t)) →
    (c.after types w (t + 1)).memory =
      { m with programCounter := (c.after types w t).memory.programCounter + 1 } →
    Does c types w t ra s

/-- What is achieved for a resource after a move. -/
theorem Advances.achieved_of_moves {r r' : Run W} {place' : Place} {logged : List Operation}
    {ra : Resource × Action} (h : c.Advances types r r' place place')
    (hmoves : c.Moves logged place place') (hra : ra ∈ c.actions) :
    c.achieved place' ra (r'.memory.decisions.get? ra.1.name) =
      c.achieved place ra (r.memory.decisions.get? ra.1.name) ++
        if place.owner? = some ra.1.name then logged else [] :=
  Compilation.achieved_of_moves hmoves h.stands hra (h.kept ra.1.name)

theorem Advances.achieved_isPrefix {r r' : Run W} {place' : Place} {ra : Resource × Action}
    (h : c.Advances types r r' place place') (hra : ra ∈ c.actions) :
    c.achieved place ra (r.memory.decisions.get? ra.1.name) <+:
      c.achieved place' ra (r'.memory.decisions.get? ra.1.name) := by
  have hmoved : ∀ {logged : List Operation}, c.Moves logged place place' →
      c.achieved place ra (r.memory.decisions.get? ra.1.name) <+:
        c.achieved place' ra (r'.memory.decisions.get? ra.1.name) := by
    intro logged hmoves
    rw [h.achieved_of_moves hmoves hra]
    exact List.prefix_append _ _
  cases h.effect with
  | init => exact hmoved .init
  | quiet hmoves => exact hmoved hmoves
  | forget _ _ _ hmoves => exact hmoved hmoves
  | settle _ hmoves => exact hmoved hmoves
  | did _ hmoves => exact hmoved hmoves
  | wait _ _ hmemory => exact hmemory ▸ List.prefix_rfl

/-- What a step achieves for a resource, it does. -/
theorem Reaches.achieves {place' : Place} (h : c.Reaches types w n place)
    (hadvances : c.Advances types (c.after types w n) (c.after types w (n + 1)) place place')
    {ra : Resource × Action} (hra : ra ∈ c.actions) :
    c.achieved place' ra ((c.after types w (n + 1)).memory.decisions.get? ra.1.name) =
        c.achieved place ra ((c.after types w n).memory.decisions.get? ra.1.name) ∨
      ∃ s : Staged W, c.Does types w n ra s ∧
        c.achieved place' ra ((c.after types w (n + 1)).memory.decisions.get? ra.1.name) =
          c.achieved place ra ((c.after types w n).memory.decisions.get? ra.1.name) ++
            [s.op.record s.name] := by
  have hsilent : c.Moves [] place place' →
      c.achieved place' ra ((c.after types w (n + 1)).memory.decisions.get? ra.1.name) =
        c.achieved place ra ((c.after types w n).memory.decisions.get? ra.1.name) := by
    intro hmoves
    rw [hadvances.achieved_of_moves hmoves hra, ite_self, List.append_nil]
  cases hadvances.effect with
  | init => exact .inl (hsilent .init)
  | quiet hmoves => exact .inl (hsilent hmoves)
  | forget _ _ _ hmoves => exact .inl (hsilent hmoves)
  | settle _ hmoves => exact .inl (hsilent hmoves)
  | @did k rb routine s before rest K m hfaces hmoves hperformed _ hmemory =>
    rw [hadvances.achieved_of_moves hmoves hra]
    split
    · next howner =>
      obtain rfl := eq_of_name_eq hfaces.inRoutine.planned hra (Option.some.inj howner)
      exact .inr ⟨s, .intro h hfaces hperformed hmemory, rfl⟩
    · exact .inl (List.append_nil _)
  | wait _ _ hmemory => exact .inl (by rw [hmemory])

/-- What is achieved for a resource was done by an earlier step. -/
theorem Reaches.does_of_mem_achieved (h : c.Reaches types w n place) {ra : Resource × Action}
    (hra : ra ∈ c.actions) {o : Operation}
    (ho : o ∈ c.achieved place ra ((c.after types w n).memory.decisions.get? ra.1.name)) :
    ∃ t < n, ∃ s : Staged W, c.Does types w t ra s ∧ o = s.op.record s.name := by
  induction h with
  | start => cases ho
  | @step n place place' hreaches hadvances ih =>
    have hearlier : o ∈ c.achieved place ra
          ((c.after types w n).memory.decisions.get? ra.1.name) →
        ∃ t < n + 1, ∃ s : Staged W, c.Does types w t ra s ∧ o = s.op.record s.name := by
      intro ho
      obtain ⟨t, ht, hdoes⟩ := ih ho
      exact ⟨t, Nat.lt_succ_of_lt ht, hdoes⟩
    rcases hreaches.achieves hadvances hra with hsame | ⟨s, hdoes, hachieved⟩
    · exact hearlier (hsame ▸ ho)
    · rw [hachieved] at ho
      rcases List.mem_append.1 ho with hold | hnew
      · exact hearlier hold
      · exact ⟨n, Nat.lt_succ_self n, s, hdoes, List.mem_singleton.1 hnew⟩

theorem Reaches.does_of_faces {k : Nat} {ra : Resource × Action} {routine : Routine}
    {before rest : List Instruction} {K : Known} {s : Staged W} {place' : Place} (hd : c.Distinct)
    (htypes : ∀ t ∈ plan.declaration.catalog.keys, t ∈ types.keys)
    (h : c.Reaches types w n (.routine k ra routine before (.resource s.op :: rest) K))
    (hfaces : c.Faces types k ra routine before rest K s (c.after types w n).memory)
    (hadvances : c.Advances types (c.after types w n) (c.after types w (n + 1))
      (.routine k ra routine before (.resource s.op :: rest) K) place')
    (hmoved : (c.after types w (n + 1)).memory ≠ (c.after types w n).memory) :
    c.Does types w n ra s ∧
      c.achieved place' ra ((c.after types w (n + 1)).memory.decisions.get? ra.1.name) =
        c.achieved (.routine k ra routine before (.resource s.op :: rest) K) ra
          ((c.after types w n).memory.decisions.get? ra.1.name) ++ [s.op.record s.name] := by
  rcases hadvances.executes.beyond with ⟨K', rfl⟩ | ⟨-, -, hwaits⟩
  · obtain ⟨s', m, hop, hfaces', hmoves, hperformed, hmemory⟩ := hadvances.performed hd htypes
    have hstaged := hfaces'.staged
    rw [hop, hfaces.staged] at hstaged
    obtain rfl : s = s' := Except.ok.inj hstaged
    refine ⟨.intro h hfaces hperformed hmemory, ?_⟩
    rw [hadvances.achieved_of_moves hmoves hfaces.inRoutine.planned]
    exact congrArg _ (if_pos rfl)
  · exact absurd hwaits hmoved

/-! ### What is said -/

/-- What was said in a step was said by the operation that came next. -/
theorem faces_of_hears (hd : c.Distinct)
    (htypes : ∀ t ∈ plan.declaration.catalog.keys, t ∈ types.keys) {o : Operation} {e : Exchange}
    (h : Run.Hears c.program types (c.after types w n) o e) :
    ∃ (k : Nat) (ra : Resource × Action) (routine : Routine) (before rest : List Instruction)
      (K : Known) (s : Staged W),
      c.Reaches types w n (.routine k ra routine before (.resource s.op :: rest) K) ∧
        c.Faces types k ra routine before rest K s (c.after types w n).memory ∧
        s.Says (c.after types w n).memory e ∧ o = s.op.record s.name := by
  have hrunning : (c.after types w n).ended c.program = false := by
    by_contra hended
    rw [Bool.not_eq_false] at hended
    have hlogged := h.logged
    rw [Run.upcoming_of_halted hended] at hlogged
    cases hlogged
  obtain ⟨place, hreaches⟩ := exists_reaches hd htypes hrunning
  obtain ⟨hstands, herror⟩ := hreaches.stands
  obtain ⟨k, ra, routine, before, rest, K, s, rfl, hfaces, hspeaks⟩ :=
    faces_of_said hd htypes hstands herror h.said
  have hlogged := h.logged
  rw [upcoming_of_faces hfaces hrunning] at hlogged
  exact ⟨k, ra, routine, before, rest, K, s, hreaches, hfaces, hspeaks,
    (List.cons.inj hlogged).1.symm⟩

theorem Does.hears {t : Nat} {ra : Resource × Action} {s : Staged W} (hd : c.Distinct)
    (h : c.Does types w t ra s) {e : Exchange}
    (he : e ∈ Run.exchanges c.program types (c.after types w t)) :
    Run.Hears c.program types (c.after types w t) (s.op.record s.name) e := by
  cases h with
  | intro hreaches hfaces _ _ =>
    obtain ⟨hstands, herror⟩ := hreaches.stands
    exact ⟨upcoming_of_faces hfaces (running_of_stands hd hstands nofun herror), he⟩

end

end Compilation

end Provisioning
