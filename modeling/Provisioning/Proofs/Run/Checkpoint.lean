/-
Runs that are taken up again.

A checkpoint is the memory of a run as a JSON value.  Two things make it enough to go on from.

It is read back as it was, but for the fault, exactly if the positions in it are words of 64
bits: where the run stands and where its calls came from.  In a run of a program whose own
positions are words they always are, for control only ever goes to the next instruction, to a
position that the program names, or behind a call that was made in it.

And nothing but the memory is looked at.  Two runs with the same memory in the same world make
the same steps, whatever their logs are and whether or not a check was left waiting, so what one
of them says, and adds to its log, the other one does too.

A fault ends a run, and a checkpoint takes it away.  It has left control and the tables as they
were, so a run that is taken up behind a fault carries out the same instruction once more.
-/
import Provisioning.Proofs.Code.Artifact
import Provisioning.Proofs.Run.Conduct
import Provisioning.Proofs.Run.Termination

namespace Provisioning

/-! ### A memory as JSON -/

theorem Decision.ofJson?_text (d : Decision) : Decision.ofJson? (.str d.text) = some d := by
  cases d <;> rfl

namespace Memory

/-- The positions in a memory are words. -/
structure WordSized (m : Memory) : Prop where
  counter : m.programCounter < UInt64.size
  callers : ∀ caller ∈ m.callStack, caller < UInt64.size

/-- All tables are read back in any case. -/
theorem ofJson?_toJson (m : Memory) :
    ofJson? m.toJson = (Json.index? (.nat m.programCounter)).bind fun programCounter =>
      (Json.listOf? Json.index? (.arr (m.callStack.map .nat))).map fun callStack =>
        { m with programCounter, callStack, error := none } := by
  have hdecisions : Json.tableOf? Decision.ofJson?
      (.obj (m.decisions.entries.map fun e => (e.1, .str e.2.text))) = some m.decisions :=
    (@Json.tableOf?_written_iff Decision _ (fun d => .str d.text) _).2
      fun e _ => Decision.ofJson?_text e.2
  simp [ofJson?, toJson, toFields, Json.decodeRecord?, Json.record?, Record.required?,
    Record.read?, Record.fits, Json.asObj?, Json.asBool?, Json.strings?_strs,
    Json.tableOf?_some, Json.tableOf?_objects, hdecisions, Option.map_eq_bind]

/-- **A memory is read back exactly if its positions are words.**  Only the fault is left
out. -/
theorem ofJson?_toJson_iff {m : Memory} :
    ofJson? m.toJson = some { m with error := none } ↔ m.WordSized := by
  have hcallers : Json.listOf? Json.index? (.arr (m.callStack.map .nat)) = some m.callStack ↔
      ∀ caller ∈ m.callStack, caller < UInt64.size := by
    rw [Json.listOf?_written_iff]
    exact forall_congr' fun caller => imp_congr_right fun _ => Json.index?_nat_iff
  rw [ofJson?_toJson]
  constructor
  · intro h
    obtain ⟨counter, hcounter, h⟩ := Option.bind_eq_some_iff.1 h
    obtain ⟨callers, hread, h⟩ := Option.map_eq_some_iff.1 h
    obtain rfl : counter = m.programCounter := congrArg programCounter h
    obtain rfl : callers = m.callStack := congrArg callStack h
    exact ⟨Json.index?_nat_iff.1 hcounter, hcallers.1 hread⟩
  · intro h
    rw [Json.index?_nat_iff.2 h.counter, hcallers.2 h.callers]
    rfl

end Memory

/-! ### Positions along a run -/

/-- The positions in a program, and those of its instructions, are words. -/
structure Program.Addressable (p : Program) : Prop where
  words : p.WordSized
  size : p.size < UInt64.size

instance (p : Program) : Decidable p.Addressable :=
  decidable_of_iff (p.WordSized ∧ p.size < UInt64.size)
    ⟨fun h => ⟨h.1, h.2⟩, fun h => ⟨h.words, h.size⟩⟩

/-- The positions in a memory are ones that a run of the program can have reached: its calls
came from instructions of the program. -/
structure Memory.LiesIn (m : Memory) (p : Program) : Prop where
  counter : m.programCounter < UInt64.size
  callers : ∀ caller ∈ m.callStack, caller < p.size

theorem Memory.liesIn_fresh (p : Program) : Memory.fresh.LiesIn p := ⟨by decide, nofun⟩

theorem Memory.LiesIn.wordSized {m : Memory} {p : Program} (h : m.LiesIn p)
    (hp : p.Addressable) : m.WordSized :=
  ⟨h.counter, fun caller hcaller => (h.callers caller hcaller).trans hp.size⟩

theorem Memory.sameControl_applyAll (m : Memory) (ws : List Write) :
    m.SameControl (m.applyAll ws) := by
  induction ws generalizing m with
  | nil => exact .refl m
  | cons wr rest ih =>
    obtain ⟨hcounter, hstack, hended, herror⟩ := ih (m.apply wr)
    cases wr <;> exact ⟨hcounter, hstack, hended, herror⟩

section

variable {W : Type} {p : Program} {types : Registry W} {i : Instruction} {m : Memory} {w : W}

/-- What an instruction can do to control. -/
structure Steers (p : Program) (i : Instruction) (m : Memory) (o : Outcome W) : Prop where
  counter : o.memory.programCounter = m.programCounter
  error : o.memory.error = m.error
  /-- A call is remembered by where it stands. -/
  callers : ∀ caller ∈ o.memory.callStack, caller ∈ m.callStack ∨ caller = m.programCounter
  /-- Control goes behind a call in progress, to a position in the instruction, or to a label. -/
  jumps : ∀ a, o.flow = .ok (.jump a) → (∃ caller ∈ m.callStack, a = caller + 1) ∨
    i = .gotoIf (.index a) ∨ ∃ l, p.label l = .ok a

theorem bindStaged_ne_jump {v : Json} {a : Nat} : (bindStaged v m w).flow ≠ .ok (.jump a) := by
  unfold bindStaged
  split <;> exact nofun

/-- Inside a routine only a branch goes elsewhere, to its own target. -/
theorem gotoIf_of_jump (hinner : i.inner = true) {a : Nat}
    (h : (execute p types i m w).flow = .ok (.jump a)) :
    ∃ target, i = .gotoIf target ∧ p.target target = .ok a := by
  unfold execute at h
  split at h
  · cases h
  cases i with
  | init | halt | ret | call => cases hinner
  | clear | key | compare => cases h
  | value v => exact absurd h bindStaged_ne_jump
  | valueRom address =>
    rw [perform] at h
    split at h
    · cases h
    · exact absurd h bindStaged_ne_jump
  | invert | valueUpdate | memwrite =>
    rw [perform] at h
    split at h <;> cases h
  | assert name =>
    rw [perform] at h
    split at h
    · cases h
    · split at h <;> cases h
  | gotoIf target =>
    rw [perform] at h
    split at h
    · cases h
    · split at h
      · cases h
      · split at h
        · cases h
        · next address haddress =>
          cases h
          exact ⟨target, rfl, haddress⟩
  | resource op =>
    rw [perform] at h
    split at h
    · cases h
    · next s _ => exact ((s.behaves_perform p.tables.rom m w).jump a h).1.elim

/-- **What an instruction does to control**, whatever the program and the memory are. -/
theorem steers_execute (p : Program) (types : Registry W) (i : Instruction) (m : Memory) (w : W) :
    Steers p i m (execute p types i m w) := by
  cases hinner : i.inner with
  | true =>
    have hjumps := @gotoIf_of_jump W p types i m w hinner
    rw [execute_eq_hold types hinner] at hjumps ⊢
    have hcontrol := m.sameControl_applyAll
      ((i.talk p.tables.rom types m).hold types w).result.writes
    refine ⟨hcontrol.programCounter, hcontrol.error, fun caller hcaller => ?_, fun a ha => ?_⟩
    · exact .inl (hcontrol.callStack ▸ hcaller)
    · obtain ⟨target, rfl, htarget⟩ := hjumps ha
      cases target with
      | index b =>
        cases htarget
        exact .inr (.inl rfl)
      | label l => exact .inr (.inr ⟨l, htarget⟩)
  | false =>
    cases i with
    | init | halt => exact ⟨rfl, rfl, fun _ => .inl, by rintro _ ⟨⟩⟩
    | ret =>
      change Steers p .ret m (perform p types .ret m w)
      rw [perform]
      split
      · exact ⟨rfl, rfl, fun _ => .inl, by rintro _ ⟨⟩⟩
      · next caller hcaller =>
        refine ⟨rfl, rfl, fun _ h => .inl (List.mem_of_mem_dropLast h), fun a ha => ?_⟩
        cases ha
        exact .inl ⟨caller, List.mem_of_getLast? hcaller, rfl⟩
    | call l =>
      change Steers p (.call l) m (perform p types (.call l) m w)
      rw [perform]
      split
      · exact ⟨rfl, rfl, fun _ => .inl, by rintro _ ⟨⟩⟩
      · next address haddress =>
        refine ⟨rfl, rfl, fun caller hcaller => ?_, fun a ha => ?_⟩
        · exact (List.mem_append.1 hcaller).imp_right List.mem_singleton.1
        · cases ha
          exact .inr (.inr ⟨l, haddress⟩)
    | _ => cases hinner

end

namespace Run

variable {W : Type} {p : Program} {types : Registry W} {r r' : Run W} {i : Instruction} {f : Fault}

/-- A step keeps the positions within the program. -/
theorem liesIn_step (hp : p.Addressable) (r : Run W) (h : r.memory.LiesIn p) :
    (r.step p types).memory.LiesIn p := by
  cases hrunning : r.ended p with
  | true =>
    rw [step_of_ended hrunning]
    exact h
  | false =>
    obtain ⟨i, hi⟩ := exists_instruction hrunning
    obtain ⟨hlt, hmem⟩ : r.memory.programCounter < p.size ∧ i ∈ p.instructions :=
      ⟨(List.getElem?_eq_some_iff.1 hi).1, List.mem_of_getElem? hi⟩
    rw [step_of_instruction hrunning hi, settle]
    have hsteers := steers_execute p types i r.memory r.world
    generalize execute p types i r.memory r.world = o at hsteers
    have hcallers : ∀ caller ∈ o.memory.callStack, caller < p.size := by
      intro caller hcaller
      rcases hsteers.callers caller hcaller with hold | rfl
      · exact h.callers caller hold
      · exact hlt
    have hsame : o.memory.programCounter < UInt64.size := hsteers.counter ▸ h.counter
    split
    · exact ⟨Nat.lt_of_le_of_lt hlt hp.size, hcallers⟩
    · next a ha =>
      refine ⟨?_, hcallers⟩
      rcases hsteers.jumps a ha with ⟨caller, hcaller, rfl⟩ | rfl | ⟨l, hl⟩
      · exact Nat.lt_of_le_of_lt (h.callers caller hcaller) hp.size
      · exact hp.words.instructions _ hmem
      · unfold Program.label at hl
        split at hl
        · next hget =>
          cases hl
          exact hp.words.tables _ (Table.get?_eq_some_iff.1 hget)
        · cases hl
    · exact ⟨hsame, hcallers⟩
    · exact ⟨hsame, hcallers⟩

theorem liesIn_steps (hp : p.Addressable) (types : Registry W) (h : r.memory.LiesIn p) (n : Nat) :
    (steps p types n r).memory.LiesIn p :=
  steps_induction (fun r h => liesIn_step hp r h) h n

/-! ### The same memory in the same world -/

theorem step_congr (p : Program) (types : Registry W) (hmemory : r'.memory = r.memory)
    (hworld : r'.world = r.world) :
    (r'.step p types).memory = (r.step p types).memory ∧
      (r'.step p types).world = (r.step p types).world := by
  unfold step ended
  rw [hmemory, hworld]
  split
  · exact ⟨hmemory, hworld⟩
  · dsimp only
    cases p.instructions[r.memory.programCounter]? with
    | none => exact ⟨hmemory, hworld⟩
    | some i =>
      unfold settle
      dsimp only
      split <;> exact ⟨rfl, rfl⟩

theorem steps_congr (p : Program) (types : Registry W) (hmemory : r'.memory = r.memory)
    (hworld : r'.world = r.world) (k : Nat) :
    (steps p types k r').memory = (steps p types k r).memory ∧
      (steps p types k r').world = (steps p types k r).world := by
  induction k with
  | zero => exact ⟨hmemory, hworld⟩
  | succ k ih =>
    rw [steps_succ, steps_succ]
    exact step_congr p types ih.1 ih.2

theorem exchanges_congr (hmemory : r'.memory = r.memory) (hworld : r'.world = r.world) :
    exchanges p types r' = exchanges p types r := by
  have hstart : r'.recorded.world = r.recorded.world := congrArg (·, []) hworld
  exact congrArg Prod.snd (step_congr p types.recorded hmemory hstart).2

theorem spoken_congr (hmemory : r'.memory = r.memory) (hworld : r'.world = r.world) (k : Nat) :
    spoken p types r' k = spoken p types r k := by
  induction k with
  | zero => rfl
  | succ k ih =>
    obtain ⟨hmemory', hworld'⟩ := steps_congr p types hmemory hworld k
    rw [spoken, spoken, ih, exchanges_congr hmemory' hworld', hmemory']

theorem trace_congr (hmemory : r'.memory = r.memory) (hworld : r'.world = r.world) (k : Nat) :
    trace p types r' k = trace p types r k := by
  induction k with
  | zero => rfl
  | succ k ih => rw [trace_succ, trace_succ, ih, (steps_congr p types hmemory hworld k).1]

/-- A new run that is taken up from a memory, in the world of another one. -/
def resumed (r : Run W) (m : Memory) : Run W := (fresh r.world).restore m

/-- A run that is taken up from `m` behind `n` steps of `r` makes the `k` steps that `r` makes
there: it says the same, and adds the same to the log. -/
structure Continues (p : Program) (types : Registry W) (r : Run W) (n : Nat) (m : Memory)
    (k : Nat) : Prop where
  memory : (steps p types k ((steps p types n r).resumed m)).memory =
    (steps p types (n + k) r).memory
  world : (steps p types k ((steps p types n r).resumed m)).world =
    (steps p types (n + k) r).world
  log : (steps p types (n + k) r).log =
    (steps p types n r).log ++ (steps p types k ((steps p types n r).resumed m)).log
  spoken : spoken p types r (n + k) =
    spoken p types r n ++ Run.spoken p types ((steps p types n r).resumed m) k

/-- **Nothing but the memory is looked at.** -/
theorem continues (p : Program) (types : Registry W) (r : Run W) (n k : Nat) :
    r.Continues p types n (steps p types n r).memory k := by
  obtain ⟨s, hs⟩ : ∃ s, steps p types n r = s := ⟨_, rfl⟩
  have hmemory : (s.resumed s.memory).memory = s.memory := rfl
  have hworld : (s.resumed s.memory).world = s.world := rfl
  obtain ⟨hmemory', hworld'⟩ := steps_congr p types hmemory hworld k
  constructor
  · rw [steps_add, hs, hmemory']
  · rw [steps_add, hs, hworld']
  · rw [steps_add, hs, log_steps, log_steps, trace_congr hmemory hworld]
    rfl
  · rw [spoken_add, hs, spoken_congr hmemory hworld]

/-! ### Behind a fault -/

/-- The instruction at which a fault stops a run. -/
structure Fails (p : Program) (types : Registry W) (r : Run W) (i : Instruction) (f : Fault) :
    Prop where
  running : r.ended p = false
  instruction : p.instructions[r.memory.programCounter]? = some i
  fault : (execute p types i r.memory r.world).flow = .error f

/-- Only a fault is noted as one. -/
theorem fails_of_error (hnone : r.memory.error = none)
    (h : (r.step p types).memory.error = some f) : ∃ i, r.Fails p types i f := by
  cases hrunning : r.ended p with
  | true =>
    rw [step_of_ended hrunning, hnone] at h
    cases h
  | false =>
    obtain ⟨i, hi⟩ := exists_instruction hrunning
    refine ⟨i, hrunning, hi, ?_⟩
    rw [step_of_instruction hrunning hi, settle] at h
    have herror := (steers_execute p types i r.memory r.world).error
    rw [hnone] at herror
    split at h
    · rw [herror] at h
      cases h
    · rw [herror] at h
      cases h
    · rw [herror] at h
      cases h
    · next hflow =>
      cases h
      exact hflow

/-- A run that a fault has stopped was stopped in one of its steps. -/
theorem exists_fails (hnone : r.memory.error = none) {n : Nat}
    (h : (steps p types n r).memory.error = some f) :
    ∃ t < n, steps p types n r = (steps p types t r).step p types ∧
      ∃ i, (steps p types t r).Fails p types i f := by
  induction n with
  | zero =>
    rw [steps, hnone] at h
    cases h
  | succ n ih =>
    cases hbefore : (steps p types n r).memory.error with
    | none =>
      rw [steps_succ] at h
      exact ⟨n, Nat.lt_succ_self n, steps_succ n r, fails_of_error hbefore h⟩
    | some f' =>
      have hstep : steps p types (n + 1) r = steps p types n r := by
        rw [steps_succ, step_of_ended (Compilation.ended_of_error hbefore)]
      rw [hstep] at h ⊢
      obtain ⟨t, ht, hfails⟩ := ih h
      exact ⟨t, Nat.lt_succ_of_lt ht, hfails⟩

/-- What a run does first that is taken up from `m` behind a fault: it carries out once more the
instruction that was at fault in a step of `r`. -/
structure Repeats (p : Program) (types : Registry W) (r : Run W) (i : Instruction) (m : Memory) :
    Prop where
  /-- But for scratch the memory is the one in which the fault was found. -/
  memory : ∃ temp, m = { r.memory with temp }
  running : ((r.step p types).resumed m).ended p = false
  step : ((r.step p types).resumed m).step p types =
    settle (logged i m) (execute p types i m (r.step p types).world) r.memory.programCounter

theorem Fails.repeats (h : r.Fails p types i f) :
    r.Repeats p types i { (r.step p types).memory with error := none } := by
  have hstopped := (leaves_of_error h.fault).stoppedBy h.running h.instruction h.fault
  obtain ⟨temp, htemp, -⟩ := hstopped.memory
  have hnone := error_of_running h.running
  have hmemory : { (r.step p types).memory with error := none } = { r.memory with temp } := by
    rw [htemp, ← hnone]
  have hrunning : ((r.step p types).resumed { r.memory with temp }).ended p = false := h.running
  rw [hmemory]
  exact ⟨⟨temp, rfl⟩, hrunning, step_of_instruction hrunning h.instruction⟩

end Run

/-- **A run that is taken up from a checkpoint is the same run.**  The memory is read back as it
was.  If nothing was at fault the new run does in any number of steps what the old one would have
done, and otherwise it begins with the instruction that was at fault. -/
theorem resumes_of_steps {W : Type} {p : Program} (hp : p.Addressable) (types : Registry W)
    {r : Run W} (hlies : r.memory.LiesIn p) (hnone : r.memory.error = none) (n : Nat) :
    ∃ m, Memory.ofJson? (Run.steps p types n r).memory.toJson = some m ∧
      m = { (Run.steps p types n r).memory with error := none } ∧
      ((Run.steps p types n r).memory.error = none → ∀ k, r.Continues p types n m k) ∧
      ∀ f, (Run.steps p types n r).memory.error = some f →
        ∃ t < n, Run.steps p types n r = (Run.steps p types t r).step p types ∧
          ∃ i, (Run.steps p types t r).Fails p types i f ∧
            (Run.steps p types t r).Repeats p types i m := by
  have hwords := (Run.liesIn_steps hp types hlies n).wordSized hp
  refine ⟨_, Memory.ofJson?_toJson_iff.2 hwords, rfl, ?_, ?_⟩
  · intro herror k
    rw [← herror]
    exact Run.continues p types r n k
  · intro f hf
    obtain ⟨t, ht, hstep, i, hfails⟩ := Run.exists_fails hnone hf
    rw [hstep]
    exact ⟨t, ht, rfl, i, hfails, hfails.repeats⟩

/-- A run that is taken up inside a routine, with a check waiting; and one that is taken up behind
a fault of that check, and makes it again. -/
theorem resumes_of_steps_waiting :
    ∃ p, (plainPlan true [] ["x"] false).compile = .ok p ∧
      (Run.steps p Compilation.slowTypes 18 (Run.fresh 0)).waiting = true ∧
      (∃ m, Memory.ofJson? (Run.steps p Compilation.slowTypes 18 (Run.fresh 0)).memory.toJson =
          some m ∧
        m.callStack = [2] ∧ ∀ k, (Run.fresh 0).Continues p Compilation.slowTypes 18 m k) ∧
      ∃ m t, Memory.ofJson? (Run.steps p deafTypes 18 (Run.fresh ())).memory.toJson = some m ∧
        (Run.steps p deafTypes t (Run.fresh ())).Repeats p deafTypes (.resource .checkCreate)
          m := by
  obtain ⟨p, hcompile⟩ : ∃ p, (plainPlan true [] ["x"] false).compile = .ok p := ⟨_, rfl⟩
  have hp : p.Addressable := by
    cases hcompile
    decide +kernel
  refine ⟨p, hcompile, by cases hcompile; decide +kernel, ?_, ?_⟩
  · obtain ⟨m, hread, hm, hgoes, -⟩ := resumes_of_steps (r := Run.fresh 0) hp
      Compilation.slowTypes (Memory.liesIn_fresh p) rfl 18
    refine ⟨m, hread, ?_, hgoes ?_⟩
    · rw [hm]
      cases hcompile
      decide +kernel
    · cases hcompile
      decide +kernel
  · obtain ⟨m, hread, hm, -, hfault⟩ := resumes_of_steps (r := Run.fresh ()) hp
      deafTypes (Memory.liesIn_fresh p) rfl 18
    obtain ⟨t, -, hstep, i, hfails, hrepeats⟩ := hfault
      (.backend "check_create" "x" "down") (by cases hcompile; decide +kernel)
    refine ⟨m, t, hread, ?_⟩
    have hcounter : (Run.steps p deafTypes t (Run.fresh ())).memory.programCounter = 20 := by
      obtain ⟨temp, htemp⟩ := hrepeats.memory
      have hsame : m.programCounter = _ := congrArg Memory.programCounter htemp
      rw [← hsame, hm]
      cases hcompile
      decide +kernel
    have hi : p.instructions[20]? = some (.resource .checkCreate) := by
      cases hcompile
      decide +kernel
    obtain rfl : i = .resource .checkCreate := by
      have hinstruction := hfails.instruction
      rw [hcounter, hi] at hinstruction
      exact (Option.some.inj hinstruction).symm
    exact hrepeats

end Provisioning
