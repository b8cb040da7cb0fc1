/-
Polling cannot be seen.

Against two registries that differ in polls only, the runs of a program end with the same memory,
say the same but for the polls, and log the same but for repetitions of a check.  In a compiled
program each instruction is completed once, so one can also count: a check is logged once for
each poll, and once more.

Every registry has others that differ from it in polls only: their providers say "not yet" some
more times before they answer.
-/
import Provisioning.Proofs.Run.Laps
import Provisioning.Proofs.Run.Termination

namespace Provisioning

/-! ### How often a check is logged -/

namespace Run

section

variable {W : Type} {p : Program} {types : Registry W} {r : Run W} {i : Instruction}

theorem polls_of_step (hrunning : r.ended p = false) :
    (r.stays p types = true ∧ ∃ e, exchanges p types r = [e] ∧ e.notYet = true) ∨
      (r.stays p types = false ∧ ∀ e ∈ exchanges p types r, e.notYet = false) := by
  obtain ⟨i, hi⟩ := exists_instruction hrunning
  have hiff : r.stays p types = true ↔ _ := stays_of_instruction hrunning hi
  cases hinner : i.inner with
  | false =>
    have hsilent := i.isResourceOp_of_not_inner hinner
    refine .inr ⟨Bool.eq_false_iff.2 fun hstays => ?_, ?_⟩
    · rw [inner_of_stay (hiff.1 hstays)] at hinner
      cases hinner
    · rw [exchanges_of_silent hrunning hi hsilent]
      exact nofun
  | true =>
    rw [(step_of_talk types hrunning hi hinner).2]
    rw [execute_eq_hold types hinner] at hiff
    rcases (i.regular_talk p.tables.rom types r.memory).ends types r.world with
      ⟨hstay, hpoll⟩ | ⟨hfirm, hanswered⟩
    · refine .inl ⟨hiff.2 ?_, hpoll⟩
      simp only [hstay]
      rfl
    · refine .inr ⟨Bool.eq_false_iff.2 fun hstays => ?_, hanswered⟩
      exact hfirm.moves (Upshot.stay_of_flow (hiff.1 hstays))

/-- How often the instruction at `i` was logged in the first steps of a run. -/
def logs (p : Program) (types : Registry W) (r : Run W) (i n : Nat) : Nat :=
  (trace p types r n).countP (·.1 = i)

/-- How often the instruction at `i` was answered with "not yet" in the first steps of a run. -/
def denials (p : Program) (types : Registry W) (r : Run W) (i : Nat) : (n : Nat) → Nat
  | 0 => 0
  | n + 1 =>
    let before := steps p types n r
    denials p types r i n +
      if before.memory.programCounter = i then (exchanges p types before).countP Exchange.notYet
      else 0

theorem logs_succ (p : Program) (types : Registry W) (r : Run W) (i n : Nat) :
    logs p types r i (n + 1) = logs p types r i n +
      if (steps p types n r).memory.programCounter = i then
        (upcoming p (steps p types n r).memory).length else 0 := by
  unfold logs
  rw [trace_succ, List.countP_append, List.countP_map]
  congr 1
  split
  · next h => simp [Function.comp_def, h]
  · next h => simp [Function.comp_def, h]

/-- What is logged was made by an operation. -/
theorem op_of_logs {i n : Nat} (h : 0 < logs p types r i n) :
    ∃ op, p.instructions[i]? = some (.resource op) := by
  induction n with
  | zero => cases h
  | succ n ih =>
    rw [logs_succ] at h
    rcases Nat.eq_zero_or_pos (logs p types r i n) with hzero | hpos
    · rw [hzero, Nat.zero_add] at h
      split at h
      · next hcounter =>
        unfold upcoming at h
        split at h
        · cases h
        · split at h
          · cases h
          · next i' hi' =>
            rw [hcounter] at hi'
            cases i' with
            | resource op => exact ⟨op, hi'⟩
            | _ => cases h
      · cases h
    · exact ih hpos

end

end Run

namespace Compilation

variable {plan : Plan} {W : Type} {c : Compilation plan} {types : Registry W} {w : W}

/-- How far a run has come with the operation at `i`: it is completed, or it has been logged
for its polls only, and then control still stands there. -/
inductive Tallied (c : Compilation plan) (types : Registry W) (w : W) (i n : Nat) : Prop
  | completed {t : Nat} : t < n → Completes c.program types w t i →
    Run.logs c.program types (Run.fresh w) i n =
      Run.denials c.program types (Run.fresh w) i n + 1 → Tallied c types w i n
  | waiting : Run.logs c.program types (Run.fresh w) i n =
      Run.denials c.program types (Run.fresh w) i n →
    (0 < Run.logs c.program types (Run.fresh w) i n →
      (c.after types w n).memory.programCounter = i ∧
        (c.after types w n).ended c.program = false) → Tallied c types w i n

/-- A step elsewhere, or none at all, changes nothing about the operation at `i`. -/
theorem Tallied.elsewhere {i n : Nat} (h : Tallied c types w i n)
    (hlogs : Run.logs c.program types (Run.fresh w) i (n + 1) =
      Run.logs c.program types (Run.fresh w) i n)
    (hdenials : Run.denials c.program types (Run.fresh w) i (n + 1) =
      Run.denials c.program types (Run.fresh w) i n)
    (haway : (c.after types w n).ended c.program = true ∨
      (c.after types w n).memory.programCounter ≠ i) : Tallied c types w i (n + 1) := by
  cases h with
  | completed ht hcompletes htally =>
    exact .completed (Nat.lt_succ_of_lt ht) hcompletes (by rw [hlogs, hdenials, htally])
  | waiting htally hstands =>
    refine .waiting (by rw [hlogs, hdenials, htally]) fun hpos => ?_
    rw [hlogs] at hpos
    obtain ⟨hcounter, hrunning⟩ := hstands hpos
    rcases haway with hended | hne
    · exact absurd (hrunning.symm.trans hended) nofun
    · exact absurd hcounter hne

/-- A step of the operation at `i` is a poll, or completes it. -/
theorem Tallied.here (hd : c.Distinct)
    (htypes : ∀ t ∈ plan.declaration.catalog.keys, t ∈ types.keys) {i n : Nat} {op : ResourceOp}
    (h : Tallied c types w i n) (hrunning : (c.after types w n).ended c.program = false)
    (hcounter : (c.after types w n).memory.programCounter = i)
    (hi : c.program.instructions[i]? = some (.resource op)) : Tallied c types w i (n + 1) := by
  rw [← hcounter] at hi
  have hlogged : (Run.upcoming c.program (c.after types w n).memory).length = 1 := by
    rw [Run.upcoming_of_instruction hrunning hi, Run.logged_resource]
    rfl
  have hlogs : Run.logs c.program types (Run.fresh w) i (n + 1) =
      Run.logs c.program types (Run.fresh w) i n + 1 := by
    rw [Run.logs_succ, ← hlogged]
    exact congrArg (_ + ·) (if_pos hcounter)
  have hdenials : Run.denials c.program types (Run.fresh w) i (n + 1) =
      Run.denials c.program types (Run.fresh w) i n +
        (Run.exchanges c.program types (c.after types w n)).countP Exchange.notYet :=
    congrArg (_ + ·) (if_pos hcounter)
  cases h with
  | completed ht hcompletes _ =>
    -- What is completed does not come up again.
    have hne := counter_ne_of_lt hd htypes ht hrunning hcompletes.moves
    exact absurd (hcompletes.counter.trans hcounter.symm) hne
  | waiting htally _ =>
    rcases Run.polls_of_step hrunning with ⟨hstays, e, hsaid, hpoll⟩ | ⟨hmoves, hanswered⟩
    · have hstay := (Run.stays_of_instruction hrunning hi).1 hstays
      have hmemory := (Run.step_of_stay hrunning hi hstay).1
      rw [← after_succ] at hmemory
      refine .waiting ?_ fun _ => ⟨by rw [hmemory, hcounter], ?_⟩
      · rw [hlogs, hdenials, hsaid, htally]
        simp [hpoll]
      · exact (Run.ended_congr hmemory).trans hrunning
    · have hnone : (Run.exchanges c.program types (c.after types w n)).countP
          Exchange.notYet = 0 := by
        rw [List.countP_eq_zero]
        intro e he
        simp [hanswered e he]
      refine .completed (Nat.lt_succ_self n) ⟨hrunning, hcounter, hmoves⟩ ?_
      rw [hlogs, hdenials, hnone, htally]

/-- **Each step keeps the tally of an operation.** -/
theorem tallied (hd : c.Distinct)
    (htypes : ∀ t ∈ plan.declaration.catalog.keys, t ∈ types.keys) {i : Nat} {op : ResourceOp}
    (hi : c.program.instructions[i]? = some (.resource op)) (n : Nat) :
    Tallied c types w i n := by
  induction n with
  | zero => exact .waiting rfl fun h => absurd h (Nat.lt_irrefl 0)
  | succ n ih =>
    by_cases haway : (c.after types w n).ended c.program = true ∨
        (c.after types w n).memory.programCounter ≠ i
    · refine ih.elsewhere ?_ ?_ haway
      · rw [Run.logs_succ, Nat.add_eq_left, ite_eq_right_iff]
        intro hcounter
        have hended := haway.resolve_right (absurd hcounter)
        exact congrArg List.length (Run.upcoming_of_halted hended)
      · rw [Run.denials, Nat.add_eq_left, ite_eq_right_iff]
        intro hcounter
        have hended := haway.resolve_right (absurd hcounter)
        exact congrArg (List.countP Exchange.notYet) (Run.exchanges_of_ended hended)
    · obtain ⟨hrunning, hcounter⟩ := not_or.1 haway
      exact ih.here hd htypes (Bool.eq_false_iff.2 hrunning) (not_not.1 hcounter) hi

/-- **In a run that has ended, an operation was logged once more than it was answered with "not
yet".** -/
theorem logs_of_ended (hd : c.Distinct)
    (htypes : ∀ t ∈ plan.declaration.catalog.keys, t ∈ types.keys) {i n : Nat}
    (hended : (c.after types w n).ended c.program = true)
    (hlogged : 0 < Run.logs c.program types (Run.fresh w) i n) :
    Run.logs c.program types (Run.fresh w) i n =
      Run.denials c.program types (Run.fresh w) i n + 1 := by
  obtain ⟨op, hi⟩ := Run.op_of_logs hlogged
  cases tallied hd htypes hi n with
  | completed _ _ htally => exact htally
  | waiting _ hstands =>
    have hrunning := (hstands hlogged).2
    exact absurd (hrunning.symm.trans hended) nofun

end Compilation

/-! ### Slower providers -/

/-- The answer "not yet", if there is such an answer to the request. -/
def Request.later? : (r : Request) → Option (Except String r.Answer)
  | .complete _ | .deleteComplete => some (.ok false)
  | .create _ | .read _ | .update _ | .delete | .outputs | .found => none

theorem Request.later?_of_not_awaits {r : Request} (h : r.awaits = false) : r.later? = none := by
  cases r <;> first | rfl | cases h

/-- A refusal is an answer that counts. -/
theorem Request.notYet_error (r : Request) (reason : String) :
    r.notYet (.error reason) = false := by
  cases r <;> rfl

theorem Request.exists_later {r : Request} (h : r.awaits = true) :
    ∃ later, r.later? = some later ∧ r.notYet later = true := by
  cases r <;> first | exact ⟨_, rfl, rfl⟩ | cases h

section

variable {W : Type}

/-- The provider that says "not yet" some times before it asks the other one whether something
is complete.  It keeps count beside the world. -/
def Provider.delayed (q : Provider W) (times : Option Json → Request → Nat) :
    Provider (W × Nat) where
  ask id r w :=
    let answered := q.ask id r w.1
    match r.later? with
    | none => (answered.1, answered.2, w.2)
    | some later =>
      if w.2 < times id r then (later, w.1, w.2 + 1) else (answered.1, answered.2, 0)

/-- The registry with providers that are slower. -/
def Registry.delayed (types : Registry W) (times : Call → Nat) : Registry (W × Nat) :=
  types.mapValues fun typeId k =>
    ⟨k.schema, k.provider.map (·.delayed fun id r => times ⟨typeId, id, r⟩)⟩

namespace Registry

variable {types : Registry W} {times : Call → Nat} {call : Call}

theorem get?_delayed (types : Registry W) (times : Call → Nat) (typeId : String) :
    (types.delayed times).get? typeId = (types.get? typeId).map fun k =>
      ⟨k.schema, k.provider.map (·.delayed fun id r => times ⟨typeId, id, r⟩)⟩ :=
  Table.get?_mapValues types _ typeId

/-- What a slower registry answers where there is a provider. -/
theorem answer_delayed {q : Provider W}
    (hq : (types.get? call.typeId).bind Kind.provider = some q) (w : W × Nat) :
    (types.delayed times).answer call w =
      (q.delayed fun id r => times ⟨call.typeId, id, r⟩).ask call.id call.request w := by
  obtain ⟨k, hk, hq⟩ := Option.bind_eq_some_iff.1 hq
  unfold answer
  rw [get?_delayed, hk, Option.map_some, Option.bind_some]
  simp only [hq, Option.map_some]

theorem answer_delayed_of_none (h : (types.get? call.typeId).bind Kind.provider = none)
    (w : W × Nat) : (types.delayed times).answer call w = (.error "", w) := by
  unfold answer
  rw [get?_delayed]
  cases hk : types.get? call.typeId with
  | none => rfl
  | some k =>
    rw [hk, Option.bind_some] at h
    rw [Option.map_some, Option.bind_some]
    simp only [h, Option.map_none]

theorem answer_delayed_of_not_awaits (h : call.request.awaits = false) (w : W × Nat) :
    (types.delayed times).answer call w =
      ((types.answer call w.1).1, (types.answer call w.1).2, w.2) := by
  cases hq : (types.get? call.typeId).bind Kind.provider with
  | none =>
    rw [answer_delayed_of_none hq, answer, hq]
  | some q =>
    rw [answer_delayed hq, answer, hq]
    simp only [Provider.delayed, Request.later?_of_not_awaits h]

theorem answer_delayed_of_le (hawaits : call.request.awaits = true) {q : Provider W}
    (hq : (types.get? call.typeId).bind Kind.provider = some q) (w : W) {n : Nat}
    (hn : times call ≤ n) :
    (types.delayed times).answer call (w, n) =
      ((types.answer call w).1, (types.answer call w).2, 0) := by
  obtain ⟨later, hlater, -⟩ := Request.exists_later hawaits
  rw [answer_delayed hq, answer, hq]
  simp only [Provider.delayed, hlater]
  rw [if_neg (Nat.not_lt.2 hn)]

theorem denies_delayed (hawaits : call.request.awaits = true) {q : Provider W}
    (hq : (types.get? call.typeId).bind Kind.provider = some q) (w : W) {n : Nat}
    (hn : n ≤ times call) : (types.delayed times).Denies call (w, 0) n (w, n) := by
  induction n with
  | zero => exact .none
  | succ n ih =>
    obtain ⟨later, hlater, hnotYet⟩ := Request.exists_later hawaits
    have hanswer : (types.delayed times).answer call (w, n) = (later, w, n + 1) := by
      rw [answer_delayed hq]
      simp only [Provider.delayed, hlater]
      exact if_pos hn
    have hdenies := Denies.again (ih (Nat.le_of_succ_le hn)) (by rw [hanswer]; exact hnotYet)
    rwa [hanswer] at hdenies

theorem Denies.trans {w v u : W} {k k' : Nat} (h : types.Denies call w k v)
    (h' : types.Denies call v k' u) : types.Denies call w (k + k') u := by
  induction h' with
  | none => exact h
  | again _ hnotYet ih => exact .again ih hnotYet

/-- **Slower providers differ in polls only.** -/
theorem differInPolls_delayed (types : Registry W) (times : Call → Nat) :
    types.DifferInPolls (types.delayed times) fun w w' => w' = (w, 0) where
  faces typeId := by
    rw [get?_delayed, Option.map_map]
    cases types.get? typeId with
    | none => rfl
    | some k =>
      show some k.face = some (k.schema, (k.provider.map _).isSome)
      rw [Option.isSome_map]
      rfl
  answers := by
    rintro w _ call rfl hawaits
    rw [answer_delayed_of_not_awaits hawaits]
    exact ⟨rfl, rfl⟩
  settles := by
    rintro w _ call k v rfl hawaits hdenies hv
    cases hq : (types.get? call.typeId).bind Kind.provider with
    | none =>
      have hrefused : ∀ w, types.answer call w = (.error "", w) := by
        intro w
        rw [answer, hq]
      cases hdenies with
      | none =>
        refine ⟨0, (w, 0), .none, ?_⟩
        rw [answer_delayed_of_none hq, hrefused]
        exact ⟨rfl, rfl⟩
      | @again _ v _ hnotYet =>
        rw [hrefused v, call.request.notYet_error] at hnotYet
        cases hnotYet
    | some q =>
      have hput := fun w => denies_delayed hawaits hq w (Nat.le_refl (times call))
      have hpass := fun w => answer_delayed_of_le hawaits hq w (Nat.le_refl (times call))
      -- Each "not yet" of the other registry comes after those that were put before it.
      have hreach : ∃ k', (types.delayed times).Denies call (w, 0) k' (v, 0) := by
        clear hv
        induction hdenies with
        | none => exact ⟨0, .none⟩
        | @again k v _ hnotYet ih =>
          obtain ⟨k', hk'⟩ := ih
          have hnext := Denies.again (hk'.trans (hput v)) (by rw [hpass v]; exact hnotYet)
          rw [hpass v] at hnext
          exact ⟨_, hnext⟩
      obtain ⟨k', hk'⟩ := hreach
      refine ⟨_, _, hk'.trans (hput v), ?_⟩
      rw [hpass v]
      exact ⟨rfl, rfl⟩

end Registry

end

/-! ### Polling -/

/-- At their ends two runs differ in polls only. -/
structure PollsUnseen {W W' : Type} (p : Program) (types : Registry W) (types' : Registry W')
    (R : W → W' → Prop) (w : W) (w' : W') : Prop where
  /-- What ends in one run ends in the other. -/
  ends : ∀ n, (Run.steps p types n (Run.fresh w)).ended p = true →
    ∃ n', (Run.steps p types' n' (Run.fresh w')).ended p = true
  /-- The memories are the same, and so are the exchanges without polls and the logs without
  repeated checks. -/
  same : ∀ n n', (Run.steps p types n (Run.fresh w)).ended p = true →
    (Run.steps p types' n' (Run.fresh w')).ended p = true →
    Run.SameButPolls p types types' R (Run.fresh w) (Run.fresh w') n n'
  /-- What is logged in the first run is logged once more than it is answered with "not yet". -/
  logs : ∀ n i, (Run.steps p types n (Run.fresh w)).ended p = true →
    0 < Run.logs p types (Run.fresh w) i n →
    Run.logs p types (Run.fresh w) i n = Run.denials p types (Run.fresh w) i n + 1
  /-- The same holds in the second run. -/
  logs' : ∀ n i, (Run.steps p types' n (Run.fresh w')).ended p = true →
    0 < Run.logs p types' (Run.fresh w') i n →
    Run.logs p types' (Run.fresh w') i n = Run.denials p types' (Run.fresh w') i n + 1

namespace Compilation

variable {plan : Plan}

theorem pollsUnseen {W W' : Type} {c : Compilation plan} {types : Registry W}
    {types' : Registry W'} {R : W → W' → Prop} {w : W} {w' : W'} (hd : c.Distinct)
    (htypes : ∀ t ∈ plan.declaration.catalog.keys, t ∈ types.keys)
    (hdiffer : types.DifferInPolls types' R) (hw : R w w') :
    PollsUnseen c.program types types' R w w' := by
  have hstart : Run.SameButPolls c.program types types' R (Run.fresh w) (Run.fresh w') 0 0 :=
    ⟨rfl, hw, rfl, rfl⟩
  constructor
  · intro n hended
    obtain ⟨n', hended', -⟩ := hstart.run hdiffer hended
    exact ⟨n', hended'⟩
  · intro n n' hended hended'
    obtain ⟨N', hlast, hsame⟩ := hstart.run hdiffer hended
    exact hsame.of_ended hlast hended'
  · exact fun n i hended hlogged => logs_of_ended hd htypes hended hlogged
  · have htypes' : ∀ t ∈ plan.declaration.catalog.keys, t ∈ types'.keys := fun t ht =>
      hdiffer.registered (htypes t ht)
    exact fun n i hended hlogged => logs_of_ended hd htypes' hended hlogged

/-- **Polling cannot be seen.**  Whatever the program, a step that stays changes nothing but the
log, which gains one entry.  And two runs of a compiled program end alike against registries that
differ only in how often they say "not yet". -/
theorem pollsUnseen_of_steps {p : Program} (h : plan.compile = .ok p) :
    (∀ {W : Type} (q : Program) (types : Registry W) i,
      (∀ m w, (execute q types i m w).flow = .ok .stay → (execute q types i m w).memory = m) ∧
      ∀ r : Run W, r.ended q = false → q.instructions[r.memory.programCounter]? = some i →
        (execute q types i r.memory r.world).flow = .ok .stay →
        (r.step q types).memory = r.memory ∧ ∃ o, (r.step q types).log = r.log ++ [o]) ∧
      ∃ c : Compilation plan, c.program = p ∧ (c.Distinct →
        ∀ {W W' : Type} (types : Registry W) (types' : Registry W') (R : W → W' → Prop),
          (∀ t ∈ plan.declaration.catalog.keys, t ∈ types.keys) →
          types.DifferInPolls types' R → ∀ w w', R w w' →
            (Settles p types w → ∃ n, (Run.steps p types n (Run.fresh w)).ended p = true) ∧
              PollsUnseen p types types' R w w') := by
  constructor
  · intro W q types i
    refine ⟨fun m w hstay => Run.memory_execute_of_stay hstay, ?_⟩
    intro r hrunning hi hstay
    obtain ⟨hmemory, o, -, hlog, -⟩ := Run.step_of_stay hrunning hi hstay
    exact ⟨hmemory, o, hlog⟩
  · obtain ⟨c, rfl⟩ := compile_eq_ok.1 h
    exact ⟨c, rfl, fun hd _ _ _ _ _ htypes hdiffer _ _ hw =>
      ⟨fun hsettles => ends_of_settles hd htypes hsettles, pollsUnseen hd htypes hdiffer hw⟩⟩

/-- A provider that is slower by two polls is asked twice more, and everything else is as
before. -/
theorem pollsUnseen_of_steps_delayed :
    ∃ p, (plainPlan true [] ["x"] false).compile = .ok p ∧
      Run.polls p (plainTypes true) () 26 = 0 ∧
      Run.polls p ((plainTypes true).delayed fun _ => 2) ((), 0) 28 = 2 ∧
      Run.SameButPolls p (plainTypes true) ((plainTypes true).delayed fun _ => 2)
        (fun w w' => w' = (w, 0)) (Run.fresh ()) (Run.fresh ((), 0)) 26 28 := by
  obtain ⟨-, c, hc, hunseen⟩ :=
    pollsUnseen_of_steps (rfl : (plainPlan true [] ["x"] false).compile = .ok _)
  have htypes : ∀ t ∈ (plainPlan true [] ["x"] false).declaration.catalog.keys,
      t ∈ (plainTypes true).keys := by decide
  have hdistinct : c.Distinct := distinct_of_actions rfl (by decide +kernel) (by decide +kernel)
  obtain ⟨-, hpolls⟩ := hunseen hdistinct (plainTypes true) _ _ htypes
    (Registry.differInPolls_delayed (plainTypes true) fun _ => 2) () ((), 0) rfl
  exact ⟨_, rfl, by decide +kernel, by decide +kernel,
    hpolls.same 26 28 (by decide +kernel) (by decide +kernel)⟩

end Compilation

end Provisioning
