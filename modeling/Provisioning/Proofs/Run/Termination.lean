/-
Runs end.

A place says how far a run has come: how many calls are made, whether the call in progress
has jumped, and how many instructions of its body are executed.  `rank` puts these numbers in
lexicographic order.  A step that does not wait leads to a higher rank, for a jump leads from
a routine of a phase to a branch and a branch jumps nowhere, and a return raises the number of
calls.  The program counter tells the rank, since bodies do not overlap and every call of the
schedule is of another routine.  So no instruction is completed twice, and a run makes no more
steps than the program has instructions and checks were left waiting.

A check that waits leaves the memory as it is, so it asks the same again.  If no question is
answered with "not yet" for ever, the checks that wait run out as well, and the run ends.
-/
import Mathlib.Data.Finset.Card
import Mathlib.Data.Prod.Lex
import Mathlib.Data.Set.Finite.Lattice
import Provisioning.Proofs.Run.Course
import Provisioning.Proofs.Run.Budget

namespace Provisioning

/-! ### Questions that are asked again -/

namespace Staged

variable {W : Type} {s : Staged W} {rom : Rom} {m : Memory} {w : W} {es : List Exchange}
  {o : Outcome (W × List Exchange)}

/-- An operation waits because it is told that something is not complete yet. -/
inductive Awaits (s : Staged W) (m : Memory) (w : W) : List Exchange → Prop
  | change {c : Change} {p : Provider W} {w' : W} : s.op = .check c → s.provider = .ok p →
    p.ask (m.remoteId s.name) (.complete c) w = (.ok false, w') →
    Awaits s m w [⟨s.typeId, m.remoteId s.name, .complete c, .ok false⟩]
  | delete {p : Provider W} {w' : W} : s.op = .checkDelete → s.provider = .ok p →
    p.ask (m.remoteId s.name) .deleteComplete w = (.ok false, w') →
    Awaits s m w [⟨s.typeId, m.remoteId s.name, .deleteComplete, .ok false⟩]

/-- While the memory stays as it is, the same is said. -/
theorem Awaits.unique (h : s.Awaits m w es) {w' : W} {es' : List Exchange}
    (h' : s.Awaits m w' es') : es = es' := by
  cases h with
  | change hop =>
    cases h' with
    | change hop' =>
      obtain rfl := ResourceOp.check_inj (hop.symm.trans hop')
      rfl
    | delete hop' => simp [hop', ResourceOp.eq_check_iff] at hop
  | delete hop =>
    cases h' with
    | delete => rfl
    | change hop' => simp [hop, ResourceOp.eq_check_iff] at hop'

theorem storeOutputs_ne_stay {p : Provider (W × List Exchange)} {w : W × List Exchange} :
    (s.recorded.storeOutputs p m w).flow ≠ .ok .stay := by
  unfold storeOutputs
  split <;> exact nofun

theorem awaits_checkChange {c : Change} (hop : s.op = .check c)
    (ho : s.recorded.checkChange c m (w, []) = o) (h : o.flow = .ok .stay) :
    s.Awaits m w o.world.2 := by
  unfold checkChange at ho
  split at ho
  · subst ho
    cases h
  · next p' hprovider =>
    obtain ⟨p, hp, rfl⟩ := exists_provider hprovider
    split at ho
    · subst ho
      cases h
    · next complete w' hask =>
      obtain ⟨w₁, hcomplete, rfl⟩ := answered hask
      dsimp only at ho
      split at ho
      · subst ho
        exact absurd h storeOutputs_ne_stay
      · next hfalse =>
        obtain rfl : complete = false := Bool.eq_false_iff.2 hfalse
        subst ho
        exact .change hop hp hcomplete

theorem awaits_checkDelete (hop : s.op = .checkDelete)
    (ho : s.recorded.checkDelete m (w, []) = o) (h : o.flow = .ok .stay) :
    s.Awaits m w o.world.2 := by
  unfold checkDelete at ho
  split at ho
  · subst ho
    cases h
  · next p' hprovider =>
    obtain ⟨p, hp, rfl⟩ := exists_provider hprovider
    split at ho
    · subst ho
      cases h
    · next complete w' hask =>
      obtain ⟨w₁, hcomplete, rfl⟩ := answered hask
      dsimp only at ho
      split at ho
      · subst ho
        cases h
      · next hfalse =>
        obtain rfl : complete = false := Bool.eq_false_iff.2 hfalse
        subst ho
        exact .delete hop hp hcomplete

/-- **An operation that waits is told that something is not complete yet.** -/
theorem awaits (ho : s.recorded.perform rom m (w, []) = o) (h : o.flow = .ok .stay) :
    s.Awaits m w o.world.2 := by
  have hwaits : s.op.waits = true := by
    have hbehaves := behaves_perform s.recorded rom m (w, [])
    rw [ho] at hbehaves
    exact (hbehaves.stay h).1
  unfold perform at ho
  rw [op_recorded] at ho
  split at ho
  · next hop => exact absurd (hop ▸ hwaits) nofun
  · next hop => exact absurd (hop ▸ hwaits) nofun
  · next hop => exact absurd (hop ▸ hwaits) nofun
  · next hop => exact absurd (hop ▸ hwaits) nofun
  · next hop => exact awaits_checkChange (c := .create) hop ho h
  · next hop => exact awaits_checkChange (c := .update) hop ho h
  · next hop => exact awaits_checkDelete hop ho h
  · next hop => exact absurd (hop ▸ hwaits) nofun
  · next hop => exact absurd (hop ▸ hwaits) nofun
  · next hop => exact absurd (hop ▸ hwaits) nofun
  · next hop => exact absurd (hop ▸ hwaits) nofun

end Staged

/-! ### Ranks -/

namespace Place

/-- What a place is in the middle of: a routine that was jumped to lies behind the one of its
phase. -/
def depth : Place → Nat
  | .start => 0
  | .driver _ => 1
  | .routine _ _ r _ _ _ => if r ∈ Routine.entries then 2 else 3
  | .halted => 4

/-- How many instructions of the routine are executed. -/
def done : Place → Nat
  | .routine _ _ _ before _ _ => before.length
  | .start | .driver _ | .halted => 0

end Place

/-- A routine of a phase jumps to branches, and a branch jumps nowhere. -/
theorem Routine.entry_of_target {createMissing : Bool} {routine target : Routine}
    (h : target ∈ routine.targets createMissing) :
    routine ∈ Routine.entries ∧ target ∉ Routine.entries := by
  revert target
  cases routine <;> cases createMissing <;> decide

namespace Compilation

variable {plan : Plan} {W : Type} {c : Compilation plan} {types : Registry W} {w : W}
  {place place' : Place} {r r' : Run W}

/-- How far a run has come at a place. -/
def rank (c : Compilation plan) (place : Place) : Nat ×ₗ Nat ×ₗ Nat :=
  toLex (c.calls place, toLex (place.depth, place.done))

theorem rank_lt_of_calls (h : c.calls place < c.calls place') : c.rank place < c.rank place' :=
  Prod.Lex.toLex_lt_toLex.2 (.inl h)

theorem rank_lt_of_depth (hcalls : c.calls place = c.calls place')
    (h : place.depth < place'.depth) : c.rank place < c.rank place' :=
  Prod.Lex.toLex_lt_toLex.2 (.inr ⟨hcalls, Prod.Lex.toLex_lt_toLex.2 (.inl h)⟩)

theorem rank_lt_of_done (hcalls : c.calls place = c.calls place')
    (hdepth : place.depth = place'.depth) (h : place.done < place'.done) :
    c.rank place < c.rank place' :=
  Prod.Lex.toLex_lt_toLex.2 (.inr ⟨hcalls, Prod.Lex.toLex_lt_toLex.2 (.inr ⟨hdepth, h⟩)⟩)

/-- **A step leads to a higher rank, unless it waits.** -/
theorem Executes.rank_lt (h : c.Executes types r place place' r') :
    (r'.waiting = false ∧ c.rank place < c.rank place') ∨
      (r'.waiting = true ∧ place' = place ∧ r'.memory = r.memory) := by
  cases h with
  | init => exact .inl ⟨rfl, rank_lt_of_depth rfl Nat.zero_lt_one⟩
  | @call _ _ ra phase =>
    have hentry := Routine.forPhase_mem_entries ra.2 phase
    exact .inl ⟨rfl, rank_lt_of_depth rfl (by simp [Place.depth, hentry])⟩
  | halt => exact .inl ⟨rfl, rank_lt_of_depth rfl (by simp [Place.depth])⟩
  | next => exact .inl ⟨rfl, rank_lt_of_done rfl rfl (by simp [Place.done])⟩
  | jump hroutine =>
    obtain ⟨hentry, hbranch⟩ := Routine.entry_of_target (target_of_gotoIf hroutine)
    refine .inl ⟨rfl, rank_lt_of_depth rfl ?_⟩
    simp [Place.depth, hentry, hbranch]
  | ret => exact .inl ⟨rfl, rank_lt_of_calls (Nat.lt_succ_self _)⟩
  | wait => exact .inr ⟨rfl, rfl, rfl⟩

/-! ### Program counters -/

section

variable {m m' : Memory}

/-- In a routine the counter points into the body, which lies behind the driver. -/
theorem InRoutine.counter {k : Nat} {ra : Resource × Action} {routine : Routine}
    {before rest : List Instruction} {K : Known}
    (h : c.InRoutine k ra routine before rest K m) :
    ∃ e ∈ c.layout.placed, e.1 = ra.1.piece plan.createMissing routine ∧
      c.layout.driver.length ≤ m.programCounter ∧
      m.programCounter = e.2 + before.length ∧ before.length < e.1.size := by
  obtain ⟨start, hstart, hcounter⟩ := h.programCounter
  have hdriver : c.layout.driver.length ≤ start := Layout.le_of_placedFrom hstart
  have hsize : before.length < (ra.1.piece plan.createMissing routine).size := by
    rw [← Layout.length_body, h.body, List.length_append]
    cases hrest : rest with
    | nil =>
      have hchecked := h.checked
      rw [hrest] at hchecked
      cases hchecked
    | cons => simp
  refine ⟨_, hstart, rfl, ?_, hcounter, hsize⟩
  rw [hcounter]
  exact Nat.le_add_right_of_le hdriver

theorem InDriver.counter (hd : c.Distinct) {k : Nat} (h : c.InDriver k m) :
    m.programCounter = k + 1 ∧ m.programCounter < c.layout.driver.length := by
  have hle := h.le
  have hcounter := h.programCounter
  have hlength := length_driver hd.keys
  omega

/-- The counter tells in which routine a memory stands, and how far in it. -/
theorem eq_of_counter {k k' : Nat} {ra ra' : Resource × Action} {routine routine' : Routine}
    {before rest before' rest' : List Instruction} {K K' : Known}
    (h : c.InRoutine k ra routine before rest K m)
    (h' : c.InRoutine k' ra' routine' before' rest' K' m')
    (heq : m.programCounter = m'.programCounter) :
    k = k' ∧ routine = routine' ∧ before.length = before'.length := by
  obtain ⟨e, he, hpiece, -, hcounter, hsize⟩ := h.counter
  obtain ⟨e', he', hpiece', -, hcounter', hsize'⟩ := h'.counter
  obtain rfl : e = e' := Layout.eq_of_place he he' (i := m.programCounter) (by omega) (by omega)
  have hsame := hpiece.symm.trans hpiece'
  obtain rfl : routine = routine' := congrArg Subroutine.routine hsame
  have hname : ra.1.name = ra'.1.name := congrArg Subroutine.owner hsame
  refine ⟨?_, rfl, by omega⟩
  -- Every call of the schedule is of another phase of a name.
  have hk := h.scheduled
  rw [hname, ← h'.scheduled] at hk
  have hlt := (List.getElem?_eq_some_iff.1 h.scheduled).1
  exact (List.getElem?_inj hlt c.nodup_schedule).1 hk

theorem counter_of_stands (hd : c.Distinct) (h : c.Stands m place) (hended : m.ended = false) :
    (place = .start ∧ m.programCounter = 0) ∨
      (∃ k, place = .driver k ∧ m.programCounter = k + 1 ∧
        m.programCounter < c.layout.driver.length) ∨
      ∃ k ra routine before rest K, place = .routine k ra routine before rest K ∧
        c.layout.driver.length ≤ m.programCounter ∧
        c.InRoutine k ra routine before rest K m := by
  cases place with
  | start =>
    obtain rfl : m = Memory.fresh := h
    exact .inl ⟨rfl, rfl⟩
  | driver k =>
    have hdriver : c.InDriver k m := h
    exact .inr (.inl ⟨k, rfl, hdriver.counter hd⟩)
  | routine k ra routine before rest K =>
    have hroutine : c.InRoutine k ra routine before rest K m := h
    obtain ⟨_, -, -, hle, -⟩ := hroutine.counter
    exact .inr (.inr ⟨k, ra, routine, before, rest, K, rfl, hle, hroutine⟩)
  | halted =>
    have hhalted : m.ended = true ∧ _ := h
    rw [hhalted.1] at hended
    cases hended

/-- **The counter tells the rank, before the end of the program.** -/
theorem rank_eq_of_counter (hd : c.Distinct) (h : c.Stands m place) (h' : c.Stands m' place')
    (hended : m.ended = false) (hended' : m'.ended = false)
    (heq : m.programCounter = m'.programCounter) : c.rank place = c.rank place' := by
  have hlength := length_driver hd.keys
  rcases counter_of_stands hd h hended with ⟨rfl, hm⟩ | ⟨k, rfl, hm, hlt⟩ |
      ⟨k, ra, routine, before, rest, K, rfl, hle, hroutine⟩
  all_goals
    rcases counter_of_stands hd h' hended' with ⟨rfl, hm'⟩ | ⟨k', rfl, hm', hlt'⟩ |
      ⟨k', ra', routine', before', rest', K', rfl, hle', hroutine'⟩
  · rfl
  · omega
  · omega
  · omega
  · obtain rfl : k = k' := by omega
    rfl
  · omega
  · omega
  · omega
  · obtain ⟨rfl, rfl, hbefore⟩ := eq_of_counter hroutine hroutine' heq
    simp [rank, calls, Place.depth, Place.done, hbefore]

end

theorem halted_of_ended {m : Memory} (h : c.Stands m place) (hended : m.ended = true) :
    place = .halted := by
  cases place with
  | start =>
    obtain rfl : m = Memory.fresh := h
    cases hended
  | driver k =>
    have hdriver : c.InDriver k m := h
    exact absurd (hdriver.ended.symm.trans hended) nofun
  | routine k ra routine before rest K =>
    have hroutine : c.InRoutine k ra routine before rest K m := h
    exact absurd (hroutine.ended.symm.trans hended) nofun
  | halted => rfl

/-! ### No instruction is completed twice -/

section

variable {n n' t t' : Nat}

theorem Reaches.rank_eq (hd : c.Distinct) (h : c.Reaches types w n place)
    (h' : c.Reaches types w n place') : c.rank place = c.rank place' := by
  cases hended : (c.after types w n).memory.ended with
  | false => exact rank_eq_of_counter hd h.stands.1 h'.stands.1 hended hended rfl
  | true => rw [halted_of_ended h.stands.1 hended, halted_of_ended h'.stands.1 hended]

theorem Reaches.rank_le (hd : c.Distinct) (h : c.Reaches types w n place)
    (h' : c.Reaches types w n' place') (hn : n ≤ n') : c.rank place ≤ c.rank place' := by
  induction h' with
  | start =>
    obtain rfl : n = 0 := Nat.le_zero.1 hn
    exact (h.rank_eq hd .start).le
  | @step t p p' hreaches hadvances ih =>
    rcases Nat.lt_or_eq_of_le hn with hlt | rfl
    · refine (ih (Nat.le_of_lt_succ hlt)).trans ?_
      rcases hadvances.executes.rank_lt with ⟨-, hrank⟩ | ⟨-, rfl, -⟩
      · exact hrank.le
      · exact le_refl _
    · exact (h.rank_eq hd (.step hreaches hadvances)).le

theorem Reaches.rank_lt (hd : c.Distinct) (h : c.Reaches types w t place)
    (h' : c.Reaches types w t' place') (ht : t < t')
    (hmoves : (c.after types w t).stays c.program types = false) :
    c.rank place < c.rank place' := by
  obtain ⟨p, p', hreaches, hadvances⟩ := h'.earlier ht
  have hwaiting : (c.after types w (t + 1)).waiting = false := by
    rw [after_succ, Run.waiting_step (hadvances.not_ended hd), hmoves]
  rcases hadvances.executes.rank_lt with ⟨-, hrank⟩ | ⟨hwaits, -, -⟩
  · calc c.rank place = c.rank p := h.rank_eq hd hreaches
      _ < c.rank p' := hrank
      _ ≤ c.rank place' := (hreaches.step hadvances).rank_le hd h' ht
  · rw [hwaits] at hwaiting
    cases hwaiting

/-- Steps that have the counter in one place do not come one after the other, if the first is
completed. -/
theorem counter_ne_of_lt (hd : c.Distinct)
    (htypes : ∀ t ∈ plan.declaration.catalog.keys, t ∈ types.keys) (ht : t < t')
    (hrunning : (c.after types w t').ended c.program = false)
    (hmoves : (c.after types w t).stays c.program types = false) :
    (c.after types w t).memory.programCounter ≠ (c.after types w t').memory.programCounter := by
  intro heq
  obtain ⟨place', hreaches'⟩ := exists_reaches hd htypes hrunning
  obtain ⟨place, _, hreaches, hadvances⟩ := hreaches'.earlier ht
  have hrank := rank_eq_of_counter hd hreaches.stands.1 hreaches'.stands.1
    (Run.unended_of_running (hadvances.not_ended hd)) (Run.unended_of_running hrunning) heq
  exact absurd hrank (hreaches.rank_lt hd hreaches' ht hmoves).ne

end

/-! ### The number of steps -/

theorem counter_injOn (hd : c.Distinct)
    (htypes : ∀ t ∈ plan.declaration.catalog.keys, t ∈ types.keys) :
    Set.InjOn (fun t => (c.after types w t).memory.programCounter)
      {t | (c.after types w t).ended c.program = false ∧
        (c.after types w t).stays c.program types = false} := by
  rintro t ⟨hrunning, hmoves⟩ t' ⟨hrunning', hmoves'⟩ heq
  rcases Nat.lt_trichotomy t t' with hlt | rfl | hlt
  · exact absurd heq (counter_ne_of_lt hd htypes hlt hrunning' hmoves)
  · rfl
  · exact absurd heq.symm (counter_ne_of_lt hd htypes hlt hrunning hmoves')

theorem counter_lt {n : Nat} (h : (c.after types w n).ended c.program = false) :
    (c.after types w n).memory.programCounter < c.program.size := by
  obtain ⟨i, hi⟩ := Run.exists_instruction h
  exact (List.getElem?_eq_some_iff.1 hi).1

/-- **A run makes no more steps than the program has instructions and checks are left
waiting.** -/
theorem le_size_add_polls (hd : c.Distinct)
    (htypes : ∀ t ∈ plan.declaration.catalog.keys, t ∈ types.keys) {n : Nat}
    (hrunning : ∀ t < n, (c.after types w t).ended c.program = false) :
    n ≤ c.program.size + Run.polls c.program types w n := by
  let stays : Nat → Prop := fun t => (c.after types w t).stays c.program types = true
  have hmoving : ((Finset.range n).filter fun t => ¬ stays t).card ≤ c.program.size := by
    rw [← Finset.card_range c.program.size]
    refine Finset.card_le_card_of_injOn
      (fun t => (c.after types w t).memory.programCounter) ?_ ?_
    · intro t ht
      have ht := (Finset.mem_filter.1 ht).1
      exact Finset.mem_coe.2 (Finset.mem_range.2 (counter_lt (hrunning t (Finset.mem_range.1 ht))))
    · refine (counter_injOn hd htypes).mono fun t ht => ?_
      obtain ⟨ht, hmoves⟩ := Finset.mem_filter.1 ht
      exact ⟨hrunning t (Finset.mem_range.1 ht), Bool.eq_false_iff.2 hmoves⟩
  calc n = (Finset.range n).card := (Finset.card_range n).symm
    _ = ((Finset.range n).filter stays).card + ((Finset.range n).filter fun t => ¬ stays t).card :=
      (Finset.card_filter_add_card_filter_not _).symm
    _ ≤ c.program.size + Run.polls c.program types w n := by
      rw [Nat.add_comm]
      exact Nat.add_le_add_right hmoving _

/-! ### Checks that wait -/

/-- A step that stays leaves everything but the log and the world as it is, and is told that
something is not complete yet. -/
theorem awaits_of_stays (hd : c.Distinct)
    (htypes : ∀ t ∈ plan.declaration.catalog.keys, t ∈ types.keys) {n : Nat}
    (h : (c.after types w n).stays c.program types = true) :
    ∃ s : Staged W, c.program.instructions[(c.after types w n).memory.programCounter]? =
        some (.resource s.op) ∧
      Staged.ofMemory types s.op (c.after types w n).memory = .ok s ∧
      s.Awaits (c.after types w n).memory (c.after types w n).world
        (Run.exchanges c.program types (c.after types w n)) ∧
      (c.after types w (n + 1)).memory = (c.after types w n).memory := by
  have hrunning := Run.running_of_stays h
  obtain ⟨i, hi⟩ := Run.exists_instruction hrunning
  have hstay := (Run.stays_of_instruction hrunning hi).1 h
  obtain ⟨op, rfl⟩ := Run.op_of_stay hstay
  obtain ⟨place, hreaches⟩ := exists_reaches hd htypes hrunning
  obtain ⟨k, ra, routine, before, rest, K, s, rfl, rfl, hfaces⟩ :=
    faces_of_instruction hd htypes hreaches.stands.1 hrunning hi
  rw [execute_of_faces hfaces] at hstay
  refine ⟨s, hi, hfaces.staged, ?_, ?_⟩
  · rw [exchanges_of_faces hfaces hrunning]
    refine Staged.awaits rfl ?_
    have hforget := (s.records_perform c.program.tables.rom (c.after types w n).memory
      ((c.after types w n).world, [])).forget
    rw [← hforget] at hstay
    exact hstay
  · have hmemory := ((s.behaves_perform c.program.tables.rom (c.after types w n).memory
      (c.after types w n).world).stay hstay).2
    rw [after_succ, Run.step_of_instruction hrunning hi, execute_of_faces hfaces]
    generalize s.perform _ _ _ = o at hstay hmemory ⊢
    obtain ⟨flow, m, w'⟩ := o
    obtain rfl : flow = .ok .stay := hstay
    exact hmemory

/-- While a run only waits, it is told the same. -/
theorem exchanges_eq_of_stays (hd : c.Distinct)
    (htypes : ∀ t ∈ plan.declaration.catalog.keys, t ∈ types.keys) {n n' : Nat}
    (h : (c.after types w n).stays c.program types = true)
    (h' : (c.after types w n').stays c.program types = true)
    (hmemory : (c.after types w n').memory = (c.after types w n).memory) :
    Run.exchanges c.program types (c.after types w n') =
      Run.exchanges c.program types (c.after types w n) := by
  obtain ⟨s, hi, hstaged, hawaits, -⟩ := awaits_of_stays hd htypes h
  obtain ⟨s', hi', hstaged', hawaits', -⟩ := awaits_of_stays hd htypes h'
  rw [hmemory] at hi' hstaged' hawaits'
  have hop : s'.op = s.op := by
    have hsame := Option.some.inj (hi'.symm.trans hi)
    exact Instruction.resource.inj hsame
  rw [hop] at hstaged'
  obtain rfl : s' = s := Except.ok.inj (hstaged'.symm.trans hstaged)
  exact hawaits'.unique hawaits

end Compilation

/-- In step `t` of a run the instruction at `i` is completed: it is carried out, and control
does not stay with it. -/
structure Completes {W : Type} (p : Program) (types : Registry W) (w : W) (t i : Nat) : Prop where
  running : (Run.steps p types t (Run.fresh w)).ended p = false
  counter : (Run.steps p types t (Run.fresh w)).memory.programCounter = i
  moves : (Run.steps p types t (Run.fresh w)).stays p types = false

/-- Whether a request is made to change what is there. -/
def Request.changes : Request → Bool
  | .create _ | .update _ | .delete => true
  | .read _ | .outputs | .found | .complete _ | .deleteComplete => false

/-- No answer that leaves a check waiting is given for ever: what is polled is complete some
time, or the provider refuses. -/
def Settles {W : Type} (p : Program) (types : Registry W) (w : W) : Prop :=
  ∀ t e, (Run.steps p types t (Run.fresh w)).stays p types = true →
    e ∈ Run.exchanges p types (Run.steps p types t (Run.fresh w)) →
      ∃ t' > t, e ∉ Run.exchanges p types (Run.steps p types t' (Run.fresh w))

namespace Compilation

variable {plan : Plan} {W : Type} {c : Compilation plan} {types : Registry W} {w : W}

/-- **A run ends, if no check waits for ever.** -/
theorem ends_of_settles (hd : c.Distinct)
    (htypes : ∀ t ∈ plan.declaration.catalog.keys, t ∈ types.keys)
    (h : Settles c.program types w) : ∃ n, (c.after types w n).ended c.program = true := by
  by_contra hnever
  have hrunning : ∀ n, (c.after types w n).ended c.program = false := fun n =>
    Bool.eq_false_iff.2 fun hended => hnever ⟨n, hended⟩
  -- Only finitely many steps are completed, so behind some step all others wait.
  obtain ⟨last, hlast⟩ : ∃ last, ∀ t > last, (c.after types w t).stays c.program types = true := by
    have hfinite : Set.Finite {t | (c.after types w t).ended c.program = false ∧
        (c.after types w t).stays c.program types = false} := by
      refine Set.Finite.of_injOn (t := ↑(Finset.range c.program.size)) ?_ (counter_injOn hd htypes)
        (Finset.finite_toSet _)
      intro t ht
      exact Finset.mem_coe.2 (Finset.mem_range.2 (counter_lt ht.1))
    obtain ⟨last, hlast⟩ := hfinite.bddAbove
    refine ⟨last, fun t ht => ?_⟩
    by_contra hmoves
    exact absurd (hlast ⟨hrunning t, Bool.eq_false_iff.2 hmoves⟩) (Nat.not_le.2 ht)
  have hmemory : ∀ d, (c.after types w (last + 1 + d)).memory =
      (c.after types w (last + 1)).memory := by
    intro d
    induction d with
    | zero => rfl
    | succ d ih =>
      obtain ⟨_, -, -, -, hstep⟩ := awaits_of_stays hd htypes (hlast (last + 1 + d) (by omega))
      exact hstep.trans ih
  have hstays := hlast (last + 1) (Nat.lt_succ_self _)
  obtain ⟨e, he⟩ : ∃ e, e ∈ Run.exchanges c.program types (c.after types w (last + 1)) := by
    obtain ⟨s, -, -, hawaits, -⟩ := awaits_of_stays hd htypes hstays
    generalize Run.exchanges c.program types (c.after types w (last + 1)) = es at hawaits ⊢
    cases hawaits <;> exact ⟨_, List.mem_cons_self⟩
  obtain ⟨t', ht', hsilent⟩ := h (last + 1) e hstays he
  obtain ⟨d, rfl⟩ := Nat.exists_eq_add_of_lt ht'
  have hsame := exchanges_eq_of_stays hd htypes hstays (hlast (last + 1 + (d + 1)) (by omega))
    (hmemory (d + 1))
  refine hsilent ?_
  show e ∈ Run.exchanges c.program types (c.after types w (last + 1 + (d + 1)))
  rw [hsame]
  exact he

theorem completes_of_changes (hd : c.Distinct)
    (htypes : ∀ t ∈ plan.declaration.catalog.keys, t ∈ types.keys) {t : Nat} {e : Exchange}
    (he : e ∈ Run.exchanges c.program types (c.after types w t))
    (hchanges : e.request.changes = true) :
    Completes c.program types w t (c.after types w t).memory.programCounter := by
  refine ⟨?_, rfl, ?_⟩
  · by_contra hended
    rw [Run.exchanges_of_ended (Bool.not_eq_false _ ▸ hended)] at he
    cases he
  · by_contra hstays
    obtain ⟨s, -, -, hawaits, -⟩ := awaits_of_stays hd htypes (Bool.not_eq_false _ ▸ hstays)
    generalize Run.exchanges c.program types (c.after types w t) = es at hawaits he
    cases hawaits with
    | change | delete =>
      obtain rfl := List.mem_singleton.1 he
      cases hchanges

theorem eq_of_completes (hd : c.Distinct)
    (htypes : ∀ t ∈ plan.declaration.catalog.keys, t ∈ types.keys) {t t' i : Nat}
    (h : Completes c.program types w t i) (h' : Completes c.program types w t' i) : t = t' :=
  counter_injOn hd htypes ⟨h.running, h.moves⟩ ⟨h'.running, h'.moves⟩
    (h.counter.trans h'.counter.symm)

/-- **Compiled programs terminate.**  No instruction is completed twice, so a run makes no more
steps than the program has instructions and checks are left waiting, and makes each change
once; and it ends if no check waits for ever. -/
theorem halts_of_steps {p : Program} (h : plan.compile = .ok p) :
    ∃ c : Compilation plan, c.program = p ∧ (c.Distinct → ∀ {W : Type} (types : Registry W),
      (∀ t ∈ plan.declaration.catalog.keys, t ∈ types.keys) → ∀ w : W,
        (∀ i t t', Completes p types w t i → Completes p types w t' i → t = t') ∧
        (∀ n, (∀ t < n, (Run.steps p types t (Run.fresh w)).ended p = false) →
          n ≤ p.size + Run.polls p types w n) ∧
        (∀ t t' e e', e ∈ Run.exchanges p types (Run.steps p types t (Run.fresh w)) →
          e.request.changes = true →
          e' ∈ Run.exchanges p types (Run.steps p types t' (Run.fresh w)) →
          e'.request.changes = true →
          (Run.steps p types t (Run.fresh w)).memory.programCounter =
            (Run.steps p types t' (Run.fresh w)).memory.programCounter → t = t') ∧
        (∀ e : Engine W, e.program = p → e.registry = types → ∀ budget,
          (e.run budget (Run.fresh w)).summary.steps ≤
            p.size + (e.run budget (Run.fresh w)).summary.polls) ∧
        (Settles p types w → ∃ n, (Run.steps p types n (Run.fresh w)).ended p = true ∧
          ∀ e : Engine W, e.program = p → e.registry = types → ∀ budget ≥ n,
            (e.run budget (Run.fresh w)).summary.outcome ≠ .paused)) := by
  obtain ⟨c, rfl⟩ := compile_eq_ok.1 h
  refine ⟨c, rfl, fun hd W types htypes w => ⟨?_, ?_, ?_, ?_, ?_⟩⟩
  · exact fun i t t' hcompletes hcompletes' => eq_of_completes hd htypes hcompletes hcompletes'
  · exact fun n hrunning => le_size_add_polls hd htypes hrunning
  · intro t t' e e' he hchanges he' hchanges' heq
    refine eq_of_completes hd htypes (completes_of_changes hd htypes he hchanges) ?_
    rw [show (c.after types w t).memory.programCounter = _ from heq]
    exact completes_of_changes hd htypes he' hchanges'
  · rintro e hprogram rfl budget
    obtain ⟨n, -, hrunning, -, hsteps, hpolls, -⟩ := e.drive_counts w budget
    rw [hprogram] at hrunning hpolls
    show (e.drive budget _).summary.steps ≤ c.program.size + (e.drive budget _).summary.polls
    rw [hsteps, hpolls]
    exact le_size_add_polls hd htypes hrunning
  · intro hsettles
    obtain ⟨n, hended⟩ := ends_of_settles hd htypes hsettles
    refine ⟨n, hended, ?_⟩
    rintro e hprogram rfl budget hbudget
    refine e.outcome_ne_paused ?_
    rw [Engine.run_run, hprogram, Run.steps_of_ended_le hended hbudget]
    exact hended

/-- A provider whose work is complete only at the third question. -/
def slowProvider : Provider Nat where
  ask _ request asked := (match request with
    | .create _ => .ok (some (.str "id"))
    | .read _ | .outputs => .ok []
    | .update _ | .delete => .ok ()
    | .found => .ok true
    | .complete _ | .deleteComplete => .ok (decide (2 ≤ asked)),
    match request with
    | .complete _ | .deleteComplete => asked + 1
    | _ => asked)

/-- The one type of plain plans, with a slow provider. -/
def slowTypes : Registry Nat :=
  Table.ofList [("file", ⟨plainSchema true, some slowProvider⟩)]

/-- A run that polls twice, and ends all the same. -/
theorem halts_of_steps_slow :
    ∃ p, (plainPlan true [] ["x"] false).compile = .ok p ∧ Run.polls p slowTypes 0 28 = 2 ∧
      Settles p slowTypes 0 ∧
      ∃ n, (Run.steps p slowTypes n (Run.fresh 0)).ended p = true := by
  obtain ⟨c, hc, hhalts⟩ :=
    halts_of_steps (rfl : (plainPlan true [] ["x"] false).compile = .ok _)
  have htypes : ∀ t ∈ (plainPlan true [] ["x"] false).declaration.catalog.keys,
      t ∈ slowTypes.keys := by decide
  have hdistinct : c.Distinct := distinct_of_actions rfl (by decide +kernel) (by decide +kernel)
  have hsettles : Settles c.program slowTypes 0 := by
    have hended : (c.after slowTypes 0 28).ended c.program = true := by
      unfold after
      rw [hc]
      decide +kernel
    intro t e hstays he
    refine ⟨t + 28, by omega, ?_⟩
    have hlater : (c.after slowTypes 0 (t + 28)).ended c.program = true := by
      unfold after
      rw [Run.steps_of_ended_le hended (Nat.le_add_left 28 t)]
      exact hended
    show e ∉ Run.exchanges c.program slowTypes (c.after slowTypes 0 (t + 28))
    rw [Run.exchanges_of_ended hlater]
    exact List.not_mem_nil
  rw [hc] at hsettles
  refine ⟨_, rfl, by decide +kernel, hsettles, ?_⟩
  obtain ⟨-, -, -, -, hends⟩ := hhalts hdistinct slowTypes htypes 0
  obtain ⟨n, hended, -⟩ := hends hsettles
  exact ⟨n, hended⟩

end Compilation

end Provisioning
