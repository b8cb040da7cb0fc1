/-
The law of the log.

At every step of a run, what is told of a resource with its polls merged begins a word of
the action that is planned for it: any of them while nothing is decided, and the word of the
decision from then on.  A run that ends without a fault has told the whole word.

The proof follows what is achieved.  An operation that is done moves the run, and is then
achieved and told.  One that waits is told, and as the memory stays as it was it is told
again by the next step, which merging undoes; here it matters that no word has the same entry
twice, or the merging could also swallow what is to be told twice.  One that a fault stops is
the last that is told.
-/
import Provisioning.Proofs.Run.Progress

namespace Provisioning

/-- What was told, with its polls merged, is what was done; or it also has the check that the
next step makes again. -/
inductive Accounts (os achieved next : List Operation) : Prop
  | even : mergePolls os = achieved → Accounts os achieved next
  | ahead {o : Operation} : o.isCheck = true → next = [o] → mergePolls os = achieved ++ [o] →
    Accounts os achieved next

/-- The next step tells what it is about to do, and this is not merged into what was done. -/
theorem Accounts.merge {os achieved next : List Operation} (h : Accounts os achieved next)
    (hnext : next = [] ∨ ∃ o, next = [o]) (hnodup : (achieved ++ next).Nodup) :
    mergePolls (os ++ next) = achieved ++ next := by
  rcases hnext with rfl | ⟨o, rfl⟩
  · cases h with
    | even heq =>
      rw [List.append_nil, List.append_nil]
      exact heq
    | ahead _ hnil _ => cases hnil
  · rw [mergePolls_concat]
    cases h with
    | even heq =>
      have hfresh : ¬ (achieved.getLast? = some o ∧ o.isCheck = true) := by
        rintro ⟨hlast, -⟩
        have hmem : o ∈ achieved := List.mem_of_getLast? hlast
        exact (List.nodup_append.1 hnodup).2.2 o hmem o (List.mem_singleton.2 rfl) rfl
      rw [heq, if_neg hfresh]
    | @ahead o' hcheck hnext heq =>
      obtain rfl : o = o' := (List.cons.inj hnext).1
      have hlast : (achieved ++ [o]).getLast? = some o := by simp
      rw [heq, if_pos ⟨hlast, hcheck⟩]

namespace Compilation

variable {plan : Plan} {c : Compilation plan} {ra : Resource × Action} {m : Memory}
  {W : Type} {types : Registry W} {r : Run W}

/-! ### What is told and what is done -/

/-- A memory after `os` was told of a resource: the run stands where just that is achieved,
up to a check that waits, or has stopped. -/
inductive Told (c : Compilation plan) (ra : Resource × Action) (os : List Operation)
    (m : Memory) : Prop
  | running {place : Place} : c.Stands m place → m.error = none →
    Accounts os (c.achieved place ra (m.decisions.get? ra.1.name)) (c.upcoming ra.1.name m) →
    Told c ra os m
  | stopped {f : Fault} : m.error = some f →
    plan.Possible ra (m.decisions.get? ra.1.name) (mergePolls os) → Told c ra os m

theorem told_fresh (c : Compilation plan) (ra : Resource × Action) :
    c.Told ra [] Memory.fresh :=
  .running (show c.Stands Memory.fresh .start from rfl) rfl (.even rfl)

/-- A check that waits is told, and is upcoming again. -/
theorem accounts_of_waited {os achieved : List Operation} {o : Operation} {name : String}
    (haccounts : Accounts os achieved (c.upcoming name m))
    (hmerge : mergePolls (os ++ c.upcoming name m) = achieved ++ c.upcoming name m)
    (hcheck : o.isCheck = true) (ho : Run.upcoming c.program m = [o]) :
    Accounts (os ++ c.upcoming name m) achieved (c.upcoming name m) := by
  by_cases howner : c.layout.owner? m.programCounter = some name
  · have hupcoming : c.upcoming name m = [o] := by
      unfold upcoming
      rw [if_pos howner, ho]
    rw [hupcoming] at hmerge ⊢
    exact .ahead hcheck rfl hmerge
  · have hupcoming : c.upcoming name m = [] := if_neg howner
    rw [hupcoming] at haccounts ⊢
    rw [List.append_nil]
    exact haccounts

theorem told_step (hd : c.Distinct)
    (htypes : ∀ t ∈ plan.declaration.catalog.keys, t ∈ types.keys) (hra : ra ∈ c.actions)
    {os : List Operation} (h : c.Told ra os r.memory) :
    c.Told ra (os ++ c.upcoming ra.1.name r.memory) (r.step c.program types).memory := by
  cases h with
  | @running place hstands herror haccounts =>
    have hpossible := possible_of_stands hd hstands herror hra
    have hmerge := haccounts.merge (c.upcoming_eq _ _) hpossible.nodup
    have hlog : (r.step c.program types).log = _ := Run.log_step r
    rcases step_cases hd htypes hstands herror with ⟨-, hended⟩ | ⟨hplace, hstepped⟩
    · rw [Run.step_of_ended hended, upcoming_of_halted ra.1.name hended, List.append_nil]
      exact .running hstands herror haccounts
    cases hstepped with
    | @moved logged place' hmoves hstands' herror' hlog' hkept =>
      have hlogged : logged = Run.upcoming c.program r.memory :=
        List.append_cancel_left (hlog'.symm.trans hlog)
      have hupcoming : c.upcoming ra.1.name r.memory =
          if place.owner? = some ra.1.name then logged else [] := by
        unfold upcoming
        rw [owner_of_stands hd hstands hplace, hlogged]
      have hachieved := achieved_of_moves hmoves hstands hra (hkept ra.1.name)
      rw [← hupcoming] at hachieved
      exact .running hstands' herror' (.even (hmerge.trans hachieved.symm))
    | @waited op name hwaits hmemory hlog' =>
      have hlogged : [op.record name] = Run.upcoming c.program r.memory :=
        List.append_cancel_left (hlog'.symm.trans hlog)
      have hcheck := isCheck_of_waits hwaits name
      rw [hmemory]
      exact .running hstands herror (accounts_of_waited haccounts hmerge hcheck hlogged.symm)
    | stopped _ hmemory =>
      rw [hmemory]
      refine .stopped rfl ?_
      rw [hmerge]
      exact hpossible
  | stopped herror hpossible =>
    have hended : r.ended c.program = true := ended_of_error herror
    rw [Run.step_of_ended hended, upcoming_of_halted ra.1.name hended, List.append_nil]
    exact .stopped herror hpossible

theorem told_trace_succ (name : String) (n : Nat) :
    c.layout.told name (Run.trace c.program types r (n + 1)) =
      c.layout.told name (Run.trace c.program types r n) ++
        c.upcoming name (Run.steps c.program types n r).memory := by
  rw [Run.trace_succ, Layout.told_append, Layout.told_map]
  rfl

/-- At every step of a run, what its trace tells is done. -/
theorem told_steps (hd : c.Distinct)
    (htypes : ∀ t ∈ plan.declaration.catalog.keys, t ∈ types.keys) (hra : ra ∈ c.actions)
    (w : W) (n : Nat) :
    c.Told ra (c.layout.told ra.1.name (Run.trace c.program types (Run.fresh w) n))
      (Run.steps c.program types n (Run.fresh w)).memory := by
  induction n with
  | zero => exact c.told_fresh ra
  | succ n ih =>
    rw [told_trace_succ, Run.steps_succ]
    exact told_step hd htypes hra ih

/-! ### Decisions -/

theorem kept_step (hd : c.Distinct)
    (htypes : ∀ t ∈ plan.declaration.catalog.keys, t ∈ types.keys) (h : c.OnCourse r.memory)
    {name : String} {d : Decision} (hdecided : r.memory.decisions.get? name = some d) :
    (r.step c.program types).memory.decisions.get? name = some d := by
  cases h with
  | running hstands herror =>
    rcases step_cases hd htypes hstands herror with ⟨-, hended⟩ | ⟨-, hstepped⟩
    · rw [Run.step_of_ended hended]
      exact hdecided
    · cases hstepped with
      | moved _ _ _ _ hkept => exact hkept name d hdecided
      | waited _ hmemory _ =>
        rw [hmemory]
        exact hdecided
      | stopped _ hmemory =>
        rw [hmemory]
        exact hdecided
  | stopped herror _ =>
    rw [Run.step_of_ended (ended_of_error herror)]
    exact hdecided

theorem kept_steps (hd : c.Distinct)
    (htypes : ∀ t ∈ plan.declaration.catalog.keys, t ∈ types.keys) (w : W) {n n' : Nat}
    (hn : n ≤ n') {name : String} {d : Decision}
    (hdecided : (Run.steps c.program types n (Run.fresh w)).memory.decisions.get? name =
      some d) :
    (Run.steps c.program types n' (Run.fresh w)).memory.decisions.get? name = some d := by
  induction n', hn using Nat.le_induction with
  | base => exact hdecided
  | succ n' _ ih =>
    rw [Run.steps_succ]
    exact kept_step hd htypes (onCourse_steps hd htypes w n') ih

/-! ### The law -/

/-- What was done to a resource keeps to the words of its action. -/
structure Abides (c : Compilation plan) (ra : Resource × Action) (os : List Operation)
    (m : Memory) : Prop where
  /-- What was done begins a word of the action. -/
  word : ∃ d ∈ settled plan.createMissing ra.2, os <+: ra.1.word plan.createMissing ra.2 d
  /-- Once something is decided, what was done begins the word of that. -/
  decided : ∀ d, m.decisions.get? ra.1.name = some d →
    some d ∈ settled plan.createMissing ra.2 ∧ os <+: ra.1.word plan.createMissing ra.2 (some d)
  /-- What is gone is only noticed if it is to be created again. -/
  missing : m.decisions.get? ra.1.name = some .missing → plan.createMissing = true
  /-- In a run that has ended without a fault the whole word is done. -/
  completed : m.halted c.program.size = true → m.error = none →
    m.decisions.get? ra.1.name ∈ settled plan.createMissing ra.2 ∧
      os = ra.1.word plan.createMissing ra.2 (m.decisions.get? ra.1.name)

theorem createMissing_of_missing {createMissing : Bool} {action : Action}
    (h : some .missing ∈ settled createMissing action) : createMissing = true := by
  cases action <;> cases createMissing <;> simp [settled] at h ⊢

theorem Told.possible (hd : c.Distinct) (hra : ra ∈ c.actions) {os : List Operation}
    (h : c.Told ra os m) :
    plan.Possible ra (m.decisions.get? ra.1.name) (mergePolls os) := by
  cases h with
  | running hstands herror haccounts =>
    obtain ⟨d, hd, hvd, hprefix⟩ := possible_of_stands hd hstands herror hra
    refine ⟨d, hd, hvd, ?_⟩
    cases haccounts with
    | even heq =>
      rw [heq]
      exact (List.prefix_append _ _).trans hprefix
    | ahead _ hnext heq =>
      rw [heq, ← hnext]
      exact hprefix
  | stopped _ hpossible => exact hpossible

/-- At the end of a run all the work of a resource is done. -/
theorem Told.complete (hd : c.Distinct) (hra : ra ∈ c.actions) {os : List Operation}
    (h : c.Told ra os m) (hhalted : m.halted c.program.size = true) (herror : m.error = none) :
    m.decisions.get? ra.1.name ∈ settled plan.createMissing ra.2 ∧
      mergePolls os = ra.1.word plan.createMissing ra.2 (m.decisions.get? ra.1.name) := by
  cases h with
  | @running place hstands _ haccounts =>
    obtain rfl : place = .halted := by
      by_contra hplace
      rw [running_of_stands hd hstands hplace herror] at hhalted
      cases hhalted
    rw [upcoming_of_halted ra.1.name hhalted] at haccounts
    have hend : m.ended = true ∧ m.callStack = [] ∧ _ := hstands
    have hexpected := hend.2.2 ra hra
    unfold expected at hexpected
    rw [past_length (mem_names_of_mem hra), if_neg (by decide)] at hexpected
    refine ⟨hexpected, ?_⟩
    cases haccounts with
    | even heq =>
      rw [heq, ← finished_length hra]
      exact List.append_nil _
    | ahead _ hnil _ => cases hnil
  | stopped hfault _ =>
    rw [hfault] at herror
    cases herror

theorem abides_of_told (hd : c.Distinct) (hra : ra ∈ c.actions) {os : List Operation}
    (h : c.Told ra os m) : c.Abides ra (mergePolls os) m := by
  have hdecided : ∀ d, m.decisions.get? ra.1.name = some d →
      some d ∈ settled plan.createMissing ra.2 ∧
        mergePolls os <+: ra.1.word plan.createMissing ra.2 (some d) := by
    intro d hdec
    obtain ⟨d', hd', hvd, hprefix⟩ := h.possible hd hra
    rw [hdec] at hvd
    obtain rfl : some d = d' := hvd.resolve_left nofun
    exact ⟨hd', hprefix⟩
  refine ⟨?_, hdecided, fun hmissing => ?_, h.complete hd hra⟩
  · obtain ⟨d, hd, -, hprefix⟩ := h.possible hd hra
    exact ⟨d, hd, hprefix⟩
  · exact createMissing_of_missing (hdecided .missing hmissing).1

/-- **At every step of a run of a compiled program, what its log tells of a resource, with
the polls merged, keeps to the words of the action planned for it; and what is decided about
the resource is never changed.** -/
theorem abides_of_steps {p : Program} (h : plan.compile = .ok p) :
    ∃ c : Compilation plan, c.program = p ∧ (c.Distinct → ∀ {W : Type} (types : Registry W),
      (∀ t ∈ plan.declaration.catalog.keys, t ∈ types.keys) → ∀ (w : W), ∀ ra ∈ c.actions,
        (∀ n, c.Abides ra
          (mergePolls (c.layout.told ra.1.name (Run.trace p types (Run.fresh w) n)))
          (Run.steps p types n (Run.fresh w)).memory) ∧
        ∀ n n' d, n ≤ n' →
          (Run.steps p types n (Run.fresh w)).memory.decisions.get? ra.1.name = some d →
            (Run.steps p types n' (Run.fresh w)).memory.decisions.get? ra.1.name = some d) := by
  obtain ⟨c, rfl⟩ := compile_eq_ok.1 h
  refine ⟨c, rfl, fun hd W types htypes w ra hra => ⟨fun n => ?_, fun n n' d hn hdec => ?_⟩⟩
  · exact abides_of_told hd hra (told_steps hd htypes hra w n)
  · exact kept_steps hd htypes w hn hdec

/-- An update whose run comes to its end: its object is put aside and a new one created, and
at last the old one is deleted. -/
theorem abides_of_steps_plain :
    ∃ p, (plainPlan true ["x", "y"] ["y", "z"] true).compile = .ok p ∧
      ∃ c : Compilation (plainPlan true ["x", "y"] ["y", "z"] true), c.program = p ∧
        (mergePolls (c.layout.told "y"
          (Run.trace p (plainTypes true) (Run.fresh ()) 200))).map Operation.text =
          ["CHECK_EXIST y", "READ y", "RESCMP y", "MARK_DELETABLE y", "CREATE y",
            "CHECK_CREATE y", "DELETE _deletable_y", "CHECK_DELETE _deletable_y"] := by
  obtain ⟨c, hc, hlaw⟩ :=
    abides_of_steps (rfl : (plainPlan true ["x", "y"] ["y", "z"] true).compile = .ok _)
  have htypes : ∀ t ∈ (plainPlan true ["x", "y"] ["y", "z"] true).declaration.catalog.keys,
      t ∈ (plainTypes true).keys := by decide
  have hra : (plainResource true "y", Action.update) ∈ c.actions := by
    rw [Except.ok.inj (c.actions_eq.symm.trans
      (rfl : (plainPlan true ["x", "y"] ["y", "z"] true).actions = .ok _))]
    exact List.mem_cons_of_mem _ List.mem_cons_self
  refine ⟨_, rfl, c, hc, ?_⟩
  have habides := (hlaw c.distinct_plain (plainTypes true) htypes () _ hra).1 200
  have hcompleted := (habides.completed (by rw [hc]; decide +kernel) (by decide +kernel)).2
  refine (congrArg (List.map Operation.text) hcompleted).trans ?_
  decide +kernel

end Compilation

end Provisioning
