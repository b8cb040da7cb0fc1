/-
The order in which resources are handled.

The graph decides the schedule, and the schedule the run.  Where the first instruction of a
routine of a phase is executed, the driver has just called it, so every earlier entry of the
schedule has returned: what a node depends on is started and checked before the node starts,
and what depends on a node is through with its commit and its finish before the node commits.
Between the two halves the whole schedule turns round, so nothing is committed before all is
checked.

Every node of the graph has its four entries in the schedule, each once.  So a run that comes
to its end has begun and finished every phase of every node, and none of them twice.
-/
import Provisioning.Proofs.Run.Deferral
import Provisioning.Proofs.Run.Termination

namespace Provisioning

/-- In step `t` of a run the first instruction behind a label is executed. -/
structure Enters {W : Type} (p : Program) (types : Registry W) (w : W) (t : Nat)
    (label : String) : Prop where
  running : (Run.steps p types t (Run.fresh w)).ended p = false
  lands : p.label label = .ok (Run.steps p types t (Run.fresh w)).memory.programCounter

namespace Compilation

variable {plan : Plan} {W : Type}

/-- In step `t` the routine of a node for a phase begins. -/
def Begins (c : Compilation plan) (types : Registry W) (w : W) (t : Nat) (n : String)
    (phase : Phase) : Prop :=
  ∃ ra ∈ c.actions, ra.1.name = n ∧
    Enters c.program types w t ((Routine.forPhase ra.2 phase).label n)

/-- By step `t` the routine of a node for a phase has returned. -/
def Over (c : Compilation plan) (types : Registry W) (w : W) (t : Nat) (n : String)
    (phase : Phase) : Prop :=
  ∃ ra ∈ c.actions, ra.1.name = n ∧
    Returned c.program types w t ((Routine.forPhase ra.2 phase).label n)

/-- A run goes through the nodes of the graph as their dependencies demand. -/
structure InGraphOrder (c : Compilation plan) (types : Registry W) (w : W) : Prop where
  /-- What a node depends on is started and checked before the node starts. -/
  forward : ∀ n d, plan.DependsOn n d → d ≠ n → ∀ t, c.Begins types w t n .start →
    c.Over types w t d .start ∧ c.Over types w t d .check
  /-- What depends on a node is committed and finished before the node commits. -/
  backward : ∀ n d, plan.DependsOn n d → d ≠ n → ∀ t, c.Begins types w t d .commit →
    c.Over types w t n .commit ∧ c.Over types w t n .finish
  /-- Nothing is committed or finished before all is started and checked. -/
  turn : ∀ n phase t, phase ∈ Phase.backward → c.Begins types w t n phase →
    ∀ m ∈ plan.dependencies.nodes, ∀ phase' ∈ Phase.forward, c.Over types w t m phase'
  /-- No phase of a node begins twice. -/
  once : ∀ n phase t t', c.Begins types w t n phase → c.Begins types w t' n phase → t = t'
  /-- A run that ends without a fault has been through every phase of every node. -/
  all : ∀ t, (Run.steps c.program types t (Run.fresh w)).ended c.program = true →
    (Run.steps c.program types t (Run.fresh w)).memory.error = none →
      ∀ n ∈ plan.dependencies.nodes, ∀ phase,
        (∃ t' < t, c.Begins types w t' n phase) ∧ c.Over types w t n phase

section

variable {c : Compilation plan} {types : Registry W} {w : W} {t : Nat} {n : String}
  {phase : Phase}

theorem mem_nodes_iff : n ∈ plan.dependencies.nodes ↔ n ∈ c.names :=
  (Dependencies.levels_perm c.levels_eq).mem_iff.symm.trans c.levels_perm_names.mem_iff

theorem Begins.completes (hd : c.Distinct) (h : c.Begins types w t n phase) :
    ∃ ra ∈ c.actions, ra.1.name = n ∧ ∃ start,
      (ra.1.piece plan.createMissing (Routine.forPhase ra.2 phase), start) ∈ c.layout.placed ∧
      c.program.label ((Routine.forPhase ra.2 phase).label n) = .ok start ∧
      Completes c.program types w t start := by
  obtain ⟨ra, hra, rfl, hrunning, hlands⟩ := h
  obtain ⟨start, hstart, hlabel⟩ :=
    label_eq hd hra (phase_mem_routines ra.2 plan.createMissing phase)
  have hcounter : (c.after types w t).memory.programCounter = start :=
    Except.ok.inj (hlands.symm.trans hlabel)
  have hi : c.program.instructions[(c.after types w t).memory.programCounter]? = some .clear := by
    rw [hcounter]
    exact (Layout.body_closed hstart).1
  refine ⟨ra, hra, rfl, start, hstart, hlabel, hrunning, hcounter, ?_⟩
  by_contra hstays
  obtain ⟨op, hop⟩ := Run.op_of_stay
    ((Run.stays_of_instruction hrunning hi).1 (Bool.not_eq_false _ ▸ hstays))
  cases hop

/-- Where a phase of a node begins, the driver has just called its routine. -/
theorem Begins.reaches (hd : c.Distinct)
    (htypes : ∀ t ∈ plan.declaration.catalog.keys, t ∈ types.keys)
    (h : c.Begins types w t n phase) :
    ∃ place, c.Reaches types w t place ∧ place ≠ .start ∧
      c.schedule[c.calls place]? = some (n, phase) := by
  obtain ⟨ra, hra, rfl, start, hstart, -, hcompletes⟩ := h.completes hd
  obtain ⟨place, hreaches⟩ := exists_reaches hd htypes hcompletes.running
  have hcounter : (c.after types w t).memory.programCounter = start := hcompletes.counter
  have hbehind : c.layout.driver.length ≤ start := Layout.le_of_placedFrom hstart
  have hsize : 0 < (ra.1.piece plan.createMissing (Routine.forPhase ra.2 phase)).size := by
    simp [Subroutine.size]
  refine ⟨place, hreaches, ?_⟩
  rcases counter_of_stands hd hreaches.stands.1 (Run.unended_of_running hcompletes.running) with
    ⟨-, hm⟩ | ⟨k, -, -, hlt⟩ | ⟨k, rb, routine, before, rest, K, rfl, -, hroutine⟩
  · have hlength := length_driver hd.keys
    omega
  · omega
  · obtain ⟨e, he, hpiece, -, hcounter', hlt⟩ := hroutine.counter
    obtain rfl := Layout.eq_of_place he hstart
      (i := (c.after types w t).memory.programCounter) (by omega) (by dsimp only; omega)
    obtain rfl : Routine.forPhase ra.2 phase = routine := congrArg Subroutine.routine hpiece
    have hname : ra.1.name = rb.1.name := congrArg Subroutine.owner hpiece
    have hscheduled := hroutine.scheduled
    rw [← hname, phase_forPhase] at hscheduled
    exact ⟨by simp, hscheduled⟩

/-- Where a phase begins, every earlier entry of the schedule has returned. -/
theorem Begins.over (hd : c.Distinct)
    (htypes : ∀ t ∈ plan.declaration.catalog.keys, t ∈ types.keys)
    (h : c.Begins types w t n phase) {m : String} (hm : m ∈ c.names) {phase' : Phase}
    (hlt : ∀ i j : Nat, c.schedule[i]? = some (m, phase') → c.schedule[j]? = some (n, phase) → i < j) :
    c.Over types w t m phase' := by
  obtain ⟨place, hreaches, hplace, hscheduled⟩ := h.reaches hd htypes
  obtain ⟨rb, hrb, rfl⟩ := List.mem_map.1 hm
  obtain ⟨j, hj⟩ := List.getElem?_of_mem (mem_schedule.2 hm : (rb.1.name, phase') ∈ c.schedule)
  exact ⟨rb, hrb, rfl, hreaches.returned_of_lt hd hplace hrb hj (hlt j _ hj hscheduled)⟩

theorem begins_of_called (hd : c.Distinct) {k : Nat} {ra : Resource × Action} {K : Known}
    {rest : List Instruction}
    (h : c.Reaches types w t (.routine k ra (Routine.forPhase ra.2 phase) [] rest K)) :
    c.Begins types w t ra.1.name phase := by
  have hroutine : c.InRoutine k ra (Routine.forPhase ra.2 phase) [] rest K
    (c.after types w t).memory := h.stands.1
  obtain ⟨e, he, hpiece, -, hcounter, -⟩ := hroutine.counter
  refine ⟨ra, hroutine.planned, rfl, running_of_stands hd h.stands.1 nofun h.stands.2, ?_⟩
  have hget : c.program.tables.labels.get? e.1.label = some e.2 :=
    Layout.get?_label (labels_nodup hd) he
  rw [hpiece] at hget
  unfold Program.label
  rw [show c.program.tables.labels.get? ((Routine.forPhase ra.2 phase).label ra.1.name) = _
    from hget]
  exact congrArg Except.ok hcounter.symm

theorem Reaches.called (hd : c.Distinct) (h : c.Reaches types w t .halted) {j t' : Nat}
    (hj : j < c.schedule.length) (h' : c.Reaches types w t' (.driver j)) :
    ∃ ra phase K rest, c.schedule[j]? = some (ra.1.name, phase) ∧
      c.Reaches types w (t' + 1) (.routine j ra (Routine.forPhase ra.2 phase) [] rest K) := by
  have hdriver : c.InDriver j (c.after types w t').memory := h'.stands.1
  obtain ⟨hcounter, hlt⟩ := hdriver.counter hd
  have hlength := length_driver hd.keys
  have hcalls : c.calls (.driver j) < c.calls .halted := hj
  obtain ⟨p, p', hreaches, hadvances⟩ := h.earlier (lt_of_calls_lt h' h hcalls)
  have hnext := hreaches.step hadvances
  rcases counter_of_stands hd hreaches.stands.1 hdriver.ended with
    ⟨-, hm⟩ | ⟨k, rfl, hm, -⟩ | ⟨k, rb, routine, before, rest, K, -, hle, -⟩
  · omega
  · obtain rfl : k = j := by omega
    have hexecutes := hadvances.executes
    generalize c.after types w (t' + 1) = r' at hexecutes
    cases hexecutes with
    | call _ hk => exact ⟨_, _, _, _, hk, hnext⟩
    | halt => exact absurd hj (Nat.lt_irrefl _)
  · omega

/-- At the end of a run every entry of the schedule has begun and returned. -/
theorem Reaches.over (hd : c.Distinct)
    (h : c.Reaches types w t .halted) (hn : n ∈ c.names) (phase : Phase) :
    (∃ t' < t, c.Begins types w t' n phase) ∧ c.Over types w t n phase := by
  obtain ⟨ra, hra, rfl⟩ := List.mem_map.1 hn
  obtain ⟨j, hj⟩ := List.getElem?_of_mem (mem_schedule.2 hn : (ra.1.name, phase) ∈ c.schedule)
  have hlt : j < c.schedule.length := (List.getElem?_eq_some_iff.1 hj).1
  refine ⟨?_, ra, hra, rfl, h.returned_of_lt hd nofun hra hj hlt⟩
  obtain ⟨t', -, hreached⟩ := h.returned nofun (hlt.le : j ≤ c.calls .halted)
  obtain ⟨rb, phase', K, rest, hj', hcalled⟩ := h.called hd hlt hreached
  obtain ⟨hname, rfl⟩ := Prod.mk.inj (Option.some.inj (hj.symm.trans hj'))
  refine ⟨t' + 1, lt_of_calls_lt hcalled h hlt, ?_⟩
  rw [hname]
  exact begins_of_called hd hcalled

/-- **The run of a program goes through the nodes of the graph as their dependencies demand.** -/
theorem inGraphOrder_of_steps {p : Program} (h : plan.compile = .ok p) :
    ∃ c : Compilation plan, c.program = p ∧ (c.Distinct → ∀ {W : Type} (types : Registry W),
      (∀ t ∈ plan.declaration.catalog.keys, t ∈ types.keys) → ∀ w : W,
        c.InGraphOrder types w) := by
  obtain ⟨c, rfl⟩ := compile_eq_ok.1 h
  refine ⟨c, rfl, fun hd W types htypes w => ⟨?_, ?_, ?_, ?_, ?_⟩⟩
  · intro n d hdepends hne t hbegins
    have hearlier := earlier_of_dependsOn (c := c) hdepends hne
    have hover : ∀ phase ∈ Phase.forward, c.Over types w t d phase := fun phase hphase =>
      hbegins.over hd htypes (c.levels_perm_names.mem_iff.1 hearlier.mem_left) fun i j hi hj =>
        forward_lt hearlier hphase (by decide) hi hj
    exact ⟨hover .start (by decide), hover .check (by decide)⟩
  · intro n d hdepends hne t hbegins
    have hearlier := earlier_of_dependsOn (c := c) hdepends hne
    have hover : ∀ phase ∈ Phase.backward, c.Over types w t n phase := fun phase hphase =>
      hbegins.over hd htypes (c.levels_perm_names.mem_iff.1 hearlier.mem_right) fun i j hi hj =>
        backward_lt hearlier hphase (by decide) hi hj
    exact ⟨hover .commit (by decide), hover .finish (by decide)⟩
  · intro n phase t hphase hbegins m hm phase' hphase'
    exact hbegins.over hd htypes (mem_nodes_iff.1 hm) fun i j hi hj =>
      forward_lt_backward hphase' hphase hi hj
  · intro n phase t t' hbegins hbegins'
    obtain ⟨ra, hra, hname, start, -, hlabel, hcompletes⟩ := hbegins.completes hd
    obtain ⟨rb, hrb, hname', start', -, hlabel', hcompletes'⟩ := hbegins'.completes hd
    obtain rfl := eq_of_name_eq hra hrb (hname.trans hname'.symm)
    obtain rfl : start = start' := Except.ok.inj (hlabel.symm.trans hlabel')
    exact eq_of_completes hd htypes hcompletes hcompletes'
  · intro t hended herror n hn phase
    obtain ⟨t', ht', hreaches, -⟩ := reaches_halted hd htypes hended herror
    obtain ⟨⟨b, hb, hbegins⟩, hover⟩ := hreaches.over hd (mem_nodes_iff.1 hn) phase
    obtain ⟨ra, hra, hname, i, b', hb', hreturned⟩ := hover
    exact ⟨⟨b, hb.trans_le ht', hbegins⟩, ra, hra, hname, i, b', hb'.trans ht', hreturned⟩

end

/-- In this plan `x` is deleted that was created to wait for `y`: its deletion is over before
the one of what `y` leaves behind begins. -/
theorem inGraphOrder_of_steps_tied :
    ∃ p, tiedPlan.compile = .ok p ∧ ∃ c : Compilation tiedPlan, c.program = p ∧
      c.Begins (plainTypes true) () 75 "y" .commit ∧
      c.Over (plainTypes true) () 75 "x" .finish := by
  obtain ⟨c, hc, hordered⟩ := inGraphOrder_of_steps (rfl : tiedPlan.compile = .ok _)
  have htypes : ∀ t ∈ tiedPlan.declaration.catalog.keys, t ∈ (plainTypes true).keys := by decide
  have hdistinct : c.Distinct := distinct_of_actions rfl (by decide +kernel) (by decide +kernel)
  have hdepends : tiedPlan.DependsOn "x" "y" := ⟨_, rfl, List.mem_cons_self⟩
  have hbegins : c.Begins (plainTypes true) () 75 "y" .commit := by
    have hra : (plainResource true "y", Action.update) ∈ c.actions := by
      rw [Except.ok.inj (c.actions_eq.symm.trans (rfl : tiedPlan.actions = .ok _))]
      exact List.mem_cons_of_mem _ List.mem_cons_self
    refine ⟨_, hra, rfl, ?_, ?_⟩
    · rw [hc]
      decide +kernel
    · rw [hc]
      decide +kernel
  refine ⟨_, rfl, c, hc, hbegins, ?_⟩
  exact ((hordered hdistinct (plainTypes true) htypes ()).backward "x" "y" hdepends (by decide) 75
    hbegins).2

end Compilation

end Provisioning
