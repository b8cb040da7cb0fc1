/-
What the driver calls.

The driver goes through a schedule of names and phases: level by level the start and then
the check of every name, and with the levels in reverse the commit and then the finish.  The
schedule has every planned name with every phase exactly once, and the phases of a name in
their order.

For an entry of the schedule the driver takes whatever subroutine the table holds under the
key of that name and phase, and the table holds whatever was written there last.  So the
driver calls a resource's own routine for each of its phases exactly if no key was written
twice, which is `callsOwn_iff`.  Keys are written twice when a name ends in what an update
branches to: the check of `a_modify` and the branch `modify_check` of `a` share theirs.
-/
import Provisioning.Proofs.Plan.Compilation

namespace Provisioning

namespace Phase

/-- The place of a phase among the four. -/
def rank : Phase → Nat
  | .start => 0
  | .check => 1
  | .commit => 2
  | .finish => 3

theorem mem_all (phase : Phase) : phase ∈ all := by cases phase <;> decide

end Phase

/-! ### The order of calls -/

/-- The phases of the names of one level. -/
def levelSchedule (phases : List Phase) (level : List String) : List (String × Phase) :=
  phases.flatMap fun phase => level.map (·, phase)

/-- `e` comes before `f` where both are about one name. -/
def InOrder (e f : String × Phase) : Prop := e.1 = f.1 → e.2.rank < f.2.rank

theorem mem_levelSchedule {phases : List Phase} {level : List String} {e : String × Phase} :
    e ∈ levelSchedule phases level ↔ e.2 ∈ phases ∧ e.1 ∈ level := by
  obtain ⟨n, phase⟩ := e
  simp [levelSchedule]

/-- A level takes the phases it is given in their order. -/
theorem levelSchedule_pairwise {phases : List Phase} (hphases : phases.Pairwise (·.rank < ·.rank))
    {level : List String} (hlevel : level.Nodup) :
    (levelSchedule phases level).Pairwise InOrder := by
  unfold levelSchedule
  rw [List.pairwise_flatMap]
  refine ⟨fun phase _ => ?_, hphases.imp fun hlt => ?_⟩
  · rw [List.pairwise_map]
    exact hlevel.imp fun hne heq => absurd heq hne
  · intro e he f hf _
    obtain ⟨_, -, rfl⟩ := List.mem_map.1 he
    obtain ⟨_, -, rfl⟩ := List.mem_map.1 hf
    exact hlt

/-- Different levels have different names, so between them nothing is to be ordered. -/
theorem levels_pairwise {phases : List Phase} (hphases : phases.Pairwise (·.rank < ·.rank))
    {levels : List (List String)} (hlevels : levels.flatten.Nodup) :
    (levels.flatMap (levelSchedule phases)).Pairwise InOrder := by
  obtain ⟨hnodup, hdisjoint⟩ := List.nodup_flatten.1 hlevels
  rw [List.pairwise_flatMap]
  refine ⟨fun level hlevel => levelSchedule_pairwise hphases (hnodup level hlevel),
    hdisjoint.imp fun hdis => ?_⟩
  intro e he f hf heq
  have hmem := (mem_levelSchedule.1 hf).2
  rw [← heq] at hmem
  exact (hdis (mem_levelSchedule.1 he).2 hmem).elim

namespace Compilation

variable {plan : Plan}

/-- What the driver goes through. -/
def schedule (c : Compilation plan) : List (String × Phase) :=
  c.levels.flatMap (levelSchedule Phase.forward) ++
    c.levels.reverse.flatMap (levelSchedule Phase.backward)

/-- The call for an entry of the schedule. -/
def callFor (c : Compilation plan) (e : String × Phase) : Option Instruction :=
  (c.table.get? (subroutineKey e.1 e.2.text)).map Subroutine.call

theorem driver_eq (c : Compilation plan) :
    c.layout.driver = .init :: (c.schedule.filterMap c.callFor ++ [.halt]) := by
  have hlevel : ∀ phases, Plan.levelCalls c.table phases =
      fun level => (levelSchedule phases level).filterMap c.callFor := by
    intro phases
    funext level
    simp [Plan.levelCalls, levelSchedule, List.filterMap_flatMap, List.filterMap_map,
      Function.comp_def, callFor]
  simp [layout, Plan.driver, schedule, List.filterMap_flatMap, hlevel]

theorem mem_schedule {c : Compilation plan} {n : String} {phase : Phase} :
    (n, phase) ∈ c.schedule ↔ n ∈ c.names := by
  have hflat : n ∈ c.levels.flatten ↔ n ∈ c.names := c.levels_perm_names.mem_iff
  rw [List.mem_flatten] at hflat
  rw [← hflat, schedule]
  cases phase <;> simp [mem_levelSchedule, Phase.forward, Phase.backward]

/-- The phases of a name come in their order. -/
theorem schedule_pairwise (c : Compilation plan) : c.schedule.Pairwise InOrder := by
  have hnodup : c.levels.flatten.Nodup := c.levels_perm_names.nodup_iff.2 c.nodup_names
  have hreverse : c.levels.reverse.flatten.Nodup :=
    (List.reverse_perm c.levels).flatten.nodup_iff.2 hnodup
  rw [schedule, List.pairwise_append]
  refine ⟨levels_pairwise (by decide) hnodup, levels_pairwise (by decide) hreverse, ?_⟩
  intro e he f hf _
  obtain ⟨level, -, he⟩ := List.mem_flatMap.1 he
  obtain ⟨level', -, hf⟩ := List.mem_flatMap.1 hf
  have hforward := (mem_levelSchedule.1 he).1
  have hbackward := (mem_levelSchedule.1 hf).1
  revert hforward hbackward
  cases e.2 <;> cases f.2 <;> decide

/-- No name has a phase twice. -/
theorem nodup_schedule (c : Compilation plan) : c.schedule.Nodup :=
  c.schedule_pairwise.imp fun horder heq => by
    subst heq
    exact Nat.lt_irrefl _ (horder rfl)

end Compilation

/-! ### The labels of the routines that serve a phase

None of the words for these routines begins with another of them and an underscore, so such
a label tells both the routine and the name.
-/

namespace Routine

/-- The routines that serve a phase of an action. -/
def entries : List Routine :=
  [.create, .checkCreate, .commitCreate, .finishCreate, .update, .checkUpdate, .commitUpdate,
    .finishUpdate, .delete, .checkDelete, .commitDelete, .finishDelete]

theorem forPhase_mem_entries (action : Action) (phase : Phase) :
    forPhase action phase ∈ entries := by
  cases action <;> cases phase <;> decide

theorem text_apart : ∀ r₁ ∈ entries, ∀ r₂ ∈ entries,
    (r₁.text ++ "_").toList <+: (r₂.text ++ "_").toList → r₁ = r₂ := by
  decide +kernel

theorem label_toList (r : Routine) (name : String) :
    (r.label name).toList = (r.text ++ "_").toList ++ name.toList := by
  simp [label]

theorem label_inj {r₁ r₂ : Routine} (h₁ : r₁ ∈ entries) (h₂ : r₂ ∈ entries) {n₁ n₂ : String}
    (h : r₁.label n₁ = r₂.label n₂) : r₁ = r₂ ∧ n₁ = n₂ := by
  have hlist := congrArg String.toList h
  rw [label_toList, label_toList] at hlist
  have hr : r₁ = r₂ := by
    rcases List.prefix_or_prefix_of_prefix (List.prefix_append _ n₁.toList)
        (hlist ▸ List.prefix_append _ n₂.toList) with hpre | hpre
    · exact text_apart r₁ h₁ r₂ h₂ hpre
    · exact (text_apart r₂ h₂ r₁ h₁ hpre).symm
  subst hr
  exact ⟨rfl, String.toList_injective (List.append_cancel_left hlist)⟩

theorem forPhase_inj {action : Action} {phase phase' : Phase}
    (h : forPhase action phase = forPhase action phase') : phase = phase' := by
  revert h
  cases action <;> cases phase <;> cases phase' <;> decide

end Routine

/-! ### Own routines -/

theorem phase_mem_routines (action : Action) (createMissing : Bool) (phase : Phase) :
    (phase.text, Routine.forPhase action phase) ∈ Resource.routines action createMissing :=
  List.mem_append_left _ (List.mem_map.2 ⟨phase, phase.mem_all, rfl⟩)

namespace Compilation

variable {plan : Plan}

/-- Every resource keeps its routines, and the driver calls for each of its phases, once,
the routine of its own action. -/
structure CallsOwn (c : Compilation plan) : Prop where
  /-- Every routine that a resource needs is in the table, as it was made for it. -/
  kept : ∀ ra ∈ c.actions, ∀ e ∈ Resource.routines ra.2 plan.createMissing,
    c.table.get? (subroutineKey ra.1.name e.1) = some (ra.1.piece plan.createMissing e.2)
  /-- The routine of every phase of every resource is called once. -/
  called : ∀ ra ∈ c.actions, ∀ phase,
    c.layout.driver.count (.call ((Routine.forPhase ra.2 phase).label ra.1.name)) = 1
  /-- Nothing else is called. -/
  only : ∀ label, .call label ∈ c.layout.driver → ∃ ra ∈ c.actions, ∃ phase,
    label = (Routine.forPhase ra.2 phase).label ra.1.name

theorem get?_key {c : Compilation plan} (h : (c.pieces.map Prod.fst).Nodup)
    {ra : Resource × Action} (hra : ra ∈ c.actions) {e : String × Routine}
    (he : e ∈ Resource.routines ra.2 plan.createMissing) :
    c.table.get? (subroutineKey ra.1.name e.1) = some (ra.1.piece plan.createMissing e.2) := by
  rw [Table.get?_eq_some_iff, entries_of_nodup h, mem_pieces]
  exact ⟨ra, hra, e, he, rfl⟩

theorem callFor_eq {c : Compilation plan} (h : (c.pieces.map Prod.fst).Nodup)
    {ra : Resource × Action} (hra : ra ∈ c.actions) (phase : Phase) :
    c.callFor (ra.1.name, phase) =
      some (.call ((Routine.forPhase ra.2 phase).label ra.1.name)) := by
  unfold callFor
  rw [get?_key h hra (phase_mem_routines ra.2 plan.createMissing phase)]
  rfl

/-- A call in the driver is made for one entry of the schedule. -/
theorem callFor_eq_iff {c : Compilation plan} (h : (c.pieces.map Prod.fst).Nodup)
    {ra : Resource × Action} (hra : ra ∈ c.actions) (phase : Phase) {e : String × Phase}
    (he : e ∈ c.schedule) :
    c.callFor e = some (.call ((Routine.forPhase ra.2 phase).label ra.1.name)) ↔
      e = (ra.1.name, phase) := by
  obtain ⟨n, phase'⟩ := e
  obtain ⟨rb, hrb, rfl⟩ := List.mem_map.1 (mem_schedule.1 he)
  constructor
  · intro hcall
    rw [callFor_eq h hrb] at hcall
    have hlabel : (Routine.forPhase rb.2 phase').label rb.1.name =
        (Routine.forPhase ra.2 phase).label ra.1.name := by simpa using hcall
    obtain ⟨hroutine, hname⟩ := Routine.label_inj (Routine.forPhase_mem_entries _ _)
      (Routine.forPhase_mem_entries _ _) hlabel
    obtain rfl := eq_of_name_eq hrb hra hname
    rw [Routine.forPhase_inj hroutine]
  · intro heq
    obtain ⟨hname, rfl⟩ := Prod.mk.inj heq
    obtain rfl := eq_of_name_eq hrb hra hname
    exact callFor_eq h hra phase'

theorem count_call {c : Compilation plan} (h : (c.pieces.map Prod.fst).Nodup)
    {ra : Resource × Action} (hra : ra ∈ c.actions) (phase : Phase) :
    c.layout.driver.count (.call ((Routine.forPhase ra.2 phase).label ra.1.name)) = 1 := by
  have hmem : (ra.1.name, phase) ∈ c.schedule := mem_schedule.2 (mem_names_of_mem hra)
  have hcount : (c.schedule.filterMap c.callFor).count
      (.call ((Routine.forPhase ra.2 phase).label ra.1.name)) =
        c.schedule.count (ra.1.name, phase) := by
    rw [List.count, List.countP_filterMap, List.count]
    refine List.countP_congr ?_
    intro e he
    rw [beq_iff_eq, ← callFor_eq_iff h hra phase he]
    cases c.callFor e <;> simp
  rw [driver_eq, List.count_cons, List.count_append, hcount,
    List.count_eq_one_of_mem c.nodup_schedule hmem]
  rfl

theorem callsOwn_of_nodup {c : Compilation plan} (h : (c.pieces.map Prod.fst).Nodup) :
    c.CallsOwn where
  kept _ hra _ he := get?_key h hra he
  called _ hra phase := count_call h hra phase
  only label hlabel := by
    rw [driver_eq] at hlabel
    have hcall : .call label ∈ c.schedule.filterMap c.callFor := by simpa using hlabel
    obtain ⟨⟨n, phase⟩, he, hcall⟩ := List.mem_filterMap.1 hcall
    obtain ⟨ra, hra, rfl⟩ := List.mem_map.1 (mem_schedule.1 he)
    rw [callFor_eq h hra] at hcall
    exact ⟨ra, hra, phase, by simpa using hcall.symm⟩

/-- What is kept for every resource was not replaced by what another one needs. -/
theorem nodup_of_kept {c : Compilation plan}
    (h : ∀ ra ∈ c.actions, ∀ e ∈ Resource.routines ra.2 plan.createMissing,
      c.table.get? (subroutineKey ra.1.name e.1) =
        some (ra.1.piece plan.createMissing e.2)) :
    (c.pieces.map Prod.fst).Nodup := by
  refine c.nodup_pieces.map_on ?_
  intro e he f hf hkey
  obtain ⟨ra, hra, er, her, rfl⟩ := mem_pieces.1 he
  obtain ⟨rb, hrb, fr, hfr, rfl⟩ := mem_pieces.1 hf
  have heq := h ra hra er her
  simp only at hkey
  rw [hkey, h rb hrb fr hfr] at heq
  rw [hkey, Option.some.inj heq]

/-- **The driver calls every resource's own routines, and none of them was replaced, exactly
if the keys are distinct.** -/
theorem callsOwn_iff {p : Program} (h : plan.compile = .ok p) :
    ∃ c : Compilation plan, c.program = p ∧
      (∀ n, n ∈ c.names ↔ n ∈ plan.prior.keys ∨ n ∈ plan.declaration.resources.keys) ∧
      (c.CallsOwn ↔ (c.pieces.map Prod.fst).Nodup) := by
  obtain ⟨c, hc⟩ := compile_eq_ok.1 h
  exact ⟨c, hc, fun _ => c.mem_names, fun hown => nodup_of_kept hown.kept, callsOwn_of_nodup⟩

/-- A plan whose names keep out of each other's way: its driver calls every resource's own
routines. -/
theorem callsOwn_plain :
    ∃ p, (plainPlan true ["a", "b"] ["b", "c"] true).compile = .ok p ∧
      ∃ c : Compilation (plainPlan true ["a", "b"] ["b", "c"] true),
        c.program = p ∧ c.CallsOwn := by
  obtain ⟨c, hc, -, hiff⟩ :=
    callsOwn_iff (rfl : (plainPlan true ["a", "b"] ["b", "c"] true).compile = .ok _)
  refine ⟨_, rfl, c, hc, hiff.2 ?_⟩
  rw [pieces_eq (rfl : (plainPlan true ["a", "b"] ["b", "c"] true).actions = .ok _)]
  decide +kernel

/-- The check of `a_modify` replaces the branch `modify_check` of `a`, and no label of the
program leads to that branch any more. -/
theorem not_callsOwn_modify :
    ∃ p, (plainPlan false ["a"] ["a", "a_modify"] false).compile = .ok p ∧
      p.label (Routine.modifyCheck.label "a") = .error (.labelNotFound "modify_check_a") ∧
      ∀ c : Compilation (plainPlan false ["a"] ["a", "a_modify"] false), ¬ c.CallsOwn := by
  refine ⟨_, rfl, rfl, ?_⟩
  intro c hown
  have hkeys := nodup_of_kept hown.kept
  rw [pieces_eq (rfl : (plainPlan false ["a"] ["a", "a_modify"] false).actions = .ok _)] at hkeys
  exact absurd hkeys (by decide +kernel)

end Compilation

end Provisioning
