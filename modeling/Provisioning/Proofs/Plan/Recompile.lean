/-
Compiling what a run has left.

The snapshot of a run holds entries of three kinds: of declared resources, of tracked ones
that are not deleted yet, and of objects that were put aside.  `Stems` says so.  Such a
snapshot compiles with the same declaration.

The names have levels again, as there is a rank by which every edge falls.  Declared names
only wait for declared names, and stand in the order of the old levels.  What was put aside
waits for what its resource waits for, so it may come next.  What is left to be deleted stands
behind both, again in the order of the old levels.  The types, the required fields and the
values were all looked at by the first compilation.
-/
import Provisioning.Proofs.Declare.References
import Provisioning.Proofs.Plan.Order

namespace Provisioning

/-- Where an entry of a later snapshot comes from. -/
inductive Plan.Stems (plan : Plan) (name : String) (tracked : Tracked) : Prop
  | declared {r : Resource} : plan.declaration.get? name = some r → tracked.typeId = r.typeId →
    tracked.dependencies = r.waits → Stems plan name tracked
  /-- It was tracked before, and is to be deleted. -/
  | kept {old : Tracked} : plan.declaration.get? name = none → plan.prior.get? name = some old →
    tracked.typeId = old.typeId → tracked.dependencies = old.dependencies →
    Stems plan name tracked
  /-- A replacement has put it aside. -/
  | aside {r : Resource} : plan.declaration.get? name = none → plan.prior.get? name = none →
    plan.declaration.get? r.name = some r → name = deletable r.name →
    tracked.typeId = r.typeId → tracked.dependencies = r.waits → Stems plan name tracked

/-- The plan for the same declaration, but another snapshot. -/
def Plan.resume (plan : Plan) (prior : Snapshot) (createMissing : Bool) : Plan :=
  ⟨plan.declaration, prior, createMissing⟩

theorem Declaration.Closed.waits {d : Declaration} (h : d.Closed) {name : String} {r : Resource}
    (hr : d.get? name = some r) {n : String} (hn : n ∈ r.waits) : n ∈ d.resources.keys := by
  unfold Resource.waits at hn
  rw [mem_distinct] at hn
  exact h name r hr n (List.mem_of_mem_filter hn)

/-- Every edge leads to a name of the graph, if the declared ones lead to declared names. -/
theorem Plan.mem_nodes_of_edge (plan : Plan) (hclosed : plan.declaration.Closed) {n d : String}
    {deps : List String} (hdeps : plan.dependencies.of? n = some deps) (hd : d ∈ deps) :
    d ∈ plan.dependencies.nodes := by
  refine plan.mem_nodes_dependencies.2 ?_
  rw [Plan.of?_dependencies] at hdeps
  rcases Option.or_eq_some_iff.1 hdeps with h | ⟨-, h⟩
  · obtain ⟨r, hr, hwaits⟩ := Option.map_eq_some_iff.1 h
    exact .inr (hclosed.waits hr (hwaits ▸ hd))
  · obtain ⟨tracked, -, hwaits⟩ := Option.map_eq_some_iff.1 h
    rw [← hwaits, mem_distinct] at hd
    have hknows := (List.mem_filter.1 hd).2
    rw [Plan.knows, Bool.or_eq_true, Table.contains_iff, Table.contains_iff] at hknows
    exact hknows

theorem Earlier.idxOf_lt {levels : List (List String)} {a b : String}
    (hnodup : levels.flatten.Nodup) (h : Earlier levels a b) :
    levels.flatten.idxOf a < levels.flatten.idxOf b := by
  exact lt_of_mem_append (p := h.choose.flatten) (q := h.choose_spec.choose.flatten)
    (by rw [← List.flatten_append, ← h.choose_spec.choose_spec.1]) hnodup
    h.choose_spec.choose_spec.2.1 h.choose_spec.choose_spec.2.2
    (List.getElem?_idxOf h.mem_left) (List.getElem?_idxOf h.mem_right)

namespace Resource

variable {r : Resource} {createMissing : Bool} {action : Action}

theorem subroutine_of_checked {routine : Routine}
    (h : routine.creates = true → r.checkRequired = .ok ()) :
    r.subroutine createMissing routine = .ok (r.piece createMissing routine) := by
  unfold subroutine code
  cases hcreates : routine.creates with
  | false => rfl
  | true =>
    rw [if_pos rfl, h hcreates]
    rfl

/-- A resource whose required fields are bound has all its subroutines, and so has one that is
deleted. -/
theorem exists_subroutines (createMissing : Bool)
    (h : action ≠ .delete → r.checkRequired = .ok ()) :
    ∃ l, r.subroutines action createMissing = .ok l := by
  refine exists_mapM fun e he => ?_
  have hnone : ∀ e ∈ routines .delete createMissing, e.2.creates = false := by
    cases createMissing <;> decide
  have hcreates : e.2.creates = true → action ≠ .delete := by
    rintro hcreates rfl
    rw [hnone e he] at hcreates
    cases hcreates
  rw [subroutine_of_checked fun hc => h (hcreates hc)]
  exact ⟨_, rfl⟩

/-- Whatever is wanted has a subroutine that creates it, so its required fields are bound. -/
theorem required_of_subroutines {l : List (String × Subroutine)}
    (h : r.subroutines action createMissing = .ok l) (haction : action ≠ .delete) :
    r.checkRequired = .ok () := by
  have hmem : ∃ e ∈ routines action createMissing, e.2.creates = true := by
    cases action with
    | delete => exact absurd rfl haction
    | create => cases createMissing <;> exact ⟨(_, .create), List.mem_cons_self, rfl⟩
    | update => cases createMissing <;> exact ⟨("recreate", .recreate), by decide, rfl⟩
  obtain ⟨e, he, hcreates⟩ := hmem
  obtain ⟨s, -, hs⟩ := ok_of_mapM h he
  obtain ⟨s', hs', -⟩ := map_eq_ok.1 hs
  obtain ⟨inner, hinner, -⟩ := map_eq_ok.1 hs'
  unfold code at hinner
  rw [if_pos hcreates] at hinner
  obtain ⟨⟨⟩, hrequired, -⟩ := bind_eq_ok.1 hinner
  exact hrequired

end Resource

namespace Compilation

variable {plan : Plan} {c : Compilation plan} {prior : Snapshot} {createMissing : Bool}

/-- The place of a name in the order of the next compilation. -/
def position (c : Compilation plan) (n : String) : Nat :=
  if n ∈ plan.declaration.resources.keys then c.levels.flatten.idxOf n
  else if n ∈ plan.prior.keys then c.levels.flatten.length + 1 + c.levels.flatten.idxOf n
  else c.levels.flatten.length

theorem position_of_declared {n : String} (h : n ∈ plan.declaration.resources.keys) :
    c.position n = c.levels.flatten.idxOf n ∧ c.position n < c.levels.flatten.length := by
  have hposition : c.position n = c.levels.flatten.idxOf n := if_pos h
  refine ⟨hposition, hposition ▸ List.idxOf_lt_length_of_mem ?_⟩
  exact c.levels_perm_names.mem_iff.2 (c.mem_names.2 (.inr h))

theorem notMem_of_get? {n : String} (h : plan.declaration.get? n = none) :
    n ∉ plan.declaration.resources.keys :=
  Entries.get?_eq_none_iff.1 h

theorem required_of_declared (c : Compilation plan) {n : String} {r : Resource}
    (hr : plan.declaration.get? n = some r) : r.checkRequired = .ok () := by
  obtain ⟨action, hra, -, haction⟩ := c.exists_declared hr
  obtain ⟨lists, hlists, -⟩ := bind_eq_ok.1 c.table_eq
  obtain ⟨l, -, hl⟩ := ok_of_mapM hlists hra
  exact Resource.required_of_subroutines hl haction

/-- Whatever is planned with the same declaration has all its subroutines. -/
theorem exists_table (c : Compilation plan) {prior : Snapshot} (createMissing : Bool)
    {actions : List (Resource × Action)}
    (hactions : (plan.resume prior createMissing).actions = .ok actions) :
    ∃ table, Plan.subroutines createMissing actions = .ok table := by
  have hlists := exists_mapM fun ra (hra : ra ∈ actions) =>
    Resource.exists_subroutines createMissing fun haction =>
      required_of_declared c ((planned_of_actions hactions hra).declared haction)
  obtain ⟨lists, hlists⟩ := hlists
  exact ⟨_, by rw [Plan.subroutines, hlists]; rfl⟩

section

variable (hself : plan.declaration.SelfContained)
  (hstems : ∀ name tracked, prior.get? name = some tracked → plan.Stems name tracked)

include hstems

theorem exists_actions (c : Compilation plan) (createMissing : Bool) :
    ∃ actions, (plan.resume prior createMissing).actions = .ok actions := by
  obtain ⟨gone, hgone⟩ : ∃ gone, (plan.resume prior createMissing).deletables = .ok gone := by
    refine exists_mapM fun e he => ?_
    obtain ⟨hmem, hfree⟩ := List.mem_filter.1 he
    cases hstems e.1 e.2 (Table.get?_eq_some_iff.2 hmem) with
    | declared hr =>
      rw [Bool.not_eq_true', ← Bool.not_eq_true, Table.contains_iff] at hfree
      exact absurd (Table.mem_keys_of_get? hr) hfree
    | @kept old _ hold htype _ =>
      obtain ⟨was, hwas, -⟩ := bind_eq_ok.1 c.actions_eq
      obtain ⟨r, -, hr⟩ := ok_of_mapM hwas (a := (e.1, old))
        (List.mem_filter.2 ⟨Table.get?_eq_some_iff.1 hold, hfree⟩)
      exact ⟨r, htype ▸ hr⟩
    | aside _ _ hr _ htype _ =>
      have hd := plan.declaration.declared _ (Table.get?_eq_some_iff.1 hr)
      have htyped : (plan.resume prior createMissing).declaration.catalog.get? e.2.typeId = _ :=
        htype ▸ hd.typed
      rw [htyped]
      exact ⟨_, if_pos hd.orderly⟩
  exact ⟨_, by rw [Plan.actions, hgone]; rfl⟩

include hself

/-- **The edges of the next graph fall in the order of the names.** -/
theorem position_lt {n d : String} {deps : List String}
    (hdeps : (plan.resume prior createMissing).dependencies.of? n = some deps) (hd : d ∈ deps)
    (hne : d ≠ n) : c.position d < c.position n := by
  have hnodup := Dependencies.nodup_levels c.levels_eq
  rw [Plan.of?_dependencies] at hdeps
  cases hget : plan.declaration.resources.get? n with
  | some r =>
    obtain rfl : r.waits = deps := by
      rw [show (plan.resume prior createMissing).declaration.resources.get? n = some r from
        hget] at hdeps
      exact Option.some.inj hdeps
    have hdepends : plan.DependsOn n d := by
      refine ⟨r.waits, ?_, hd⟩
      rw [Plan.of?_dependencies, hget]
      rfl
    have hmem := hself.closed.waits hget hd
    rw [(position_of_declared hmem).1, (position_of_declared (Table.mem_keys_of_get? hget)).1]
    exact (earlier_of_dependsOn hdepends hne).idxOf_lt hnodup
  | none =>
    have hn := notMem_of_get? hget
    rw [show (plan.resume prior createMissing).declaration.resources.get? n = none from
      hget, Option.map_none, Option.none_or, Option.map_eq_some_iff] at hdeps
    obtain ⟨tracked, htracked, rfl⟩ := hdeps
    have hdep := List.mem_of_mem_filter (mem_distinct.1 hd)
    cases hstems n tracked htracked with
    | declared hr => exact absurd (hr.symm.trans hget) nofun
    | @kept old _ hold _ heq =>
      have hposition : c.position n = c.levels.flatten.length + 1 + c.levels.flatten.idxOf n := by
        rw [position, if_neg hn, if_pos (Table.mem_keys_of_get? hold)]
      rw [hposition]
      by_cases hdeclared : d ∈ plan.declaration.resources.keys
      · have := (position_of_declared (c := c) hdeclared).2
        omega
      · by_cases hprior : d ∈ plan.prior.keys
        · have hknows : plan.knows d = true := by
            rw [Plan.knows, Table.contains_iff.2 hprior, Bool.true_or]
          have hdepends : plan.DependsOn n d := by
            refine ⟨distinct (old.dependencies.filter plan.knows), ?_,
              mem_distinct.2 (List.mem_filter.2 ⟨heq ▸ hdep, hknows⟩)⟩
            rw [Plan.of?_dependencies, hget, hold]
            rfl
          rw [position, if_neg hdeclared, if_pos hprior]
          have := (earlier_of_dependsOn (c := c) hdepends hne).idxOf_lt hnodup
          omega
        · rw [position, if_neg hdeclared, if_neg hprior]
          omega
    | aside _ hprior hr _ _ heq =>
      have hlt := (position_of_declared (c := c) (hself.closed.waits hr (heq ▸ hdep))).2
      have hnone : n ∉ plan.prior.keys := Entries.get?_eq_none_iff.1 hprior
      rwa [show c.position n = c.levels.flatten.length by rw [position, if_neg hn, if_neg hnone]]

theorem exists_levels (c : Compilation plan) (createMissing : Bool) :
    ∃ levels, (plan.resume prior createMissing).levels = .ok levels := by
  have hof : ∀ {e : Edge}, e ∈ (plan.resume prior createMissing).dependencies.edges.entries →
      (plan.resume prior createMissing).dependencies.of? e.1 = some e.2 :=
    fun he => Table.get?_eq_some_iff.2 he
  refine Dependencies.exists_levels c.position ?_ ?_
  · intro e he d hd
    exact (plan.resume prior createMissing).mem_nodes_of_edge hself.closed (hof he) hd
  · intro e he d hd hne
    exact position_lt hself hstems (hof he) hd hne

/-- **What a run has left compiles with the same declaration, to the same values.** -/
theorem exists_compilation (c : Compilation plan) (createMissing : Bool) :
    ∃ c' : Compilation (plan.resume prior createMissing), c'.rom = c.rom := by
  obtain ⟨levels, hlevels⟩ := exists_levels hself hstems c createMissing
  obtain ⟨actions, hactions⟩ := exists_actions hstems c createMissing
  obtain ⟨table, htable⟩ := exists_table c createMissing hactions
  exact ⟨⟨levels, actions, table, c.rom, hlevels, hactions, htable, c.rom_eq⟩, rfl⟩

end

end Compilation

end Provisioning
