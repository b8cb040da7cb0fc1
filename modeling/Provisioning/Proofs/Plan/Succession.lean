/-
Levels for another declaration.

What a run has left may be compiled with a declaration that has nothing to do with the one
it was made for.  Three sorts of edges meet in the graph: those that are declared now, those
that were declared when an entry was written, and those that were recorded even earlier and
dangled, because what they led to was not known, and lead somewhere again now.

Still every edge falls in one order of the names.  The names that are declared now come
first, in the order in which they were declared: nothing can refer to a resource that is
declared later.  Then comes everything else in the order in which it would stand if the
declaration had stayed as it was, and an edge between two such names is an edge there too.
-/
import Provisioning.Proofs.Plan.Recompile

namespace Provisioning

namespace Declaration

variable {d : Declaration}

/-- What a resource of a self-contained declaration mentions stands before it. -/
theorem SelfContained.idxOf_lt (h : d.SelfContained) {name : String} {r : Resource}
    (hr : d.get? name = some r) {n : String} (hn : n ∈ Expr.mentionsFields r.properties) :
    d.resources.keys.idxOf n < d.resources.keys.idxOf name := by
  obtain ⟨d₀, hd₀, hfresh, hbefore⟩ := h.declared_before hr
  obtain ⟨rest, hkeys⟩ := hd₀.keys
  have hearlier := hbefore n hn
  rw [← hkeys, List.idxOf_append_of_mem hearlier, List.idxOf_append_of_notMem hfresh]
  have hlt := List.idxOf_lt_length_of_mem hearlier
  omega

end Declaration

namespace Compilation

variable {plan : Plan} {c : Compilation plan} {prior : Snapshot} {d : Declaration}
  {createMissing : Bool}

/-- The place of a name in the order of the next compilation, with the declaration `d`. -/
def succession (c : Compilation plan) (d : Declaration) (n : String) : Nat :=
  if n ∈ d.resources.keys then d.resources.keys.idxOf n
  else d.resources.keys.length + c.position n

theorem succession_of_declared {n : String} (h : n ∈ d.resources.keys) :
    c.succession d n = d.resources.keys.idxOf n ∧ c.succession d n < d.resources.keys.length := by
  have hsuccession : c.succession d n = d.resources.keys.idxOf n := if_pos h
  exact ⟨hsuccession, hsuccession ▸ List.idxOf_lt_length_of_mem h⟩

section

variable (hself : plan.declaration.SelfContained) (hd : d.SelfContained)
  (hstems : ∀ name tracked, prior.get? name = some tracked → plan.Stems name tracked)

include hself hstems

theorem position_lt_of_undeclared {n m : String} {tracked : Tracked}
    (hn : prior.get? n = some tracked) (hm : m ∈ prior.keys) (hedge : m ∈ tracked.dependencies)
    (hne : m ≠ n) : c.position m < c.position n := by
  have hknows : (plan.resume prior false).knows m = true := by
    rw [Plan.knows, show (plan.resume prior false).prior.contains m = true from
      Table.contains_iff.2 hm, Bool.true_or]
  have hkept : m ∈ distinct (tracked.dependencies.filter (plan.resume prior false).knows) :=
    mem_distinct.2 (List.mem_filter.2 ⟨hedge, hknows⟩)
  have hof : (plan.resume prior false).dependencies.of? n =
      ((plan.declaration.resources.get? n).map Resource.waits).or
        (some (distinct (tracked.dependencies.filter (plan.resume prior false).knows))) := by
    rw [Plan.of?_dependencies, show (plan.resume prior false).prior.get? n = some tracked from hn]
    rfl
  cases hget : plan.declaration.resources.get? n with
  | none =>
    rw [hget] at hof
    exact position_lt hself hstems hof hkept hne
  | some r =>
    rw [hget] at hof
    have hwaits : tracked.dependencies = r.waits := by
      cases hstems n tracked hn with
      | declared hr _ hdependencies =>
        obtain rfl := Option.some.inj (hr.symm.trans hget)
        exact hdependencies
      | kept hnone => cases hnone.symm.trans hget
      | aside hnone => cases hnone.symm.trans hget
    exact position_lt hself hstems hof (hwaits ▸ hedge) hne

include hd

/-- **The edges of the next graph fall in the order of the names, whatever is declared now.** -/
theorem succession_lt {n m : String} {deps : List String}
    (hdeps : (Plan.mk d prior createMissing).dependencies.of? n = some deps) (hm : m ∈ deps)
    (hne : m ≠ n) : c.succession d m < c.succession d n := by
  rw [Plan.of?_dependencies] at hdeps
  cases hget : d.resources.get? n with
  | some r =>
    rw [show (Plan.mk d prior createMissing).declaration.resources.get? n = some r from hget]
      at hdeps
    obtain rfl : r.waits = deps := Option.some.inj hdeps
    have hmention : m ∈ Expr.mentionsFields r.properties := by
      unfold Resource.waits at hm
      exact List.mem_of_mem_filter (mem_distinct.1 hm)
    have hn := Table.mem_keys_of_get? hget
    rw [(succession_of_declared (hd.closed n r hget m hmention)).1, (succession_of_declared hn).1]
    exact hd.idxOf_lt hget hmention
  | none =>
    rw [show (Plan.mk d prior createMissing).declaration.resources.get? n = none from hget,
      Option.map_none, Option.none_or, Option.map_eq_some_iff] at hdeps
    obtain ⟨tracked, htracked, rfl⟩ := hdeps
    obtain ⟨hedge, hknows⟩ := List.mem_filter.1 (mem_distinct.1 hm)
    have hn : n ∉ d.resources.keys := Entries.get?_eq_none_iff.1 hget
    rw [show c.succession d n = d.resources.keys.length + c.position n from if_neg hn]
    by_cases hdeclared : m ∈ d.resources.keys
    · have := (succession_of_declared (c := c) hdeclared).2
      omega
    · rw [Plan.knows, Bool.or_eq_true, Table.contains_iff, Table.contains_iff] at hknows
      have hprior : m ∈ prior.keys := hknows.resolve_right hdeclared
      rw [show c.succession d m = d.resources.keys.length + c.position m from if_neg hdeclared]
      have := position_lt_of_undeclared (c := c) hself hstems htracked hprior hedge hne
      omega

/-- **What a run has left has levels with every self-contained declaration.** -/
theorem exists_levels_of_stems (c : Compilation plan) (createMissing : Bool) :
    ∃ levels, (Plan.mk d prior createMissing).levels = .ok levels := by
  have hof : ∀ {e : Edge}, e ∈ (Plan.mk d prior createMissing).dependencies.edges.entries →
      (Plan.mk d prior createMissing).dependencies.of? e.1 = some e.2 :=
    fun he => Table.get?_eq_some_iff.2 he
  refine Dependencies.exists_levels (c.succession d) ?_ ?_
  · intro e he m hm
    exact (Plan.mk d prior createMissing).mem_nodes_of_edge hd.closed (hof he) hm
  · intro e he m hm hne
    exact succession_lt hself hd hstems (hof he) hm hne

end

end Compilation

end Provisioning
