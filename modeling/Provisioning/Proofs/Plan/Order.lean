/-
The order of calls and dependencies.

What a resource depends on stands in an earlier level, so the forward part of the schedule
has its phases before, and the backward part, which takes the levels in reverse, has them
behind.  Every phase of the forward part stands before every phase of the backward part.
-/
import Mathlib.Logic.Relation
import Provisioning.Proofs.Plan.Schedule

namespace Provisioning

/-- In the compiled graph `n` depends on `d`. -/
def Plan.DependsOn (plan : Plan) (n d : String) : Prop :=
  ∃ deps, plan.dependencies.of? n = some deps ∧ d ∈ deps

/-- A declared name depends on what it waits for, and any other on what it waited for before,
as far as that is still known. -/
theorem Plan.of?_dependencies (plan : Plan) (n : String) :
    plan.dependencies.of? n = ((plan.declaration.resources.get? n).map Resource.waits).or
      ((plan.prior.get? n).map fun t => distinct (t.dependencies.filter plan.knows)) := by
  have hoverlay := Table.get?_overlay plan.trackedDependencies.edges
    plan.declaration.dependencies.edges.nodup n
  have htop : (plan.declaration.dependencies.edges.entries.get? n) =
      (plan.declaration.resources.get? n).map Resource.waits :=
    Table.get?_mapValues plan.declaration.resources (fun _ r => r.waits) n
  rw [htop, trackedDependencies, Table.get?_mapValues] at hoverlay
  exact hoverlay

theorem lt_of_mem_append {α : Type} {p q l : List α} (hl : l = p ++ q) (hnodup : l.Nodup) {x y : α}
    (hx : x ∈ p) (hy : y ∈ q) {i j : Nat} (hi : l[i]? = some x) (hj : l[j]? = some y) : i < j := by
  subst hl
  have hdisjoint := (List.nodup_append.1 hnodup).2.2
  have hlt : i < p.length := by
    by_contra hle
    rw [List.getElem?_append_right (Nat.le_of_not_lt hle)] at hi
    exact hdisjoint x hx x (List.mem_of_getElem? hi) rfl
  by_contra hle
  rw [List.getElem?_append_left (by omega)] at hj
  exact hdisjoint y (List.mem_of_getElem? hj) y hy rfl

theorem mem_flatMap_levelSchedule {phases : List Phase} {levels : List (List String)} {n : String}
    {phase : Phase} :
    (n, phase) ∈ levels.flatMap (levelSchedule phases) ↔ phase ∈ phases ∧ n ∈ levels.flatten := by
  simp only [List.mem_flatMap, mem_levelSchedule, List.mem_flatten]
  constructor
  · rintro ⟨level, hlevel, hphase, hn⟩
    exact ⟨hphase, level, hlevel, hn⟩
  · rintro ⟨hphase, level, hlevel, hn⟩
    exact ⟨level, hlevel, hphase, hn⟩

namespace Compilation

variable {plan : Plan} {c : Compilation plan} {a b : String} {phase phase' : Phase} {i j : Nat}

/-- What a declared resource waits for, it depends on in the compiled graph. -/
theorem dependsOn_of_waits {r : Resource} (h : plan.declaration.get? r.name = some r) {d : String}
    (hd : d ∈ r.waits) : plan.DependsOn r.name d := by
  refine ⟨r.waits, ?_, hd⟩
  rw [Plan.of?_dependencies, show plan.declaration.resources.get? r.name = some r from h]
  rfl

theorem earlier_of_dependsOn (h : plan.DependsOn b a) (hne : a ≠ b) : Earlier c.levels a b := by
  obtain ⟨deps, hdeps, ha⟩ := h
  exact Dependencies.levels_earlier c.levels_eq hdeps ha hne

theorem earlier_of_transGen (h : Relation.TransGen plan.DependsOn b a) :
    a = b ∨ Earlier c.levels a b := by
  have hnodup := Dependencies.nodup_levels c.levels_eq
  induction h with
  | single h => exact or_iff_not_imp_left.2 fun hne => earlier_of_dependsOn h hne
  | @tail a' a _ h ih =>
    by_cases hne : a = a'
    · rw [hne]
      exact ih
    · have hearlier : Earlier c.levels a a' := earlier_of_dependsOn h hne
      rcases ih with rfl | hlater
      · exact .inr hearlier
      · exact .inr (hearlier.trans hnodup hlater)

theorem lt_of_rank_lt (hi : c.schedule[i]? = some (a, phase))
    (hj : c.schedule[j]? = some (a, phase')) (hrank : phase.rank < phase'.rank) : i < j := by
  obtain ⟨hilt, hi⟩ := List.getElem?_eq_some_iff.1 hi
  obtain ⟨hjlt, hj⟩ := List.getElem?_eq_some_iff.1 hj
  by_contra hle
  rcases Nat.lt_or_eq_of_le (Nat.le_of_not_lt hle) with hlt | rfl
  · have horder := List.pairwise_iff_getElem.1 c.schedule_pairwise j i hjlt hilt hlt
    rw [hi, hj] at horder
    exact Nat.lt_asymm hrank (horder rfl)
  · rw [hi] at hj
    obtain rfl : phase = phase' := congrArg Prod.snd hj
    exact Nat.lt_irrefl _ hrank

/-- The forward part of the schedule comes first. -/
theorem forward_lt_backward (hphase : phase ∈ Phase.forward) (hphase' : phase' ∈ Phase.backward)
    (hi : c.schedule[i]? = some (a, phase)) (hj : c.schedule[j]? = some (b, phase')) : i < j := by
  have ha : a ∈ c.levels.flatten :=
    c.levels_perm_names.mem_iff.2 (mem_schedule.1 (List.mem_of_getElem? hi))
  have hb : b ∈ c.levels.reverse.flatten :=
    (List.reverse_perm _).flatten.mem_iff.2
      (c.levels_perm_names.mem_iff.2 (mem_schedule.1 (List.mem_of_getElem? hj)))
  exact lt_of_mem_append rfl c.nodup_schedule (mem_flatMap_levelSchedule.2 ⟨hphase, ha⟩)
    (mem_flatMap_levelSchedule.2 ⟨hphase', hb⟩) hi hj

/-- The forward part goes from earlier levels to later ones. -/
theorem forward_lt (h : Earlier c.levels a b) (hphase : phase ∈ Phase.forward)
    (hphase' : phase' ∈ Phase.forward) (hi : c.schedule[i]? = some (a, phase))
    (hj : c.schedule[j]? = some (b, phase')) : i < j := by
  obtain ⟨before, after, hlevels, ha, hb⟩ := h
  have hsplit : c.schedule = before.flatMap (levelSchedule Phase.forward) ++
      (after.flatMap (levelSchedule Phase.forward) ++
        c.levels.reverse.flatMap (levelSchedule Phase.backward)) := by
    rw [schedule, ← List.append_assoc, ← List.flatMap_append, ← hlevels]
  exact lt_of_mem_append hsplit c.nodup_schedule (mem_flatMap_levelSchedule.2 ⟨hphase, ha⟩)
    (List.mem_append_left _ (mem_flatMap_levelSchedule.2 ⟨hphase', hb⟩)) hi hj

/-- The backward part goes from later levels to earlier ones. -/
theorem backward_lt (h : Earlier c.levels a b) (hphase : phase ∈ Phase.backward)
    (hphase' : phase' ∈ Phase.backward) (hi : c.schedule[i]? = some (b, phase))
    (hj : c.schedule[j]? = some (a, phase')) : i < j := by
  obtain ⟨before, after, hlevels, ha, hb⟩ := h
  have hsplit : c.schedule = (c.levels.flatMap (levelSchedule Phase.forward) ++
      after.reverse.flatMap (levelSchedule Phase.backward)) ++
        before.reverse.flatMap (levelSchedule Phase.backward) := by
    rw [schedule, List.append_assoc, ← List.flatMap_append, ← List.reverse_append, ← hlevels]
  have hreverse : ∀ {l : List (List String)} {n : String}, n ∈ l.flatten → n ∈ l.reverse.flatten :=
    fun hn => (List.reverse_perm _).flatten.mem_iff.2 hn
  exact lt_of_mem_append hsplit c.nodup_schedule
    (List.mem_append_right _ (mem_flatMap_levelSchedule.2 ⟨hphase, hreverse hb⟩))
    (mem_flatMap_levelSchedule.2 ⟨hphase', hreverse ha⟩) hi hj

end Compilation

end Provisioning
