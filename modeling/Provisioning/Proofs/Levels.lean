/-
What the levels hold.

`peel` takes away, round by round, the names that are ready.  Each round splits the names
still waiting into those it takes and those it leaves, so the levels together are a
permutation of the names: every name stands in exactly one level, once.

A name is only taken when nothing else that it depends on is still waiting, so what it
depends on stands in earlier levels: `levels_earlier`.
-/
import Mathlib.Data.List.Perm.Basic
import Mathlib.Data.Finset.Max
import Mathlib.Data.List.Nodup
import Provisioning.Dependencies
import Provisioning.Proofs.Fallible
import Provisioning.Proofs.Table

namespace Provisioning

/-- One round splits the waiting names into a level and the names that wait on. -/
theorem ready_perm (waiting : List Edge) :
    ((waiting.filter (Edge.ready waiting)).map Prod.fst ++
      (waiting.filter fun e => !Edge.ready waiting e).map Prod.fst).Perm
        (waiting.map Prod.fst) := by
  rw [← List.map_append]
  exact (List.filter_append_perm _ waiting).map Prod.fst

theorem peel_perm {rounds : Nat} {waiting : List Edge} {layers : List (List String)}
    (h : peel rounds waiting = .ok layers) : layers.flatten.Perm (waiting.map Prod.fst) := by
  induction rounds generalizing waiting layers with
  | zero =>
    cases waiting with
    | nil =>
      rw [peel] at h
      cases h
      exact List.Perm.refl _
    | cons e rest => cases h
  | succ rounds ih =>
    cases waiting with
    | nil =>
      rw [peel] at h
      cases h
      exact List.Perm.refl _
    | cons e rest =>
      rw [peel.eq_3 _ _ (by simp)] at h
      split at h
      · cases h
      · next layer hlayer =>
        obtain ⟨later, hlater, h⟩ := bind_eq_ok.1 h
        cases h
        rw [List.flatten_cons]
        exact ((ih hlater).append_left _).trans (ready_perm _)

/-! ### The order of the levels -/

/-- `a` stands in an earlier level than `b`. -/
def Earlier (levels : List (List String)) (a b : String) : Prop :=
  ∃ before after, levels = before ++ after ∧ a ∈ before.flatten ∧ b ∈ after.flatten

namespace Earlier

variable {level : List String} {levels : List (List String)} {a b c : String}

theorem head (ha : a ∈ level) (hb : b ∈ levels.flatten) : Earlier (level :: levels) a b :=
  ⟨[level], levels, rfl, by simpa using ha, hb⟩

theorem tail (h : Earlier levels a b) : Earlier (level :: levels) a b := by
  obtain ⟨before, after, rfl, ha, hb⟩ := h
  refine ⟨level :: before, after, rfl, ?_, hb⟩
  rw [List.flatten_cons]
  exact List.mem_append_right _ ha

theorem mem_left (h : Earlier levels a b) : a ∈ levels.flatten := by
  obtain ⟨before, after, rfl, ha, -⟩ := h
  rw [List.flatten_append]
  exact List.mem_append_left _ ha

theorem mem_right (h : Earlier levels a b) : b ∈ levels.flatten := by
  obtain ⟨before, after, rfl, -, hb⟩ := h
  rw [List.flatten_append]
  exact List.mem_append_right _ hb

/-- Where each name stands once, earlier than earlier is earlier. -/
theorem trans (hnodup : levels.flatten.Nodup) (hab : Earlier levels a b)
    (hbc : Earlier levels b c) : Earlier levels a c := by
  obtain ⟨before, after, rfl, ha, hb⟩ := hab
  obtain ⟨before', after', heq, hb', hc⟩ := hbc
  refine ⟨before, after, rfl, ha, ?_⟩
  rw [List.flatten_append] at hnodup
  rcases List.append_eq_append_iff.1 heq with ⟨later, rfl, rfl⟩ | ⟨later, rfl, rfl⟩
  · rw [List.flatten_append]
    exact List.mem_append_right _ hc
  · -- Then `b` would stand both before and behind the split.
    rw [List.flatten_append] at hnodup
    have hleft := List.mem_append_left later.flatten hb'
    exact absurd rfl ((List.nodup_append.1 hnodup).2.2 b hleft b hb)

end Earlier

/-- What a name depends on is peeled off before it. -/
theorem peel_earlier {rounds : Nat} {waiting : List Edge} {layers : List (List String)}
    (h : peel rounds waiting = .ok layers) {e : Edge} (he : e ∈ waiting) {d : String}
    (hd : d ∈ e.2) (hne : d ≠ e.1) (hwaiting : d ∈ waiting.map Prod.fst) :
    Earlier layers d e.1 := by
  induction rounds generalizing waiting layers with
  | zero =>
    cases waiting with
    | nil => cases he
    | cons _ _ => cases h
  | succ rounds ih =>
    cases hw : waiting with
    | nil =>
      rw [hw] at he
      cases he
    | cons first rest =>
      rw [peel.eq_3 _ _ (by simp [hw])] at h
      split at h
      · cases h
      · next layer hlayer =>
        obtain ⟨later, hlater, h⟩ := bind_eq_ok.1 h
        cases h
        have hready : Edge.ready waiting e = false := by
          by_contra hready
          rw [Bool.not_eq_false] at hready
          have := List.all_eq_true.1 hready d hd
          simp [hne] at this
          obtain ⟨x, hx⟩ := List.mem_map.1 hwaiting
          exact this x.2 (by rw [← hx.2]; exact hx.1)
        have hleft : e ∈ waiting.filter fun e => !Edge.ready waiting e :=
          List.mem_filter.2 ⟨he, by rw [hready]; rfl⟩
        obtain ⟨x, hx, rfl⟩ := List.mem_map.1 hwaiting
        cases hxready : Edge.ready waiting x with
        | true =>
          refine .head (List.mem_map.2 ⟨x, List.mem_filter.2 ⟨hx, hxready⟩, rfl⟩) ?_
          exact (peel_perm hlater).mem_iff.2 (List.mem_map.2 ⟨e, hleft, rfl⟩)
        | false =>
          refine .tail (ih hlater hleft ?_)
          exact List.mem_map.2 ⟨x, List.mem_filter.2 ⟨hx, by rw [hxready]; rfl⟩, rfl⟩

/-! ### Graphs without cycles -/

/-- Where each name only waits for names of lower rank, all of them are peeled off. -/
theorem exists_peel {rank : String → Nat} {rounds : Nat} {waiting : List Edge}
    (hrounds : waiting.length ≤ rounds)
    (hrank : ∀ e ∈ waiting, ∀ d ∈ e.2, d ≠ e.1 → rank d < rank e.1) :
    ∃ layers, peel rounds waiting = .ok layers := by
  induction rounds generalizing waiting with
  | zero =>
    obtain rfl := List.eq_nil_of_length_eq_zero (Nat.le_zero.1 hrounds)
    exact ⟨[], by rw [peel]⟩
  | succ rounds ih =>
    cases hw : waiting with
    | nil => exact ⟨[], by rw [peel]⟩
    | cons first rest =>
      -- A name of lowest rank waits for no other.
      obtain ⟨e, he, hlowest⟩ := Finset.exists_min_image waiting.toFinset (fun e => rank e.1)
        ⟨first, by simp [hw]⟩
      rw [List.mem_toFinset] at he
      have hready : Edge.ready waiting e = true := by
        refine List.all_eq_true.2 fun d hd => ?_
        by_cases hself : d = e.1
        · simp [hself]
        · have hgone : d ∉ waiting.map Prod.fst := by
            intro hmem
            obtain ⟨e', he', rfl⟩ := List.mem_map.1 hmem
            exact absurd (hrank e he _ hd hself)
              (Nat.not_lt.2 (hlowest e' (List.mem_toFinset.2 he')))
          simp only [List.contains_eq_mem, hgone, decide_false, Bool.not_false, Bool.or_true]
      have hfewer : (waiting.filter fun e => !Edge.ready waiting e).length ≤ rounds := by
        have hlt : (waiting.filter fun e => !Edge.ready waiting e).length < waiting.length :=
          List.length_filter_lt_length_iff_exists.2 ⟨e, he, by simp [hready]⟩
        omega
      obtain ⟨later, hlater⟩ := ih hfewer fun e he => hrank e (List.mem_of_mem_filter he)
      rw [← hw, peel.eq_3 _ _ (by simp [hw])]
      split
      · next hempty =>
        exact absurd (List.mem_filter.2 ⟨he, hready⟩) (by rw [hempty]; exact List.not_mem_nil)
      · exact ⟨_, by rw [hlater]; rfl⟩

namespace Dependencies

/-- A graph whose edges lead to names of lower rank has levels. -/
theorem exists_levels {g : Dependencies} (rank : String → Nat)
    (hknown : ∀ e ∈ g.edges.entries, ∀ d ∈ e.2, d ∈ g.nodes)
    (hrank : ∀ e ∈ g.edges.entries, ∀ d ∈ e.2, d ≠ e.1 → rank d < rank e.1) :
    ∃ layers, g.levels = .ok layers := by
  have hnone : g.firstUnknown = none := by
    refine List.findSome?_eq_none_iff.2 fun e he => ?_
    rw [Option.map_eq_none_iff, List.find?_eq_none]
    intro d hd
    rw [Bool.not_eq_true', Bool.not_eq_false]
    exact Table.contains_iff.2 (hknown e he d hd)
  obtain ⟨layers, hlayers⟩ : ∃ layers, peel g.edges.size g.edges.entries = .ok layers :=
    exists_peel (Nat.le_refl _) hrank
  refine ⟨layers, ?_⟩
  unfold levels
  rw [hnone]
  simp only [hlayers]

/-- **The levels are the names of the graph in another order.** -/
theorem levels_perm {g : Dependencies} {layers : List (List String)} (h : g.levels = .ok layers) :
    layers.flatten.Perm g.nodes := by
  unfold levels at h
  split at h
  · cases h
  · split at h
    · cases h
    · next layers' hpeel =>
      cases h
      exact peel_perm hpeel

theorem nodup_levels {g : Dependencies} {layers : List (List String)} (h : g.levels = .ok layers) :
    layers.flatten.Nodup :=
  (levels_perm h).nodup_iff.2 g.edges.nodup

/-- Whatever is depended on is a name of the graph. -/
theorem mem_nodes_of_known {g : Dependencies} (h : g.firstUnknown = none) {e : Edge}
    (he : e ∈ g.edges.entries) {d : String} (hd : d ∈ e.2) : d ∈ g.nodes := by
  have hknown := List.findSome?_eq_none_iff.1 h e he
  rw [Option.map_eq_none_iff, List.find?_eq_none] at hknown
  have hcontains := hknown d hd
  rw [Bool.not_eq_true', Bool.not_eq_false] at hcontains
  exact Table.contains_iff.1 hcontains

/-- **What a name depends on, itself apart, stands in an earlier level.** -/
theorem levels_earlier {g : Dependencies} {layers : List (List String)} (h : g.levels = .ok layers)
    {name d : String} {deps : List String} (hdeps : g.of? name = some deps) (hd : d ∈ deps)
    (hne : d ≠ name) : Earlier layers d name := by
  unfold levels at h
  split at h
  · cases h
  · next hknown =>
    split at h
    · cases h
    · next layers' hpeel =>
      cases h
      have he : (name, deps) ∈ g.edges.entries := Table.get?_eq_some_iff.1 hdeps
      exact peel_earlier hpeel he hd hne (mem_nodes_of_known hknown he hd)

theorem mem_nodes_merge {g top : Dependencies} {name : String} :
    name ∈ (g.merge top).nodes ↔ name ∈ g.nodes ∨ name ∈ top.nodes :=
  Entries.mem_keys_overlay

end Dependencies

end Provisioning
