/-
When there are levels, and which.

Peeling comes to one of two ends.  Either nothing waits any more, and what was peeled off are
the levels; or some names wait, and each of them for another one that waits.

A name that is peeled off waits for nothing but names that were peeled off before it, so from
it no cycle can be reached.  From a name that is left at the end one can go on to another
name that is left, and on from there; there are only finitely many, so one comes back to a
name where one was.  Hence the names that are left are exactly those from which a cycle can be
reached, where a name that only depends on itself makes no cycle.

Where nothing is left, a name in a level needs another one in the level just before, or it
would have been ready one round earlier.  So the number of its level is the length of the
longest chain of dependencies that starts at it.
-/
import Mathlib.Data.Fintype.Card
import Mathlib.Data.Fintype.EquivFin
import Mathlib.Data.Fintype.Sets
import Mathlib.Logic.Relation
import Mathlib.Order.Bounds.Defs
import Provisioning.Proofs.Levels

namespace Provisioning

namespace Dependencies

/-! ### Edges, cycles and chains -/

/-- `name` depends on `d`. -/
def DependsOn (g : Dependencies) (name d : String) : Prop :=
  ∃ deps, g.of? name = some deps ∧ d ∈ deps

/-- `name` depends on `d`, which is another name. -/
def Needs (g : Dependencies) (name d : String) : Prop := d ≠ name ∧ g.DependsOn name d

/-- Whatever is depended on is a name of the graph. -/
def Complete (g : Dependencies) : Prop := ∀ name d, g.DependsOn name d → d ∈ g.nodes

/-- `name` is the first name of the graph that depends on something unknown, and `d` is the
first unknown name that it depends on. -/
def FirstUnknown (g : Dependencies) (name d : String) : Prop :=
  ∃ before after known rest, g.edges.entries = before ++ (name, known ++ d :: rest) :: after ∧
    (∀ e ∈ before, ∀ d' ∈ e.2, d' ∈ g.nodes) ∧ (∀ d' ∈ known, d' ∈ g.nodes) ∧ d ∉ g.nodes

/-- The name and some other name depend on each other, over any number of edges. -/
def OnCycle (g : Dependencies) (name : String) : Prop :=
  ∃ other, other ≠ name ∧ Relation.ReflTransGen g.DependsOn name other ∧
    Relation.ReflTransGen g.DependsOn other name

/-- From the name a cycle can be reached. -/
def Entangled (g : Dependencies) (name : String) : Prop :=
  ∃ n, Relation.ReflTransGen g.DependsOn name n ∧ g.OnCycle n

/-- A chain of so many dependencies, each on another name, starts at a name. -/
inductive Chain (g : Dependencies) : String → Nat → Prop
  | nil (name : String) : Chain g name 0
  | cons {name d : String} {length : Nat} : g.Needs name d → Chain g d length →
    Chain g name (length + 1)

variable {g : Dependencies} {name d : String}

theorem dependsOn_iff : g.DependsOn name d ↔ ∃ e ∈ g.edges.entries, e.1 = name ∧ d ∈ e.2 := by
  constructor
  · rintro ⟨deps, hdeps, hd⟩
    exact ⟨(name, deps), Table.get?_eq_some_iff.1 hdeps, rfl, hd⟩
  · rintro ⟨e, he, rfl, hd⟩
    exact ⟨e.2, Table.get?_eq_some_iff.2 he, hd⟩

theorem mem_nodes_of_dependsOn (h : g.DependsOn name d) : name ∈ g.nodes := by
  obtain ⟨deps, hdeps, -⟩ := h
  exact Table.mem_keys_of_get? hdeps

/-- Edges that lead back to where they start lead nowhere. -/
theorem needs_of_dependsOn (h : Relation.ReflTransGen g.DependsOn name d) :
    Relation.ReflTransGen g.Needs name d := by
  induction h with
  | refl => exact .refl
  | @tail b c _ hedge ih =>
    by_cases hself : c = b
    · rwa [hself]
    · exact ih.tail ⟨hself, hedge⟩

/-- On a cycle one comes back over edges to other names, and such a way is a cycle. -/
theorem onCycle_iff : g.OnCycle name ↔ Relation.TransGen g.Needs name name := by
  constructor
  · rintro ⟨other, hne, hout, hback⟩
    have hout := Relation.reflTransGen_iff_eq_or_transGen.1 (needs_of_dependsOn hout)
    have hforth : Relation.TransGen g.Needs name other := hout.resolve_left hne
    exact hforth.trans_left (needs_of_dependsOn hback)
  · intro h
    obtain ⟨other, hneeds, hback⟩ := Relation.TransGen.head'_iff.1 h
    exact ⟨other, hneeds.1, .single hneeds.2,
      Relation.ReflTransGen.mono (fun _ _ h => h.2) _ _ hback⟩

/-- A cycle is reached over what is needed first. -/
theorem not_entangled_of_needs (h : ∀ d, g.Needs name d → ¬ g.Entangled d) :
    ¬ g.Entangled name := by
  rintro ⟨n, hreach, hcycle⟩
  rcases Relation.ReflTransGen.cases_head (needs_of_dependsOn hreach) with rfl | ⟨d, hd, hrest⟩
  · obtain ⟨d, hd, hback⟩ := Relation.TransGen.head'_iff.1 (onCycle_iff.1 hcycle)
    exact h d hd ⟨name, Relation.ReflTransGen.mono (fun _ _ h => h.2) _ _ hback, hcycle⟩
  · exact h d hd ⟨n, Relation.ReflTransGen.mono (fun _ _ h => h.2) _ _ hrest, hcycle⟩

theorem entangled_of_needs {names : List String}
    (h : ∀ n ∈ names, ∃ d ∈ names, g.Needs n d) (hname : name ∈ names) : g.Entangled name := by
  by_contra hfree
  -- What is reached from the name would be ordered by need, and have a least element.
  let Below (a b : {n // n ∈ names}) : Prop :=
    Relation.ReflTransGen g.DependsOn name b.1 ∧ Relation.TransGen g.Needs b.1 a.1
  have htrans : IsTrans _ Below :=
    ⟨fun a b c hab hbc => ⟨hbc.1, hbc.2.trans hab.2⟩⟩
  have hirrefl : Std.Irrefl Below :=
    ⟨fun a ha => hfree ⟨a.1, ha.1, onCycle_iff.2 ha.2⟩⟩
  have hwf : WellFounded Below := Finite.wellFounded_of_trans_of_irrefl Below
  obtain ⟨least, hreach, hleast⟩ := hwf.has_min
    {a | Relation.ReflTransGen g.DependsOn name a.1} ⟨⟨name, hname⟩, .refl⟩
  obtain ⟨d, hd, hneeds⟩ := h least.1 least.2
  exact hleast ⟨d, hd⟩ (hreach.tail hneeds.2) ⟨hreach, .single hneeds⟩

end Dependencies

/-! ### Peeling -/

/-- Levels are peeled off until nothing waits. -/
inductive Peels : List Edge → List (List String) → Prop
  | nil : Peels [] []
  | cons {waiting : List Edge} {later : List (List String)} :
    (∃ e ∈ waiting, Edge.ready waiting e = true) →
    Peels (waiting.filter fun e => !Edge.ready waiting e) later →
    Peels waiting ((waiting.filter (Edge.ready waiting)).map Prod.fst :: later)

/-- Levels are peeled off until none of the names left is ready. -/
inductive Jams : List Edge → List Edge → Prop
  | stuck {waiting : List Edge} : waiting ≠ [] →
    (∀ e ∈ waiting, Edge.ready waiting e = false) → Jams waiting waiting
  | later {waiting left : List Edge} :
    Jams (waiting.filter fun e => !Edge.ready waiting e) left → Jams waiting left

theorem Edge.ready_iff {waiting : List Edge} {e : Edge} :
    Edge.ready waiting e = true ↔ ∀ d ∈ e.2, d ≠ e.1 → d ∉ waiting.map Prod.fst := by
  unfold ready
  rw [List.all_eq_true]
  refine forall₂_congr fun d _ => ?_
  by_cases hself : d = e.1
  · simp [hself]
  · simp [hself]

/-- **Peeling comes to an end within as many rounds as names wait.** -/
theorem peel_ends {rounds : Nat} {waiting : List Edge} (hrounds : waiting.length ≤ rounds) :
    (∃ layers, peel rounds waiting = .ok layers ∧ Peels waiting layers) ∨
      ∃ left, peel rounds waiting = .error (left.map Prod.fst) ∧ Jams waiting left := by
  induction rounds generalizing waiting with
  | zero =>
    obtain rfl := List.eq_nil_of_length_eq_zero (Nat.le_zero.1 hrounds)
    exact .inl ⟨[], by rw [peel], .nil⟩
  | succ rounds ih =>
    by_cases hnil : waiting = []
    · subst hnil
      exact .inl ⟨[], by rw [peel], .nil⟩
    · rw [peel.eq_3 _ _ hnil]
      split
      · next hnone =>
        rw [List.filter_eq_nil_iff] at hnone
        refine .inr ⟨waiting, rfl, .stuck hnil fun e he => ?_⟩
        exact Bool.eq_false_iff.2 (hnone e he)
      · next layer hsome =>
        obtain ⟨e, he, hready⟩ : ∃ e ∈ waiting, Edge.ready waiting e = true := by
          by_contra hnone
          push Not at hnone
          exact hsome (List.filter_eq_nil_iff.2 hnone)
        have hfewer : (waiting.filter fun e => !Edge.ready waiting e).length < waiting.length :=
          List.length_filter_lt_length_iff_exists.2 ⟨e, he, by simp [hready]⟩
        have hleft : (waiting.filter fun e => !Edge.ready waiting e).length ≤ rounds := by omega
        rcases ih hleft with ⟨later, hpeel, hlater⟩ | ⟨left, hpeel, hleft⟩
        · exact .inl ⟨_, by rw [hpeel]; rfl, .cons ⟨e, he, hready⟩ hlater⟩
        · exact .inr ⟨left, by rw [hpeel]; rfl, .later hleft⟩

/-! ### What each end says of cycles -/

namespace Dependencies

variable {g : Dependencies}

/-- No name that waits no more leads to a cycle. -/
def Freed (g : Dependencies) (waiting : List Edge) : Prop :=
  ∀ name ∈ g.nodes, name ∉ waiting.map Prod.fst → ¬ g.Entangled name

theorem freed_entries : g.Freed g.edges.entries :=
  fun _ hname hnot => absurd hname hnot

theorem Freed.round {waiting : List Edge} (h : g.Freed waiting) (hcomplete : g.Complete)
    (hsub : waiting.Sublist g.edges.entries) :
    g.Freed (waiting.filter fun e => !Edge.ready waiting e) := by
  intro name hname hgone
  by_cases hwaits : name ∈ waiting.map Prod.fst
  · obtain ⟨e, he, rfl⟩ := List.mem_map.1 hwaits
    have hready : Edge.ready waiting e = true := by
      by_contra hnot
      exact hgone (List.mem_map.2 ⟨e, List.mem_filter.2 ⟨he, by simpa using hnot⟩, rfl⟩)
    refine not_entangled_of_needs fun d hneeds => ?_
    obtain ⟨deps, hdeps, hd⟩ := hneeds.2
    have hsame : deps = e.2 :=
      Option.some.inj (hdeps.symm.trans (Table.get?_eq_some_iff.2 (hsub.subset he)))
    rw [hsame] at hd
    exact h d (hcomplete _ d hneeds.2) (Edge.ready_iff.1 hready d hd hneeds.1)
  · exact h name hname hwaits

/-- **Where nothing is left there is no cycle.** -/
theorem Freed.of_peels {waiting : List Edge} {layers : List (List String)}
    (hpeels : Peels waiting layers) (h : g.Freed waiting) (hcomplete : g.Complete)
    (hsub : waiting.Sublist g.edges.entries) : g.Freed [] := by
  induction hpeels with
  | nil => exact h
  | cons _ _ ih => exact ih (h.round hcomplete hsub) (List.filter_sublist.trans hsub)

/-- **What is left at the end are names in order, and exactly those that lead to a cycle.** -/
theorem Freed.of_jams {waiting left : List Edge} (hjams : Jams waiting left)
    (h : g.Freed waiting) (hcomplete : g.Complete) (hsub : waiting.Sublist g.edges.entries) :
    left.Sublist g.edges.entries ∧ left ≠ [] ∧
      ∀ name, name ∈ left.map Prod.fst ↔ name ∈ g.nodes ∧ g.Entangled name := by
  induction hjams with
  | @stuck waiting hsome hnone =>
    have hneeds : ∀ n ∈ waiting.map Prod.fst, ∃ d ∈ waiting.map Prod.fst, g.Needs n d := by
      intro n hn
      obtain ⟨e, he, rfl⟩ := List.mem_map.1 hn
      by_contra halone
      push Not at halone
      refine Bool.eq_false_iff.1 (hnone e he) (Edge.ready_iff.2 fun d hd hne hwaits => ?_)
      exact halone d hwaits ⟨hne, dependsOn_iff.2 ⟨e, hsub.subset he, rfl, hd⟩⟩
    refine ⟨hsub, hsome, fun name => ⟨fun hname => ?_, fun ⟨hname, hleads⟩ => ?_⟩⟩
    · exact ⟨(hsub.map Prod.fst).subset hname, entangled_of_needs hneeds hname⟩
    · by_contra hgone
      exact h name hname hgone hleads
  | later _ ih => exact ih (h.round hcomplete hsub) (List.filter_sublist.trans hsub)

end Dependencies

/-! ### What stands in the levels -/

/-- The name stands in the level with this number. -/
def StandsAt (layers : List (List String)) (i : Nat) (name : String) : Prop :=
  ∃ level, layers[i]? = some level ∧ name ∈ level

theorem Earlier.standsAt {levels : List (List String)} {a b : String} (h : Earlier levels a b)
    (hnodup : levels.flatten.Nodup) {i : Nat} (hb : StandsAt levels i b) :
    ∃ j < i, StandsAt levels j a := by
  obtain ⟨before, after, rfl, ha, hafter⟩ := h
  obtain ⟨level, hlevel, ha⟩ := List.mem_flatten.1 ha
  obtain ⟨j, hj, rfl⟩ := List.mem_iff_getElem.1 hlevel
  refine ⟨j, ?_, before[j], ?_, ha⟩
  · by_contra hle
    have hi : i < before.length := by omega
    obtain ⟨level', hlevel', hb⟩ := hb
    rw [List.getElem?_append_left hi] at hlevel'
    have hbefore : b ∈ before.flatten :=
      List.mem_flatten.2 ⟨level', List.mem_of_getElem? hlevel', hb⟩
    rw [List.flatten_append] at hnodup
    exact (List.nodup_append.1 hnodup).2.2 b hbefore b hafter rfl
  · rw [List.getElem?_append_left hj, List.getElem?_eq_getElem hj]

namespace Peels

variable {waiting : List Edge} {layers : List (List String)} {name : String}

theorem sublist (h : Peels waiting layers) :
    ∀ level ∈ layers, level ≠ [] ∧ level.Sublist (waiting.map Prod.fst) := by
  induction h with
  | nil => simp
  | @cons waiting later hsome _ ih =>
    intro level hlevel
    rcases List.mem_cons.1 hlevel with rfl | hlater
    · obtain ⟨e, he, hready⟩ := hsome
      refine ⟨List.ne_nil_of_mem (List.mem_map.2 ⟨e, List.mem_filter.2 ⟨he, hready⟩, rfl⟩), ?_⟩
      exact List.filter_sublist.map Prod.fst
    · obtain ⟨hne, hsub⟩ := ih level hlater
      exact ⟨hne, hsub.trans (List.filter_sublist.map Prod.fst)⟩

theorem ready_of_first (h : Peels waiting layers) (hname : StandsAt layers 0 name) :
    ∃ e ∈ waiting, e.1 = name ∧ Edge.ready waiting e = true := by
  obtain ⟨level, hlevel, hname⟩ := hname
  cases h with
  | nil => cases hlevel
  | cons _ _ =>
    cases hlevel
    obtain ⟨e, he, rfl⟩ := List.mem_map.1 hname
    exact ⟨e, (List.mem_filter.1 he).1, rfl, (List.mem_filter.1 he).2⟩

/-- **A name depends on another one in the level just before its own:** otherwise it would
have been ready one round earlier. -/
theorem needs_previous (h : Peels waiting layers) {i : Nat}
    (hname : StandsAt layers (i + 1) name) :
    ∃ e ∈ waiting, e.1 = name ∧ ∃ d ∈ e.2, d ≠ name ∧ StandsAt layers i d := by
  induction h generalizing i with
  | nil =>
    obtain ⟨_, hlevel, _⟩ := hname
    cases hlevel
  | @cons waiting later hsome hlater ih =>
    cases i with
    | succ i =>
      obtain ⟨e, he, hrest⟩ := ih (i := i) hname
      exact ⟨e, List.mem_of_mem_filter he, hrest⟩
    | zero =>
      obtain ⟨e, he, rfl, hready⟩ := hlater.ready_of_first hname
      obtain ⟨he, hnot⟩ := List.mem_filter.1 he
      -- What kept it from being ready went with the level before.
      obtain ⟨d, hd, hne, hwaits⟩ : ∃ d ∈ e.2, d ≠ e.1 ∧ d ∈ waiting.map Prod.fst := by
        by_contra halone
        push Not at halone
        rw [Edge.ready_iff.2 halone] at hnot
        cases hnot
      refine ⟨e, he, rfl, d, hd, hne, _, rfl, ?_⟩
      obtain ⟨x, hx, rfl⟩ := List.mem_map.1 hwaits
      by_contra hgone
      refine Edge.ready_iff.1 hready x.1 hd hne (List.mem_map.2 ⟨x, ?_, rfl⟩)
      refine List.mem_filter.2 ⟨hx, ?_⟩
      by_contra hxready
      rw [Bool.not_eq_true', Bool.not_eq_false] at hxready
      exact hgone (List.mem_map.2 ⟨x, List.mem_filter.2 ⟨hx, hxready⟩, rfl⟩)

end Peels

namespace Dependencies

variable {g : Dependencies} {layers : List (List String)}

/-- A graph in levels. -/
structure Layered (g : Dependencies) (layers : List (List String)) : Prop where
  /-- Every name stands in exactly one level, once. -/
  perm : layers.flatten.Perm g.nodes
  /-- No level is empty, and the names of a level stand in it in order of the graph. -/
  ordered : ∀ level ∈ layers, level ≠ [] ∧ level.Sublist g.nodes
  /-- The number of a name's level is the length of the longest chain that starts at it. -/
  longest : ∀ i name, StandsAt layers i name → IsGreatest {length | g.Chain name length} i
  /-- What a name depends on, itself apart, stands in a level with a lower number. -/
  below : ∀ i name d, StandsAt layers i name → g.Needs name d → ∃ j < i, StandsAt layers j d
  /-- Wherever each name is put above what it depends on, no name is put lower. -/
  lowest : ∀ place : String → Nat, (∀ name d, g.Needs name d → place d < place name) →
    ∀ i name, StandsAt layers i name → i ≤ place name

/-- A chain goes down by at least one level with each of its edges. -/
theorem Chain.le_of_standsAt
    (hbelow : ∀ i name d, StandsAt layers i name → g.Needs name d → ∃ j < i, StandsAt layers j d)
    {name : String} {length : Nat} (h : g.Chain name length) {i : Nat}
    (hname : StandsAt layers i name) : length ≤ i := by
  induction h generalizing i with
  | nil => exact Nat.zero_le i
  | @cons name d length hneeds _ ih =>
    obtain ⟨j, hj, hd⟩ := hbelow i name d hname hneeds
    have hle : length ≤ j := ih hd
    omega

theorem Chain.le_place {place : String → Nat}
    (hplace : ∀ name d, g.Needs name d → place d < place name) {name : String} {length : Nat}
    (h : g.Chain name length) : length ≤ place name := by
  induction h with
  | nil => exact Nat.zero_le _
  | @cons name d length hneeds _ ih =>
    have hlt : place d < place name := hplace name d hneeds
    omega

/-- From each name a chain goes down through all the levels below. -/
theorem chain_of_standsAt (h : Peels g.edges.entries layers) {i : Nat} {name : String}
    (hname : StandsAt layers i name) : g.Chain name i := by
  induction i generalizing name with
  | zero => exact .nil name
  | succ i ih =>
    obtain ⟨e, he, rfl, d, hd, hne, hprevious⟩ := h.needs_previous hname
    exact .cons ⟨hne, dependsOn_iff.2 ⟨e, he, rfl, hd⟩⟩ (ih hprevious)

theorem layered_of_peels (h : g.levels = .ok layers) (hpeels : Peels g.edges.entries layers) :
    g.Layered layers := by
  have hbelow (i : Nat) (name d : String) (hname : StandsAt layers i name)
      (hneeds : g.Needs name d) : ∃ j < i, StandsAt layers j d := by
    obtain ⟨hne, deps, hdeps, hd⟩ := hneeds
    exact (levels_earlier h hdeps hd hne).standsAt (nodup_levels h) hname
  exact {
    perm := levels_perm h
    ordered := hpeels.sublist
    longest := fun i name hname =>
      ⟨chain_of_standsAt hpeels hname, fun length hlength => hlength.le_of_standsAt hbelow hname⟩
    below := hbelow
    lowest := fun place hplace i name hname =>
      (chain_of_standsAt hpeels hname).le_place hplace }

/-! ### The three outcomes -/

theorem find?_known_iff {deps : List String} :
    (deps.find? fun d => !g.edges.contains d) = none ↔ ∀ d ∈ deps, d ∈ g.nodes := by
  rw [List.find?_eq_none]
  refine forall₂_congr fun d _ => ?_
  rw [Bool.not_eq_true', Bool.not_eq_false]
  exact Table.contains_iff

theorem firstUnknown_eq_some_iff {name d : String} :
    g.firstUnknown = some (name, d) ↔ g.FirstUnknown name d := by
  have hknown (known : List String) :
      (∀ d' ∈ known, (!!g.edges.contains d') = true) ↔ ∀ d' ∈ known, d' ∈ g.nodes :=
    forall₂_congr fun d' _ => by rw [Bool.not_not]; exact Table.contains_iff
  unfold firstUnknown FirstUnknown
  rw [List.findSome?_eq_some_iff]
  constructor
  · rintro ⟨before, e, after, hentries, hfound, hbefore⟩
    obtain ⟨d', hfound, heq⟩ := Option.map_eq_some_iff.1 hfound
    cases heq
    obtain ⟨hd, known, rest, hdeps, hfirst⟩ := List.find?_eq_some_iff_append.1 hfound
    refine ⟨before, after, known, rest, by rw [← hdeps]; exact hentries, ?_, ?_, ?_⟩
    · exact fun e' he' => find?_known_iff.1 (Option.map_eq_none_iff.1 (hbefore e' he'))
    · exact (hknown known).1 hfirst
    · intro hmem
      rw [Table.contains_iff.2 hmem] at hd
      cases hd
  · rintro ⟨before, after, known, rest, hentries, hbefore, hfirst, hd⟩
    refine ⟨before, _, after, hentries, Option.map_eq_some_iff.2 ⟨d, ?_, rfl⟩, ?_⟩
    · refine List.find?_eq_some_iff_append.2 ⟨?_, known, rest, rfl, (hknown known).2 hfirst⟩
      rw [Bool.not_eq_true', ← Bool.not_eq_true]
      exact fun hcontains => hd (Table.contains_iff.1 hcontains)
    · exact fun e' he' => Option.map_eq_none_iff.2 (find?_known_iff.2 (hbefore e' he'))

theorem firstUnknown_eq_none_iff : g.firstUnknown = none ↔ g.Complete := by
  unfold firstUnknown
  rw [List.findSome?_eq_none_iff]
  constructor
  · intro h name d hdepends
    obtain ⟨e, he, -, hd⟩ := dependsOn_iff.1 hdepends
    exact find?_known_iff.1 (Option.map_eq_none_iff.1 (h e he)) d hd
  · intro h e he
    refine Option.map_eq_none_iff.2 (find?_known_iff.2 fun d hd => ?_)
    exact h e.1 d (dependsOn_iff.2 ⟨e, he, rfl, hd⟩)

theorem levels_cases (g : Dependencies) :
    (∃ name d, g.levels = .error (.unknownDependency name d) ∧ g.FirstUnknown name d ∧
      ¬ g.Complete) ∨
    (∃ members, g.levels = .error (.cyclicDependency members) ∧ g.Complete ∧
      (∃ name, g.OnCycle name) ∧ members.Sublist g.nodes ∧
      ∀ name, name ∈ members ↔ name ∈ g.nodes ∧ g.Entangled name) ∨
    (∃ layers, g.levels = .ok layers ∧ g.Complete ∧ (∀ name, ¬ g.OnCycle name) ∧
      g.Layered layers) := by
  cases hunknown : g.firstUnknown with
  | some found =>
    refine .inl ⟨found.1, found.2, by unfold levels; rw [hunknown], ?_, ?_⟩
    · exact firstUnknown_eq_some_iff.1 hunknown
    · intro hcomplete
      rw [firstUnknown_eq_none_iff.2 hcomplete] at hunknown
      cases hunknown
  | none =>
    have hcomplete : g.Complete := firstUnknown_eq_none_iff.1 hunknown
    have hrounds : g.edges.entries.length ≤ g.edges.size := Nat.le_refl _
    rcases peel_ends hrounds with ⟨layers, hpeel, hpeels⟩ | ⟨left, hpeel, hjams⟩
    · have hlevels : g.levels = .ok layers := by
        unfold levels
        rw [hunknown]
        simp only [hpeel]
      have hfree : g.Freed [] := freed_entries.of_peels hpeels hcomplete (List.Sublist.refl _)
      refine .inr (.inr ⟨layers, hlevels, hcomplete, fun name hcycle => ?_,
        layered_of_peels hlevels hpeels⟩)
      have hname : name ∈ g.nodes := by
        obtain ⟨d, hneeds, -⟩ := Relation.TransGen.head'_iff.1 (onCycle_iff.1 hcycle)
        exact mem_nodes_of_dependsOn hneeds.2
      exact hfree name hname List.not_mem_nil ⟨name, .refl, hcycle⟩
    · obtain ⟨hsub, hsome, hmembers⟩ :=
        freed_entries.of_jams hjams hcomplete (List.Sublist.refl _)
      refine .inr (.inl ⟨left.map Prod.fst, ?_, hcomplete, ?_, hsub.map Prod.fst, hmembers⟩)
      · unfold levels
        rw [hunknown]
        simp only [hpeel]
      · obtain ⟨e, he⟩ := List.exists_mem_of_ne_nil left hsome
        obtain ⟨-, name, -, hcycle⟩ := (hmembers e.1).1 (List.mem_map.2 ⟨e, he, rfl⟩)
        exact ⟨name, hcycle⟩

/-- **What the levels are.**  There are none exactly where something unknown is depended on,
and the first such name is reported with the first unknown name it depends on; or where
nothing is unknown and there is a cycle, and the names from which one can be reached are
reported in order.  Otherwise every name stands as deep as its longest chain of
dependencies. -/
theorem levels_exact (g : Dependencies) :
    ((∃ name d, g.levels = .error (.unknownDependency name d)) ↔ ¬ g.Complete) ∧
    (∀ name d, g.levels = .error (.unknownDependency name d) → g.FirstUnknown name d) ∧
    ((∃ members, g.levels = .error (.cyclicDependency members)) ↔
      g.Complete ∧ ∃ name, g.OnCycle name) ∧
    (∀ members, g.levels = .error (.cyclicDependency members) → members.Sublist g.nodes ∧
      ∀ name, name ∈ members ↔ name ∈ g.nodes ∧ g.Entangled name) ∧
    ((∃ layers, g.levels = .ok layers) ↔ g.Complete ∧ ∀ name, ¬ g.OnCycle name) ∧
    ∀ layers, g.levels = .ok layers → g.Layered layers := by
  rcases levels_cases g with ⟨name, d, hlevels, hfirst, hcomplete⟩ |
    ⟨members, hlevels, hcomplete, ⟨name, hcycle⟩, hmembers⟩ |
    ⟨layers, hlevels, hcomplete, hnone, hlayered⟩
  · refine ⟨⟨fun _ => hcomplete, fun _ => ⟨name, d, hlevels⟩⟩, fun name' d' h => ?_, ?_⟩
    · rw [hlevels] at h
      cases h
      exact hfirst
    · simp [hlevels, hcomplete]
  · refine ⟨by simp [hlevels, hcomplete], by simp [hlevels], ?_, fun members' h => ?_, ?_⟩
    · exact ⟨fun _ => ⟨hcomplete, name, hcycle⟩, fun _ => ⟨members, hlevels⟩⟩
    · rw [hlevels] at h
      cases h
      exact hmembers
    · have hsome : ¬ ∀ name, ¬ g.OnCycle name := fun hnone => hnone name hcycle
      simp [hlevels, hsome]
  · refine ⟨by simp [hlevels, hcomplete], by simp [hlevels], by simp [hlevels, hnone],
      by simp [hlevels], ⟨fun _ => ⟨hcomplete, hnone⟩, fun _ => ⟨layers, hlevels⟩⟩,
      fun layers' h => ?_⟩
    rw [hlevels] at h
    cases h
    exact hlayered

/-- A name that depends on itself makes no cycle. -/
example : (Dependencies.empty.insert "a" ["a"] |>.insert "b" ["a", "c"] |>.insert "c" []).levels =
    .ok [["a", "c"], ["b"]] := by decide

end Dependencies

end Provisioning
