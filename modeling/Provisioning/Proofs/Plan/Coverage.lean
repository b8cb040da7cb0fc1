/-
The graph covers what is read.

What a resource waits for and what is stored for it are taken from one tree by two recursions
that go different ways at a whole resource.  The first adds its name; the second drops the name
and keeps the fields.  So reading may come to outputs that the fields of an embedded resource
refer to, and these have to be waited for too.  They are, because the first recursion goes into
the fields as well: what it collects are the names of all whole resources and of all outputs in
the tree, at any depth.

What is waited for is an edge of the graph, so it stands in an earlier level.  Keys make no
difference: where two values of a tree have one address, what is stored there is stored for one
of the two, and both are parts of the tree.
-/
import Provisioning.Proofs.Addresses
import Provisioning.Proofs.Cycles
import Provisioning.Proofs.Declare.References
import Provisioning.Proofs.Plan.Order

namespace Provisioning

/-! ### The names in a tree -/

namespace Expr

/-- The resource that an expression names itself, as a whole or as the owner of an output. -/
def names? : Expr → Option String
  | .resource name _ _ _ => some name
  | .output o => some o.resource
  | _ => none

theorem mentions_of_part {e part : Expr} {path : List String} {n : String}
    (h : e.Part path part) (hn : part.names? = some n) : n ∈ e.mentions := by
  induction h with
  | whole e =>
    cases e with
    | resource name typeId schema properties =>
      obtain rfl := Option.some.inj hn
      exact List.mem_cons_self
    | output o =>
      obtain rfl := Option.some.inj hn
      exact List.mem_cons_self
    | literal _ | array _ | hash _ => cases hn
  | item hitem _ ih => exact mem_mentionsItems.2 ⟨_, List.mem_of_getElem? hitem, ih hn⟩
  | field hfield _ ih => exact mem_mentionsFields.2 ⟨_, hfield, ih hn⟩
  | property hfield _ ih =>
    exact List.mem_cons_of_mem _ (mem_mentionsFields.2 ⟨_, hfield, ih hn⟩)

/-- Whatever is mentioned is named by a part. -/
theorem part_of_mentions {e : Expr} {n : String} (h : n ∈ e.mentions) :
    ∃ path part, e.Part path part ∧ part.names? = some n := by
  induction e using induct with
  | literal v => cases h
  | output o =>
    obtain rfl := List.mem_singleton.1 h
    exact ⟨[], _, .whole _, rfl⟩
  | array items ih =>
    obtain ⟨item, hitem, h⟩ := mem_mentionsItems.1 h
    obtain ⟨path, part, hpart, hn⟩ := ih item hitem h
    obtain ⟨i, hi⟩ := List.mem_iff_getElem?.1 hitem
    exact ⟨toString i :: path, part, .item hi hpart, hn⟩
  | hash fields ih =>
    obtain ⟨⟨k, field⟩, hfield, h⟩ := mem_mentionsFields.1 h
    obtain ⟨path, part, hpart, hn⟩ := ih _ hfield h
    exact ⟨k :: path, part, .field hfield hpart, hn⟩
  | resource name typeId schema properties ih =>
    rcases List.mem_cons.1 h with rfl | h
    · exact ⟨[], _, .whole _, rfl⟩
    · obtain ⟨⟨k, field⟩, hfield, h⟩ := mem_mentionsFields.1 h
      obtain ⟨path, part, hpart, hn⟩ := ih _ hfield h
      exact ⟨k :: path, part, .property hfield hpart, hn⟩

end Expr

/-- A resource waits for exactly the others that are named anywhere in its tree. -/
theorem Resource.mem_waits_iff {r : Resource} {d : String} :
    d ∈ r.waits ↔ d ≠ r.name ∧ ∃ path part, r.toExpr.Part path part ∧ part.names? = some d := by
  have hmentions : d ∈ r.toExpr.mentions ↔
      ∃ path part, r.toExpr.Part path part ∧ part.names? = some d :=
    ⟨Expr.part_of_mentions, fun ⟨_, _, hpart, hd⟩ => Expr.mentions_of_part hpart hd⟩
  rw [← hmentions, toExpr, Expr.mentions, waits, mem_distinct, List.mem_filter, List.mem_cons,
    decide_eq_true_eq, and_comm]
  exact and_congr_right fun hne => (or_iff_right hne).symm

/-! ### The levels -/

/-- Both names stand in levels, and wherever they stand the first one stands earlier. -/
structure StandsBefore (levels : List (List String)) (a b : String) : Prop where
  left : ∃ i, StandsAt levels i a
  right : ∃ i, StandsAt levels i b
  lt : ∀ i j, StandsAt levels i a → StandsAt levels j b → i < j

theorem exists_standsAt {levels : List (List String)} {a : String} (h : a ∈ levels.flatten) :
    ∃ i, StandsAt levels i a := by
  obtain ⟨level, hlevel, ha⟩ := List.mem_flatten.1 h
  obtain ⟨i, hi⟩ := List.mem_iff_getElem?.1 hlevel
  exact ⟨i, level, hi, ha⟩

theorem StandsAt.unique {levels : List (List String)} {a : String} {i j : Nat}
    (hnodup : levels.flatten.Nodup) (hi : StandsAt levels i a) (hj : StandsAt levels j a) :
    i = j := by
  obtain ⟨level, hlevel, ha⟩ := hi
  obtain ⟨level', hlevel', ha'⟩ := hj
  obtain ⟨hilt, rfl⟩ := List.getElem?_eq_some_iff.1 hlevel
  obtain ⟨hjlt, rfl⟩ := List.getElem?_eq_some_iff.1 hlevel'
  have hdisjoint := List.pairwise_iff_getElem.1 (List.nodup_flatten.1 hnodup).2
  rcases Nat.lt_trichotomy i j with hlt | heq | hlt
  · exact absurd ha' (hdisjoint i j hilt hjlt hlt ha)
  · exact heq
  · exact absurd ha (hdisjoint j i hjlt hilt hlt ha')

theorem Earlier.standsBefore {levels : List (List String)} {a b : String}
    (hnodup : levels.flatten.Nodup) (h : Earlier levels a b) : StandsBefore levels a b where
  left := exists_standsAt h.mem_left
  right := exists_standsAt h.mem_right
  lt := by
    intro i j ha hb
    obtain ⟨i', hlt, ha'⟩ := h.standsAt hnodup hb
    rwa [ha.unique hnodup ha']

/-- What the graph promises for a resource whose values are read. -/
structure Resource.Covered (r : Resource) (levels : List (List String)) (rom : Rom) : Prop where
  /-- Every output that reading it comes to is its own or one of a resource it waits for. -/
  outputs : ∀ o, rom.Holds r.name o → o.resource = r.name ∨ o.resource ∈ r.waits
  /-- What it waits for stands in an earlier level. -/
  earlier : ∀ d ∈ r.waits, StandsBefore levels d r.name

/-- **The graph covers what is read.**  Wherever a plan compiles, reading a declared resource
comes to no outputs but its own and those of resources that it waits for, which stand in earlier
levels; and what a declared resource waits for is exactly what its tree names, itself apart. -/
theorem Plan.covers (plan : Plan) :
    (∀ p, plan.compile = .ok p → ∃ levels, plan.levels = .ok levels ∧
      ∀ n r, plan.declaration.get? n = some r → r.Covered levels p.tables.rom) ∧
    ∀ n r, plan.declaration.get? n = some r → r.name = n ∧ ∀ d, d ∈ r.waits ↔
      d ≠ n ∧ ∃ path part, r.toExpr.Part path part ∧ part.names? = some d := by
  have hname {n : String} {r : Resource} (hr : plan.declaration.get? n = some r) : r.name = n :=
    Declaration.get?_name hr
  refine ⟨fun p hp => ?_, fun n r hr => ⟨hname hr, fun d => ?_⟩⟩
  · obtain ⟨c, rfl⟩ := Compilation.compile_eq_ok.1 hp
    refine ⟨c.levels, c.levels_eq, fun n r hr => ?_⟩
    obtain rfl := hname hr
    exact {
      outputs := by
        intro o hholds
        by_cases hown : o.resource = r.name
        · exact .inl hown
        · exact .inr (Resource.waits_of_output (outputs_of_holds c.rom_eq hr hholds) hown)
      earlier := by
        intro d hd
        obtain ⟨hne, -⟩ := Resource.mem_waits_iff.1 hd
        have hearlier : Earlier c.levels d r.name :=
          Compilation.earlier_of_dependsOn (Compilation.dependsOn_of_waits hr hd) hne
        exact hearlier.standsBefore (Dependencies.nodup_levels c.levels_eq) }
  · obtain rfl := hname hr
    exact Resource.mem_waits_iff

/-- A resource whose field holds a whole resource, whose field refers to an output of a third. -/
def nestingResource : Resource :=
  ⟨"motd", "file", plainSchema false,
    [("name", .literal (.str "motd")), ("contents", .array [.resource "user" "file"
      (plainSchema false) [("name", .output ⟨"host", "size"⟩)]])]⟩

/-- It is declared behind the two others. -/
def nestingPlan : Plan where
  declaration := {
    catalog := Table.ofList [("file", plainSchema false)]
    resources := Table.ofList [("host", plainResource false "host"),
      ("user", ⟨"user", "file", plainSchema false, [("name", .output ⟨"host", "size"⟩)]⟩),
      ("motd", nestingResource)]
    declared := by
      intro e he
      have hmem := Entries.mem_of_mem_ofList he
      simp only [List.mem_cons, List.not_mem_nil, or_false] at hmem
      rcases hmem with rfl | rfl | rfl <;> refine ⟨rfl, rfl, rfl, ?_⟩ <;>
        simp [plainResource, nestingResource, Entries.keys, plainSchema, Schema.settable] }
  prior := Table.empty
  createMissing := false

/-- Reading the resource comes to an output that only the resource inside it refers to; the owner
of the output is waited for as well, and stands earlier. -/
theorem covers_nesting :
    ∃ p, nestingPlan.compile = .ok p ∧ p.tables.rom.Holds "motd" ⟨"host", "size"⟩ ∧
      "host" ∈ nestingResource.waits ∧
      ∃ levels, nestingPlan.levels = .ok levels ∧ StandsBefore levels "host" "motd" := by
  obtain ⟨p, hp, hholds⟩ : ∃ p, nestingPlan.compile = .ok p ∧
      p.tables.rom.Holds "motd" ⟨"host", "size"⟩ := by
    refine ⟨_, rfl, "motd.contents.0.name", ?_, rfl⟩
    exact .head (b := "motd.contents") ⟨_, rfl, by decide +kernel⟩
      (.head (b := "motd.contents.0") ⟨_, rfl, by decide +kernel⟩
        (.single ⟨_, rfl, by decide +kernel⟩))
  obtain ⟨levels, hlevels, hcovered⟩ := nestingPlan.covers.1 p hp
  have hread := hcovered "motd" nestingResource rfl
  have hwaits := (hread.outputs _ hholds).resolve_left (by decide)
  exact ⟨p, hp, hholds, hwaits, levels, hlevels, hread.earlier _ hwaits⟩

end Provisioning
