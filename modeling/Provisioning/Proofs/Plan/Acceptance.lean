/-
Which plans compile, and what is reported of the others.

Compiling looks at a plan in four rounds: at the graph, at what has to be deleted, at the
fields of what is declared, and at the addresses of the declared values.  Each round goes
through the plan in an order of its own and stops at the first thing that is wrong, and no
round begins before all rounds ahead of it are through.  Nothing else can fail.  So five
conditions decide whether a plan compiles, and the error tells which of them is the first
that is violated and who violates it first.

For every round there are two statements, when it goes through and with which error it stops.
Most rounds run a computation along a list; such a run stops at the first element that is not
as it should be, which is said once, for any list.
-/
import Provisioning.Proofs.Addresses
import Provisioning.Proofs.Cycles
import Provisioning.Proofs.Plan.Recompile

namespace Provisioning

/-! ### The first of a list that fails -/

section

variable {α β ε : Type} {P : α → Prop} {l : List α} {a b : α}

/-- `a` is the first element of the list that does not have the property. -/
def FirstFailing (P : α → Prop) (l : List α) (a : α) : Prop :=
  ∃ before after, l = before ++ a :: after ∧ (∀ x ∈ before, P x) ∧ ¬ P a

namespace FirstFailing

theorem mem (h : FirstFailing P l a) : a ∈ l := by
  obtain ⟨before, after, rfl, -, -⟩ := h
  simp

theorem not_forall (h : FirstFailing P l a) : ¬ ∀ x ∈ l, P x := fun hall => by
  obtain ⟨-, -, -, -, hfails⟩ := id h
  exact hfails (hall a h.mem)

theorem exists_of_not_forall (h : ¬ ∀ x ∈ l, P x) : ∃ a, FirstFailing P l a := by
  induction l with
  | nil => exact absurd nofun h
  | cons x rest ih =>
    by_cases hx : P x
    · obtain ⟨a, before, after, rfl, hbefore, ha⟩ := ih fun hrest =>
        h (List.forall_mem_cons.2 ⟨hx, hrest⟩)
      exact ⟨a, x :: before, after, rfl, List.forall_mem_cons.2 ⟨hx, hbefore⟩, ha⟩
    · exact ⟨x, [], rest, rfl, nofun, hx⟩

theorem cons_iff {x : α} :
    FirstFailing P (x :: l) a ↔ (¬ P x ∧ a = x) ∨ (P x ∧ FirstFailing P l a) := by
  constructor
  · rintro ⟨before, after, heq, hbefore, ha⟩
    cases before with
    | nil =>
      obtain ⟨rfl, rfl⟩ := List.cons.inj heq
      exact .inl ⟨ha, rfl⟩
    | cons y before =>
      obtain ⟨rfl, rfl⟩ := List.cons.inj heq
      rw [List.forall_mem_cons] at hbefore
      exact .inr ⟨hbefore.1, before, after, rfl, hbefore.2, ha⟩
  · rintro (⟨hx, rfl⟩ | ⟨hx, before, after, rfl, hbefore, ha⟩)
    · exact ⟨[], l, rfl, nofun, hx⟩
    · exact ⟨x :: before, after, rfl, List.forall_mem_cons.2 ⟨hx, hbefore⟩, ha⟩

theorem congr {Q : α → Prop} (h : ∀ x ∈ l, P x ↔ Q x) :
    FirstFailing P l a ↔ FirstFailing Q l a := by
  induction l with
  | nil => exact iff_of_false (fun h => nomatch h.mem) fun h => nomatch h.mem
  | cons x rest ih =>
    rw [List.forall_mem_cons] at h
    rw [cons_iff, cons_iff, ih h.2, h.1]

theorem append_iff {l' : List α} (h : ∀ x ∈ l', P x) :
    FirstFailing P (l' ++ l) a ↔ FirstFailing P l a := by
  induction l' with
  | nil => rfl
  | cons x rest ih =>
    rw [List.forall_mem_cons] at h
    rw [List.cons_append, cons_iff, ih h.2]
    simp [h.1]

theorem map_iff {f : β → α} {l : List β} :
    FirstFailing P (l.map f) a ↔ ∃ b, FirstFailing (fun b => P (f b)) l b ∧ f b = a := by
  constructor
  · rintro ⟨before, after, heq, hbefore, ha⟩
    obtain ⟨before, tail, rfl, rfl, htail⟩ := List.map_eq_append_iff.1 heq
    obtain ⟨b, after, rfl, rfl, rfl⟩ := List.map_eq_cons_iff.1 htail
    exact ⟨b, ⟨before, after, rfl, by simpa using hbefore, ha⟩, rfl⟩
  · rintro ⟨b, ⟨before, after, rfl, hbefore, hb⟩, rfl⟩
    exact ⟨before.map f, after.map f, by simp, by simpa using hbefore, hb⟩

/-- What is dropped from the list has the property, so it cannot be the first that fails. -/
theorem filter_iff {q : α → Bool} (hq : ∀ x ∈ l, q x = false → P x) :
    FirstFailing P (l.filter q) a ↔ FirstFailing P l a := by
  induction l with
  | nil => rfl
  | cons x rest ih =>
    rw [List.forall_mem_cons] at hq
    rw [List.filter_cons, cons_iff, ← ih hq.2]
    split
    · rw [cons_iff]
    · next hx =>
      have hP : P x := hq.1 (by simpa using hx)
      simp [hP]

theorem find?_iff {p : α → Bool} :
    (l.find? fun x => !p x) = some a ↔ FirstFailing (fun x => p x = true) l a := by
  rw [List.find?_eq_some_iff_append]
  constructor
  · rintro ⟨ha, before, after, rfl, hbefore⟩
    exact ⟨before, after, rfl, by simpa using hbefore, by simpa using ha⟩
  · rintro ⟨before, after, rfl, hbefore, ha⟩
    exact ⟨by simpa using ha, before, after, rfl, by simpa using hbefore⟩

/-- A run along a list stops at the first element that is not as it should be. -/
theorem mapM_iff {f : α → Except ε β} (hP : ∀ x ∈ l, P x ↔ ∃ y, f x = .ok y) {e : ε} :
    l.mapM f = .error e ↔ ∃ a, FirstFailing P l a ∧ f a = .error e := by
  rw [mapM_eq_error_iff]
  constructor
  · rintro ⟨before, a, after, rfl, hbefore, ha⟩
    refine ⟨a, ⟨before, after, rfl, fun x hx => ?_, fun hfine => ?_⟩, ha⟩
    · exact (hP x (List.mem_append_left _ hx)).2 (hbefore x hx)
    · obtain ⟨y, hy⟩ := (hP a (by simp)).1 hfine
      rw [hy] at ha
      cases ha
  · rintro ⟨a, ⟨before, after, rfl, hbefore, -⟩, ha⟩
    exact ⟨before, a, after, rfl,
      fun x hx => (hP x (List.mem_append_left _ hx)).1 (hbefore x hx), ha⟩

theorem mapM_ok_iff {f : α → Except ε β} (hP : ∀ x ∈ l, P x ↔ ∃ y, f x = .ok y) :
    (∃ ys, l.mapM f = .ok ys) ↔ ∀ x ∈ l, P x :=
  exists_mapM_iff.trans (forall₂_congr fun x hx => (hP x hx).symm)

end FirstFailing

end

/-- Parts of a list that hold the same elements, in its order, are the same. -/
theorem sublist_ext {α : Type} {l l₁ l₂ : List α} (hl : l.Nodup) (h₁ : l₁.Sublist l)
    (h₂ : l₂.Sublist l) (h : ∀ a, a ∈ l₁ ↔ a ∈ l₂) : l₁ = l₂ := by
  induction h₁ generalizing l₂ with
  | slnil => exact (List.sublist_nil.1 h₂).symm
  | @cons l₁ l a h₁ ih =>
    rw [List.nodup_cons] at hl
    cases h₂ with
    | cons _ h₂ => exact ih hl.2 h₂ h
    | cons_cons _ _ => exact absurd (h₁.subset ((h a).2 List.mem_cons_self)) hl.1
  | @cons_cons l₁ l a h₁ ih =>
    rw [List.nodup_cons] at hl
    cases h₂ with
    | cons _ h₂ => exact absurd (h₂.subset ((h a).1 List.mem_cons_self)) hl.1
    | @cons_cons l₂ _ _ h₂ =>
      refine congrArg (a :: ·) (ih hl.2 h₂ fun b => ?_)
      have hb := h b
      rw [List.mem_cons, List.mem_cons] at hb
      by_cases hab : b = a
      · subst hab
        exact iff_of_false (fun hmem => hl.1 (h₁.subset hmem)) fun hmem => hl.1 (h₂.subset hmem)
      · simpa [hab] using hb

namespace Resource

/-- All required fields of the type are bound. -/
def Complete (r : Resource) : Prop := ∀ f ∈ r.schema.requiredFields, f ∈ r.properties.keys

/-- One of its values has the address. -/
def Occupies (r : Resource) (a : String) : Prop :=
  ∃ path part, r.toExpr.Part path part ∧ a = Rom.locate r.name path

end Resource

namespace Plan

variable {plan : Plan} {e : PlanError}

/-! ### What compiling demands -/

/-- The names of the graph: what is tracked, and then what is declared beside it. -/
def nodes (plan : Plan) : List String :=
  plan.prior.keys ++ plan.declaration.resources.keys.filter fun n => !plan.prior.contains n

/-- In the graph `n` has to wait for `d`.  What is declared waits as it is declared; anything
else waits as it was tracked, for what is still known. -/
inductive Follows (plan : Plan) (n d : String) : Prop
  | declared {r : Resource} : plan.declaration.get? n = some r → d ∈ r.waits → Follows plan n d
  | tracked {t : Tracked} : plan.declaration.get? n = none → plan.prior.get? n = some t →
    d ∈ t.dependencies → plan.knows d = true → Follows plan n d

/-- If the name is declared, whatever it waits for is declared or tracked. -/
def Supported (plan : Plan) (n : String) : Prop :=
  ∀ r, plan.declaration.get? n = some r → ∀ d ∈ r.waits, plan.knows d = true

/-- Two names wait for each other, over any number of edges. -/
def Locked (plan : Plan) (a b : String) : Prop :=
  a ≠ b ∧ Relation.ReflTransGen plan.Follows a b ∧ Relation.ReflTransGen plan.Follows b a

/-- If the tracked name is no longer declared, its type is registered and does not ask for a
deletion at the end without an identifier. -/
def Removable (plan : Plan) (e : String × Tracked) : Prop :=
  plan.declaration.get? e.1 = none → ∃ schema,
    plan.declaration.catalog.get? e.2.typeId = some schema ∧
      ¬ (schema.deleteAtEnd = true ∧ schema.needsRemoteId = false)

/-- No value of the one has an address of the other. -/
def Disjoint (x y : String × Resource) : Prop := ∀ a, x.2.Occupies a → ¬ y.2.Occupies a

/-- A plan that compiles. -/
structure WellFormed (plan : Plan) : Prop where
  /-- Every dependency of a declared resource is declared or tracked. -/
  supported : ∀ n ∈ plan.nodes, plan.Supported n
  /-- No two names wait for each other. -/
  acyclic : ∀ a b, ¬ plan.Locked a b
  /-- All that has to be deleted can be. -/
  removable : ∀ x ∈ plan.prior.entries, plan.Removable x
  /-- Every declared resource binds the required fields of its type. -/
  complete : ∀ x ∈ plan.declaration.resources.entries, x.2.Complete
  /-- No address of a resource is one of an earlier resource. -/
  disjoint : plan.declaration.resources.entries.Pairwise Disjoint

/-- What is wrong with the graph: the first name that waits for something unknown, with the
first unknown name that it waits for; or the names that lead to a cycle, in order. -/
inductive Disordered (plan : Plan) : PlanError → Prop
  | unknown {name d : String} {r : Resource} : FirstFailing plan.Supported plan.nodes name →
    plan.declaration.get? name = some r →
    FirstFailing (fun d => plan.knows d = true) r.waits d →
    Disordered plan (.unknownDependency name d)
  | cyclic {members : List String} : (∀ n ∈ plan.nodes, plan.Supported n) → members ≠ [] →
    members.Sublist plan.nodes →
    (∀ n ∈ plan.nodes, n ∈ members ↔
      ∃ a b, Relation.ReflTransGen plan.Follows n a ∧ plan.Locked a b) →
    Disordered plan (.cyclicDependency members)

/-- What is wrong with the first tracked name that cannot be deleted. -/
inductive Irremovable (plan : Plan) : PlanError → Prop
  | unknownType {x : String × Tracked} : FirstFailing plan.Removable plan.prior.entries x →
    plan.declaration.catalog.get? x.2.typeId = none → Irremovable plan (.unknownType x.2.typeId)
  | deleteOrdering {x : String × Tracked} {schema : Schema} :
    FirstFailing plan.Removable plan.prior.entries x →
    plan.declaration.catalog.get? x.2.typeId = some schema → Irremovable plan (.deleteOrdering x.1)

/-- The first resource that lacks a required field, and the first one that it lacks. -/
inductive Incomplete (plan : Plan) : PlanError → Prop
  | missing {x : String × Resource} {f : String} :
    FirstFailing (fun x => x.2.Complete) plan.declaration.resources.entries x →
    FirstFailing (· ∈ x.2.properties.keys) x.2.schema.requiredFields f →
    Incomplete plan (.missingRequiredField x.1 f)

/-- The first resource with an address of an earlier one, and the first such address in the order
in which its values are stored. -/
inductive Colliding (plan : Plan) : PlanError → Prop
  | address {before after : List (String × Resource)} {x : String × Resource} {a : String} :
    plan.declaration.resources.entries = before ++ x :: after → before.Pairwise Disjoint →
    FirstFailing (fun a => ∀ y ∈ before, ¬ y.2.Occupies a) (Rom.flat x.1 x.2.toExpr).keys a →
    Colliding plan (.addressCollision a)

/-- Why a plan does not compile: the first demand that it does not meet. -/
inductive Refused (plan : Plan) (e : PlanError) : Prop
  | graph : plan.Disordered e → Refused plan e
  | deletions : (∀ n ∈ plan.nodes, plan.Supported n) → (∀ a b, ¬ plan.Locked a b) →
    plan.Irremovable e → Refused plan e
  | fields : (∀ n ∈ plan.nodes, plan.Supported n) → (∀ a b, ¬ plan.Locked a b) →
    (∀ x ∈ plan.prior.entries, plan.Removable x) → plan.Incomplete e → Refused plan e
  | addresses : (∀ n ∈ plan.nodes, plan.Supported n) → (∀ a b, ¬ plan.Locked a b) →
    (∀ x ∈ plan.prior.entries, plan.Removable x) →
    (∀ x ∈ plan.declaration.resources.entries, x.2.Complete) → plan.Colliding e → Refused plan e

/-! ### The graph -/

theorem nodes_dependencies (plan : Plan) : plan.dependencies.nodes = plan.nodes := by
  have htracked : plan.trackedDependencies.edges.entries.keys = plan.prior.keys :=
    Table.keys_mapValues plan.prior _
  have hdeclared : plan.declaration.dependencies.edges.entries.keys =
      plan.declaration.resources.keys := Table.keys_mapValues plan.declaration.resources _
  show Entries.keys (Entries.overlay _ _) = _
  rw [Entries.keys_overlay plan.declaration.dependencies.edges.nodup, htracked, hdeclared]
  refine congrArg (plan.prior.keys ++ ·) (List.filter_congr fun n _ => ?_)
  rw [Bool.eq_iff_iff, Bool.not_eq_true', Bool.not_eq_true', ← Bool.not_eq_true,
    ← Bool.not_eq_true, Entries.contains_iff, htracked]
  exact not_congr Table.contains_iff.symm

theorem knows_iff {n : String} : plan.knows n = true ↔ n ∈ plan.dependencies.nodes := by
  rw [mem_nodes_dependencies, knows, Bool.or_eq_true, Table.contains_iff, Table.contains_iff]

theorem dependsOn_iff_follows {n d : String} :
    plan.dependencies.DependsOn n d ↔ plan.Follows n d := by
  unfold Dependencies.DependsOn
  rw [of?_dependencies]
  constructor
  · rintro ⟨deps, hdeps, hd⟩
    cases hr : plan.declaration.resources.get? n with
    | some r =>
      rw [hr] at hdeps
      cases hdeps
      exact .declared hr hd
    | none =>
      rw [hr] at hdeps
      obtain ⟨t, ht, rfl⟩ := Option.map_eq_some_iff.1 hdeps
      obtain ⟨hmem, hknows⟩ := List.mem_filter.1 (mem_distinct.1 hd)
      exact .tracked hr ht hmem hknows
  · rintro (⟨hr, hd⟩ | ⟨hr, ht, hmem, hknows⟩)
    · exact ⟨_, by rw [show plan.declaration.resources.get? n = _ from hr]; rfl, hd⟩
    · refine ⟨_, ?_, mem_distinct.2 (List.mem_filter.2 ⟨hmem, hknows⟩)⟩
      rw [show plan.declaration.resources.get? n = _ from hr, ht]
      rfl

theorem dependsOn_eq (plan : Plan) : plan.dependencies.DependsOn = plan.Follows :=
  funext fun _ => funext fun _ => propext dependsOn_iff_follows

/-- What is only tracked waits for what is known, so only declared names can fail. -/
theorem supported_iff {n : String} :
    plan.Supported n ↔ ∀ d, plan.dependencies.DependsOn n d → d ∈ plan.dependencies.nodes := by
  simp only [dependsOn_iff_follows, ← knows_iff]
  constructor
  · rintro h d (⟨hr, hd⟩ | ⟨-, -, -, hknows⟩)
    · exact h _ hr d hd
    · exact hknows
  · exact fun h r hr d hd => h d (.declared hr hd)

theorem complete_dependencies_iff :
    plan.dependencies.Complete ↔ ∀ n ∈ plan.nodes, plan.Supported n := by
  rw [← nodes_dependencies]
  constructor
  · exact fun h n _ => supported_iff.2 (h n)
  · exact fun h n d hdepends =>
      supported_iff.1 (h n (Dependencies.mem_nodes_of_dependsOn hdepends)) d hdepends

theorem onCycle_iff_locked {n : String} :
    plan.dependencies.OnCycle n ↔ ∃ b, plan.Locked n b := by
  unfold Dependencies.OnCycle Locked
  rw [dependsOn_eq]
  exact exists_congr fun b => and_congr_left fun _ => ne_comm

theorem entangled_iff {n : String} : plan.dependencies.Entangled n ↔
    ∃ a b, Relation.ReflTransGen plan.Follows n a ∧ plan.Locked a b := by
  unfold Dependencies.Entangled
  simp only [onCycle_iff_locked, dependsOn_eq, exists_and_left]

theorem firstUnknown_iff {name d : String} :
    plan.dependencies.FirstUnknown name d ↔ ∃ r,
      FirstFailing plan.Supported plan.nodes name ∧ plan.declaration.get? name = some r ∧
        FirstFailing (fun d => plan.knows d = true) r.waits d := by
  have hof {n : String} {deps : List String} (h : (n, deps) ∈ plan.dependencies.edges.entries) :
      plan.dependencies.of? n = some deps := Table.get?_eq_some_iff.2 h
  have hsupported {e : Edge} (h : e ∈ plan.dependencies.edges.entries) :
      plan.Supported e.1 ↔ ∀ d ∈ e.2, d ∈ plan.dependencies.nodes := by
    rw [supported_iff]
    unfold Dependencies.DependsOn
    simp [hof h]
  have hwaits {n : String} {deps : List String} {r : Resource}
      (h : (n, deps) ∈ plan.dependencies.edges.entries) (hr : plan.declaration.get? n = some r) :
      deps = r.waits := by
    have hdeps := hof h
    rw [of?_dependencies, show plan.declaration.resources.get? n = _ from hr] at hdeps
    exact (Option.some.inj hdeps).symm
  simp only [← nodes_dependencies, knows_iff]
  constructor
  · rintro ⟨before, after, known, rest, hentries, hbefore, hknown, hd⟩
    have hmem : (name, known ++ d :: rest) ∈ plan.dependencies.edges.entries := by
      rw [hentries]
      simp
    have hfails : ¬ plan.Supported name := fun h => hd ((hsupported hmem).1 h d (by simp))
    obtain ⟨r, hr⟩ : ∃ r, plan.declaration.get? name = some r := by
      by_contra hnone
      exact hfails fun r hr => absurd ⟨r, hr⟩ hnone
    refine ⟨r, ⟨before.map Prod.fst, after.map Prod.fst, ?_, ?_, hfails⟩, hr, ?_⟩
    · show plan.dependencies.edges.entries.map Prod.fst = _
      rw [hentries, List.map_append, List.map_cons]
    · intro n hn
      obtain ⟨e, he, rfl⟩ := List.mem_map.1 hn
      exact (hsupported (by rw [hentries]; exact List.mem_append_left _ he)).2 (hbefore e he)
    · exact ⟨known, rest, (hwaits hmem hr).symm, hknown, hd⟩
  · rintro ⟨r, ⟨names, names', hnodes, hnames, -⟩, hr, known, rest, hdeps, hknown, hd⟩
    obtain ⟨before, tail, hentries, rfl, htail⟩ := List.map_eq_append_iff.1 hnodes
    obtain ⟨⟨n, deps⟩, after, rfl, rfl, -⟩ := List.map_eq_cons_iff.1 htail
    have hmem : (n, deps) ∈ plan.dependencies.edges.entries := by
      rw [hentries]
      simp
    obtain rfl : deps = known ++ d :: rest := (hwaits hmem hr).trans hdeps
    refine ⟨before, after, known, rest, hentries, fun e he => ?_, hknown, hd⟩
    exact (hsupported (by rw [hentries]; exact List.mem_append_left _ he)).1
      (hnames e.1 (List.mem_map.2 ⟨e, he, rfl⟩))

theorem levels_ok_iff : (∃ levels, plan.levels = .ok levels) ↔
    (∀ n ∈ plan.nodes, plan.Supported n) ∧ ∀ a b, ¬ plan.Locked a b := by
  obtain ⟨-, -, -, -, hok, -⟩ := plan.dependencies.levels_exact
  refine hok.trans (and_congr complete_dependencies_iff ?_)
  simp only [onCycle_iff_locked, not_exists]

theorem levels_error_iff : plan.levels = .error e ↔ plan.Disordered e := by
  have hnodup : plan.nodes.Nodup := plan.nodes_dependencies ▸ plan.dependencies.edges.nodup
  constructor
  · intro h
    rcases plan.dependencies.levels_cases with ⟨name, d, hlevels, hfirst, -⟩ |
      ⟨members, hlevels, hcomplete, ⟨n, hcycle⟩, hsub, hmembers⟩ | ⟨layers, hlevels, -⟩
    · cases h.symm.trans hlevels
      obtain ⟨r, hname, hr, hd⟩ := firstUnknown_iff.1 hfirst
      exact .unknown hname hr hd
    · cases h.symm.trans hlevels
      rw [nodes_dependencies] at hsub hmembers
      refine .cyclic (complete_dependencies_iff.1 hcomplete) ?_ hsub fun n hn => ?_
      · rintro rfl
        obtain ⟨d, hneeds, -⟩ :=
          Relation.TransGen.head'_iff.1 (Dependencies.onCycle_iff.1 hcycle)
        have hn := Dependencies.mem_nodes_of_dependsOn hneeds.2
        rw [nodes_dependencies] at hn
        exact absurd ((hmembers n).2 ⟨hn, n, .refl, hcycle⟩) List.not_mem_nil
      · rw [hmembers, ← entangled_iff]
        exact and_iff_right hn
    · cases h.symm.trans hlevels
  · rintro (⟨hname, hr, hd⟩ | ⟨hsupported, hsome, hsub, hmembers⟩)
    · have hfirst := Dependencies.firstUnknown_eq_some_iff.2 (firstUnknown_iff.2 ⟨_, hname, hr, hd⟩)
      unfold levels Dependencies.levels
      rw [hfirst]
    · rename_i members
      have hcomplete := complete_dependencies_iff.2 hsupported
      obtain ⟨n, hn⟩ := List.exists_mem_of_ne_nil members hsome
      have hentangled := entangled_iff.2 ((hmembers n (hsub.subset hn)).1 hn)
      obtain ⟨m, -, hcycle⟩ := hentangled
      rcases plan.dependencies.levels_cases with ⟨_, _, -, -, hnot⟩ |
        ⟨members', hlevels, -, -, hsub', hmembers'⟩ | ⟨_, -, -, hnone, -⟩
      · exact absurd hcomplete hnot
      · rw [nodes_dependencies] at hsub' hmembers'
        have hsame : members' = members := by
          refine sublist_ext hnodup hsub' hsub fun a => ?_
          rw [hmembers']
          constructor
          · exact fun ⟨ha, hleads⟩ => (hmembers a ha).2 (entangled_iff.1 hleads)
          · exact fun ha =>
              ⟨hsub.subset ha, entangled_iff.2 ((hmembers a (hsub.subset ha)).1 ha)⟩
        rw [← hsame]
        exact hlevels
      · exact absurd hcycle (hnone m)

/-! ### What has to be deleted -/

theorem make_ok_iff {name typeId : String} {schema : Schema} {properties : Entries Expr} :
    (∃ r, Resource.make name typeId schema properties = .ok r) ↔
      ¬ (schema.deleteAtEnd = true ∧ schema.needsRemoteId = false) := by
  unfold Resource.make Schema.orderly
  cases schema.deleteAtEnd <;> cases schema.needsRemoteId <;> simp

theorem make_error_iff {name typeId : String} {schema : Schema} {properties : Entries Expr} :
    Resource.make name typeId schema properties = .error e ↔
      (schema.deleteAtEnd = true ∧ schema.needsRemoteId = false) ∧ .deleteOrdering name = e := by
  unfold Resource.make Schema.orderly
  cases schema.deleteAtEnd <;> cases schema.needsRemoteId <;> simp

/-- The resource as which a tracked name is deleted. -/
def gone (plan : Plan) (x : String × Tracked) : Except PlanError Resource :=
  match plan.declaration.catalog.get? x.2.typeId with
  | none => .error (.unknownType x.2.typeId)
  | some schema => Resource.make x.1 x.2.typeId schema []

theorem gone_ok_iff {x : String × Tracked} (hx : plan.declaration.get? x.1 = none) :
    plan.Removable x ↔ ∃ r, plan.gone x = .ok r := by
  unfold Removable gone
  cases plan.declaration.catalog.get? x.2.typeId with
  | none => simp [hx]
  | some schema => simp only [hx, forall_const, Option.some.injEq, exists_eq_left', make_ok_iff]

theorem gone_error_iff {x : String × Tracked} : plan.gone x = .error e ↔
    (plan.declaration.catalog.get? x.2.typeId = none ∧ .unknownType x.2.typeId = e) ∨
    ∃ schema, plan.declaration.catalog.get? x.2.typeId = some schema ∧
      (schema.deleteAtEnd = true ∧ schema.needsRemoteId = false) ∧ .deleteOrdering x.1 = e := by
  unfold gone
  cases plan.declaration.catalog.get? x.2.typeId with
  | none => simp
  | some schema => simp [make_error_iff]

theorem undeclared_iff {n : String} :
    (!plan.declaration.resources.contains n) = true ↔ plan.declaration.get? n = none := by
  rw [Bool.not_eq_true', ← Bool.not_eq_true, Table.contains_iff]
  exact Entries.get?_eq_none_iff.symm

theorem gone_iff_of_mem {x : String × Tracked}
    (hx : x ∈ plan.prior.entries.filter fun x => !plan.declaration.resources.contains x.1) :
    plan.Removable x ↔ ∃ r, plan.gone x = .ok r :=
  gone_ok_iff (undeclared_iff.1 (List.mem_filter.1 hx).2)

theorem removable_of_declared {x : String × Tracked}
    (hx : (!plan.declaration.resources.contains x.1) = false) : plan.Removable x := by
  intro hnone
  rw [undeclared_iff.2 hnone] at hx
  cases hx

theorem deletables_ok_iff : (∃ gone, plan.deletables = .ok gone) ↔
    ∀ x ∈ plan.prior.entries, plan.Removable x := by
  refine (FirstFailing.mapM_ok_iff fun x hx => gone_iff_of_mem hx).trans ?_
  refine ⟨fun h x hx => ?_, fun h x hx => h x (List.mem_filter.1 hx).1⟩
  cases hdeclared : !plan.declaration.resources.contains x.1 with
  | false => exact removable_of_declared hdeclared
  | true => exact h x (List.mem_filter.2 ⟨hx, hdeclared⟩)

theorem deletables_error_iff : plan.deletables = .error e ↔ plan.Irremovable e := by
  have hmapM : plan.deletables = .error e ↔ ∃ x,
      FirstFailing plan.Removable plan.prior.entries x ∧ plan.gone x = .error e := by
    refine (FirstFailing.mapM_iff fun x hx => gone_iff_of_mem hx).trans ?_
    exact exists_congr fun x => and_congr_left fun _ =>
      FirstFailing.filter_iff fun x _ hx => removable_of_declared hx
  rw [hmapM]
  constructor
  · rintro ⟨x, hfirst, herror⟩
    rcases gone_error_iff.1 herror with ⟨hnone, rfl⟩ | ⟨schema, hsome, -, rfl⟩
    · exact .unknownType hfirst hnone
    · exact .deleteOrdering hfirst hsome
  · rintro (⟨hfirst, hnone⟩ | ⟨hfirst, hsome⟩)
    · exact ⟨_, hfirst, gone_error_iff.2 (.inl ⟨hnone, rfl⟩)⟩
    · rename_i x schema
      refine ⟨x, hfirst, gone_error_iff.2 (.inr ⟨schema, hsome, ?_, rfl⟩)⟩
      obtain ⟨-, -, -, -, hfails⟩ := hfirst
      by_contra hfine
      exact hfails fun _ => ⟨schema, hsome, hfine⟩

theorem actions_ok_iff : (∃ actions, plan.actions = .ok actions) ↔
    ∀ x ∈ plan.prior.entries, plan.Removable x := by
  rw [← deletables_ok_iff]
  exact exists_return_iff

theorem actions_error_iff : plan.actions = .error e ↔ plan.Irremovable e := by
  rw [← deletables_error_iff]
  refine bind_eq_error.trans (or_iff_left ?_)
  rintro ⟨_, -, h⟩
  cases h

/-! ### Required fields -/

end Plan

namespace Resource

variable {r : Resource} {action : Action} {createMissing : Bool} {e : PlanError}

theorem checkRequired_error_iff : r.checkRequired = .error e ↔
    ∃ f, FirstFailing (· ∈ r.properties.keys) r.schema.requiredFields f ∧
      .missingRequiredField r.name f = e := by
  have hfind (f : String) : (r.schema.requiredFields.find? fun f => !r.properties.contains f) =
      some f ↔ FirstFailing (· ∈ r.properties.keys) r.schema.requiredFields f := by
    simp only [FirstFailing.find?_iff, Entries.contains_iff]
  unfold checkRequired
  simp only [← hfind]
  cases r.schema.requiredFields.find? fun f => !r.properties.contains f <;> simp

theorem checkRequired_ok_iff : r.checkRequired = .ok () ↔ r.Complete := by
  constructor
  · intro h
    by_contra hlacks
    obtain ⟨f, hf⟩ := FirstFailing.exists_of_not_forall hlacks
    rw [checkRequired_error_iff.2 ⟨f, hf, rfl⟩] at h
    cases h
  · intro h
    cases hcheck : r.checkRequired with
    | ok u => rfl
    | error e =>
      obtain ⟨f, hf, -⟩ := checkRequired_error_iff.1 hcheck
      exact absurd h hf.not_forall

theorem subroutines_ok_iff (haction : action ≠ .delete) :
    r.Complete ↔ ∃ l, r.subroutines action createMissing = .ok l := by
  rw [← checkRequired_ok_iff]
  exact ⟨fun h => exists_subroutines createMissing fun _ => h,
    fun ⟨_, h⟩ => required_of_subroutines h haction⟩

/-- A routine is only refused for a field that is not bound. -/
theorem checkRequired_of_subroutines (h : r.subroutines action createMissing = .error e) :
    r.checkRequired = .error e := by
  obtain ⟨⟨_, routine⟩, -, h⟩ := error_of_mapM h
  cases hcode : r.code createMissing routine with
  | ok inner =>
    simp only [subroutine, hcode] at h
    cases h
  | error e' =>
    simp only [subroutine, hcode] at h
    cases h
    unfold code at hcode
    split at hcode
    · rcases bind_eq_error.1 hcode with hcheck | ⟨_, -, h⟩
      · exact hcheck
      · cases h
    · cases hcode

theorem subroutines_error_iff (haction : action ≠ .delete) :
    r.subroutines action createMissing = .error e ↔ r.checkRequired = .error e := by
  refine ⟨checkRequired_of_subroutines, fun hcheck => ?_⟩
  cases h : r.subroutines action createMissing with
  | ok l =>
    rw [required_of_subroutines h haction] at hcheck
    cases hcheck
  | error e' =>
    have hsame := (checkRequired_of_subroutines h).symm.trans hcheck
    rw [Except.error.inj hsame]

end Resource

namespace Plan

variable {plan : Plan} {e : PlanError}

/-- The resource has all its routines. -/
def Equipped (ra : Resource × Action) : Prop := ra.2 = .delete ∨ ra.1.Complete

theorem equipped_iff {ra : Resource × Action} (createMissing : Bool) :
    Equipped ra ↔ ∃ l, ra.1.subroutines ra.2 createMissing = .ok l := by
  unfold Equipped
  by_cases hdelete : ra.2 = .delete
  · exact iff_of_true (.inl hdelete)
      (Resource.exists_subroutines createMissing fun hne => absurd hdelete hne)
  · rw [or_iff_right hdelete]
    exact Resource.subroutines_ok_iff hdelete

theorem equipped_declared (plan : Plan) (x : String × Resource) :
    Equipped (x.2, plan.declaredAction x.1) ↔ x.2.Complete :=
  or_iff_right (by unfold declaredAction; split <;> nofun)

/-- Nothing is missing for what is deleted, and for what is declared what is not bound. -/
theorem table_ok_iff {actions : List (Resource × Action)} (h : plan.actions = .ok actions) :
    (∃ table, subroutines plan.createMissing actions = .ok table) ↔
      ∀ x ∈ plan.declaration.resources.entries, x.2.Complete := by
  have htable : (∃ table, subroutines plan.createMissing actions = .ok table) ↔
      ∀ ra ∈ actions, Equipped ra := by
    rw [← FirstFailing.mapM_ok_iff fun ra _ => equipped_iff plan.createMissing]
    exact exists_return_iff
  rw [htable, Compilation.eq_append_of_actions h]
  simp only [List.forall_mem_append, List.forall_mem_map, equipped_declared]
  exact and_iff_right fun _ _ => .inl rfl

theorem table_error_iff {actions : List (Resource × Action)} (h : plan.actions = .ok actions) :
    subroutines plan.createMissing actions = .error e ↔ plan.Incomplete e := by
  have hmapM : subroutines plan.createMissing actions = .error e ↔ ∃ ra,
      FirstFailing Equipped actions ra ∧
        ra.1.subroutines ra.2 plan.createMissing = .error e := by
    rw [← FirstFailing.mapM_iff fun ra _ => equipped_iff plan.createMissing]
    refine bind_eq_error.trans (or_iff_left ?_)
    rintro ⟨_, -, h⟩
    cases h
  have hdeclared (x : String × Resource) : x.2.subroutines (plan.declaredAction x.1)
      plan.createMissing = .error e ↔ x.2.checkRequired = .error e :=
    Resource.subroutines_error_iff (by unfold declaredAction; split <;> nofun)
  have hname {x : String × Resource} (hx : x ∈ plan.declaration.resources.entries) :
      x.2.name = x.1 := (plan.declaration.declared x hx).name_eq
  have hgone : ∀ ra ∈ (plan.prior.entries.filter fun x =>
      !plan.declaration.resources.contains x.1).map fun x =>
        (Compilation.goneResource plan x, Action.delete), Equipped ra := by
    intro ra hra
    obtain ⟨_, -, rfl⟩ := List.mem_map.1 hra
    exact .inl rfl
  rw [hmapM, Compilation.eq_append_of_actions h]
  simp only [FirstFailing.append_iff hgone, FirstFailing.map_iff, equipped_declared]
  constructor
  · rintro ⟨_, ⟨x, hx, rfl⟩, herror⟩
    obtain ⟨f, hf, rfl⟩ := Resource.checkRequired_error_iff.1 ((hdeclared x).1 herror)
    rw [hname hx.mem]
    exact .missing hx hf
  · rintro ⟨hx, hf⟩
    rename_i x f
    refine ⟨_, ⟨x, hx, rfl⟩, (hdeclared x).2 (Resource.checkRequired_error_iff.2 ⟨f, hf, ?_⟩)⟩
    rw [hname hx.mem]

end Plan

/-! ### Addresses -/

namespace Rom

variable {rom : Rom} {a : String}

/-- Storing stops at the first address that is taken. -/
theorem store_eq_some_iff {l : List (String × Entry)} (hl : (Entries.keys l).Nodup) :
    (rom.store l).2 = some a ↔ FirstFailing (· ∉ rom.entries.keys) (Entries.keys l) a := by
  induction l generalizing rom with
  | nil => exact iff_of_false nofun fun h => nomatch h.mem
  | cons x rest ih =>
    rw [Entries.keys_cons, List.nodup_cons] at hl
    rw [store, Entries.keys_cons, FirstFailing.cons_iff]
    by_cases htaken : x.1 ∈ rom.entries.keys
    · rw [if_pos (Table.contains_iff.2 htaken)]
      simp [htaken, eq_comm]
    · rw [if_neg fun h => htaken (Table.contains_iff.1 h), ih hl.2]
      have hrest : ∀ k ∈ Entries.keys rest,
          k ∉ (rom.entries.insert x.1 x.2).keys ↔ k ∉ rom.entries.keys := by
        intro k hk
        have hne : k ≠ x.1 := fun heq => hl.1 (heq ▸ hk)
        refine not_congr (Entries.mem_keys_set.trans ?_)
        simp [hne]
        rfl
      rw [FirstFailing.congr hrest]
      simp [htaken]

theorem add_error_iff {name : String} {x : Expr} {e : PlanError} :
    (rom.add name x).2 = .error e ↔ ∃ a,
      FirstFailing (· ∉ rom.entries.keys) (flat name x).keys a ∧ .addressCollision a = e := by
  simp only [← store_eq_some_iff (Entries.nodup_ofList _), flat]
  unfold add flat
  cases rom.store (Entries.ofList (flatten name x)) with
  | mk rom' taken => cases taken <;> simp

end Rom

namespace Plan

variable {plan : Plan} {e : PlanError} {rs : List (String × Resource)}

theorem storeAll_cons (rom : Rom) (x : String × Resource) (rs : List (String × Resource)) :
    storeAll rom (x :: rs) = (rom.add x.1 x.2.toExpr).2 >>= fun _ =>
      storeAll (rom.add x.1 x.2.toExpr).1 rs := by
  rw [storeAll]
  rcases rom.add_cases x.1 x.2.toExpr with ⟨rom', hadd⟩ | ⟨rom', a, hadd⟩ <;> rw [hadd] <;> rfl

/-- Storing resources stops at the first one that cannot be added to what is stored before. -/
theorem storeAll_error_iff {rom : Rom} : storeAll rom rs = .error e ↔
    ∃ before x after rom', rs = before ++ x :: after ∧ storeAll rom before = .ok rom' ∧
      (rom'.add x.1 x.2.toExpr).2 = .error e := by
  constructor
  · intro h
    induction rs generalizing rom with
    | nil => cases h
    | cons x rest ih =>
      rw [storeAll_cons] at h
      rcases bind_eq_error.1 h with h | ⟨u, hadd, h⟩
      · exact ⟨[], x, rest, rom, rfl, rfl, h⟩
      · obtain ⟨before, y, after, rom', rfl, hbefore, herror⟩ := ih h
        refine ⟨x :: before, y, after, rom', rfl, ?_, herror⟩
        rw [storeAll_cons]
        exact bind_eq_ok.2 ⟨u, hadd, hbefore⟩
  · rintro ⟨before, x, after, rom', rfl, hbefore, herror⟩
    induction before generalizing rom with
    | nil =>
      cases hbefore
      rw [List.nil_append, storeAll_cons]
      exact bind_eq_error.2 (.inl herror)
    | cons y before ih =>
      rw [storeAll_cons] at hbefore
      obtain ⟨u, hadd, hbefore⟩ := bind_eq_ok.1 hbefore
      rw [List.cons_append, storeAll_cons]
      exact bind_eq_error.2 (.inr ⟨u, hadd, ih hbefore⟩)

section

variable (hnames : ∀ x ∈ rs, x.2.name = x.1)

include hnames

theorem mem_keys_flat_iff {x : String × Resource} (hx : x ∈ rs) {a : String} :
    a ∈ (Rom.flat x.1 x.2.toExpr).keys ↔ x.2.Occupies a := by
  rw [Rom.mem_keys_flat_iff, Resource.Occupies, hnames x hx]

theorem mem_keys_storeAll {rom : Rom} (h : storeAll Rom.empty rs = .ok rom) {a : String} :
    a ∈ rom.entries.keys ↔ ∃ x ∈ rs, x.2.Occupies a := by
  have hentries : rom.entries.entries = rs.flatMap fun x => Rom.flat x.1 x.2.toExpr :=
    storeAll_eq h
  unfold Table.keys Entries.keys
  rw [hentries, List.map_flatMap, List.mem_flatMap]
  exact exists_congr fun x => and_congr_right fun hx => mem_keys_flat_iff hnames hx

theorem storeAll_ok_iff : (∃ rom, storeAll Rom.empty rs = .ok rom) ↔ rs.Pairwise Disjoint := by
  constructor
  · rintro ⟨rom, hrom⟩
    have hnodup := rom.entries.nodup
    have hentries : rom.entries.entries = rs.flatMap fun x => Rom.flat x.1 x.2.toExpr :=
      storeAll_eq hrom
    unfold Entries.keys at hnodup
    rw [hentries, List.map_flatMap, List.nodup_flatMap] at hnodup
    refine hnodup.2.imp_of_mem fun {x y} hx hy hdisjoint a hax hay => ?_
    exact hdisjoint ((mem_keys_flat_iff hnames hx).2 hax) ((mem_keys_flat_iff hnames hy).2 hay)
  · intro hdisjoint
    cases hall : storeAll Rom.empty rs with
    | ok rom => exact ⟨rom, rfl⟩
    | error e =>
      obtain ⟨before, x, after, rom, rfl, hbefore, herror⟩ := storeAll_error_iff.1 hall
      obtain ⟨a, hfirst, -⟩ := Rom.add_error_iff.1 herror
      obtain ⟨-, -, -, -, htaken⟩ := id hfirst
      rw [not_not, mem_keys_storeAll (fun y hy => hnames y (List.mem_append_left _ hy))
        hbefore] at htaken
      obtain ⟨y, hy, hay⟩ := htaken
      have hax := (mem_keys_flat_iff hnames (by simp)).1 hfirst.mem
      exact absurd hax ((List.pairwise_append.1 hdisjoint).2.2 y hy x List.mem_cons_self a hay)

end

theorem rom_ok_iff :
    (∃ rom, plan.rom = .ok rom) ↔ plan.declaration.resources.entries.Pairwise Disjoint :=
  storeAll_ok_iff fun x hx => (plan.declaration.declared x hx).name_eq

theorem rom_error_iff : plan.rom = .error e ↔ plan.Colliding e := by
  have hnames {before after : List (String × Resource)} {x : String × Resource}
      (h : plan.declaration.resources.entries = before ++ x :: after) :
      ∀ y ∈ before, y.2.name = y.1 := fun y hy =>
    (plan.declaration.declared y (by rw [h]; exact List.mem_append_left _ hy)).name_eq
  have hfree {before : List (String × Resource)} {rom : Rom} {l : List String}
      (hbefore : ∀ y ∈ before, y.2.name = y.1) (h : storeAll Rom.empty before = .ok rom)
      {a : String} : FirstFailing (· ∉ rom.entries.keys) l a ↔
        FirstFailing (fun a => ∀ y ∈ before, ¬ y.2.Occupies a) l a :=
    FirstFailing.congr fun b _ => by rw [mem_keys_storeAll hbefore h]; simp
  refine storeAll_error_iff.trans ⟨?_, ?_⟩
  · rintro ⟨before, x, after, rom, hentries, hbefore, herror⟩
    obtain ⟨a, hfirst, rfl⟩ := Rom.add_error_iff.1 herror
    exact .address hentries ((storeAll_ok_iff (hnames hentries)).1 ⟨rom, hbefore⟩)
      ((hfree (hnames hentries) hbefore).1 hfirst)
  · rintro ⟨hentries, hdisjoint, hfirst⟩
    obtain ⟨rom, hbefore⟩ := (storeAll_ok_iff (hnames hentries)).2 hdisjoint
    exact ⟨_, _, _, rom, hentries, hbefore,
      Rom.add_error_iff.2 ⟨_, (hfree (hnames hentries) hbefore).2 hfirst, rfl⟩⟩

/-! ### All rounds -/

theorem compile_ok_iff : (∃ p, plan.compile = .ok p) ↔ plan.WellFormed := by
  constructor
  · rintro ⟨p, hp⟩
    obtain ⟨c, -⟩ := Compilation.compile_eq_ok.1 hp
    obtain ⟨hsupported, hacyclic⟩ := levels_ok_iff.1 ⟨_, c.levels_eq⟩
    exact {
      supported := hsupported
      acyclic := hacyclic
      removable := actions_ok_iff.1 ⟨_, c.actions_eq⟩
      complete := (table_ok_iff c.actions_eq).1 ⟨_, c.table_eq⟩
      disjoint := rom_ok_iff.1 ⟨_, c.rom_eq⟩ }
  · intro h
    obtain ⟨levels, hlevels⟩ := levels_ok_iff.2 ⟨h.supported, h.acyclic⟩
    obtain ⟨actions, hactions⟩ := actions_ok_iff.2 h.removable
    obtain ⟨table, htable⟩ := (table_ok_iff hactions).2 h.complete
    obtain ⟨rom, hrom⟩ := rom_ok_iff.2 h.disjoint
    exact ⟨_, Compilation.compile_eq_ok.2
      ⟨⟨levels, actions, table, rom, hlevels, hactions, htable, hrom⟩, rfl⟩⟩

/-- Compiling stops in one of its rounds, after all rounds ahead of it are through. -/
theorem compile_eq_error : plan.compile = .error e ↔ plan.levels = .error e ∨
    ∃ levels, plan.levels = .ok levels ∧ (plan.actions = .error e ∨
      ∃ actions, plan.actions = .ok actions ∧
        (subroutines plan.createMissing actions = .error e ∨
          ∃ table, subroutines plan.createMissing actions = .ok table ∧ plan.rom = .error e)) := by
  constructor
  · intro h
    rcases bind_eq_error.1 h with h | ⟨layout, hlayout, h⟩
    · rcases bind_eq_error.1 h with h | ⟨levels, hlevels, h⟩
      · exact .inl h
      · rcases bind_eq_error.1 h with h | ⟨actions, hactions, h⟩
        · exact .inr ⟨levels, hlevels, .inl h⟩
        · rcases bind_eq_error.1 h with h | ⟨_, -, h⟩
          · exact .inr ⟨levels, hlevels, .inr ⟨actions, hactions, .inl h⟩⟩
          · cases h
    · obtain ⟨levels, hlevels, hlayout⟩ := bind_eq_ok.1 hlayout
      obtain ⟨actions, hactions, hlayout⟩ := bind_eq_ok.1 hlayout
      obtain ⟨table, htable, -⟩ := bind_eq_ok.1 hlayout
      rcases bind_eq_error.1 h with h | ⟨_, -, h⟩
      · exact .inr ⟨levels, hlevels, .inr ⟨actions, hactions, .inr ⟨table, htable, h⟩⟩⟩
      · cases h
  · rintro (h | ⟨levels, hlevels, h | ⟨actions, hactions, h | ⟨table, htable, h⟩⟩⟩)
    · exact bind_eq_error.2 (.inl (bind_eq_error.2 (.inl h)))
    · exact bind_eq_error.2 (.inl (bind_eq_error.2 (.inr ⟨levels, hlevels,
        bind_eq_error.2 (.inl h)⟩)))
    · exact bind_eq_error.2 (.inl (bind_eq_error.2 (.inr ⟨levels, hlevels,
        bind_eq_error.2 (.inr ⟨actions, hactions, bind_eq_error.2 (.inl h)⟩)⟩)))
    · have hlayout : plan.layout = .ok ⟨driver levels table, table⟩ :=
        bind_eq_ok.2 ⟨levels, hlevels, bind_eq_ok.2 ⟨actions, hactions,
          bind_eq_ok.2 ⟨table, htable, rfl⟩⟩⟩
      exact bind_eq_error.2 (.inr ⟨_, hlayout, bind_eq_error.2 (.inl h)⟩)

/-- **Exactly the well-formed plans compile.**  Any other plan is refused for the first demand
that it does not meet, and the error names who violates it first. -/
theorem compile_exact (plan : Plan) : ((∃ p, plan.compile = .ok p) ↔ plan.WellFormed) ∧
    ∀ e, plan.compile = .error e ↔ plan.Refused e := by
  refine ⟨compile_ok_iff, fun e => compile_eq_error.trans ⟨?_, ?_⟩⟩
  · rintro (h | ⟨levels, hlevels, h | ⟨actions, hactions, h | ⟨table, htable, h⟩⟩⟩)
    · exact .graph (levels_error_iff.1 h)
    all_goals
      obtain ⟨hsupported, hacyclic⟩ := levels_ok_iff.1 ⟨levels, hlevels⟩
    · exact .deletions hsupported hacyclic (actions_error_iff.1 h)
    all_goals
      have hremovable := actions_ok_iff.1 ⟨actions, hactions⟩
    · exact .fields hsupported hacyclic hremovable ((table_error_iff hactions).1 h)
    · exact .addresses hsupported hacyclic hremovable
        ((table_ok_iff hactions).1 ⟨table, htable⟩) (rom_error_iff.1 h)
  · rintro (h | ⟨hsupported, hacyclic, h⟩ | ⟨hsupported, hacyclic, hremovable, h⟩ |
      ⟨hsupported, hacyclic, hremovable, hcomplete, h⟩)
    · exact .inl (levels_error_iff.2 h)
    all_goals
      obtain ⟨levels, hlevels⟩ := levels_ok_iff.2 ⟨hsupported, hacyclic⟩
      refine .inr ⟨levels, hlevels, ?_⟩
    · exact .inl (actions_error_iff.2 h)
    all_goals
      obtain ⟨actions, hactions⟩ := actions_ok_iff.2 hremovable
      refine .inr ⟨actions, hactions, ?_⟩
    · exact .inl ((table_error_iff hactions).2 h)
    · obtain ⟨table, htable⟩ := (table_ok_iff hactions).2 hcomplete
      exact .inr ⟨table, htable, rom_error_iff.2 h⟩

end Plan

end Provisioning
