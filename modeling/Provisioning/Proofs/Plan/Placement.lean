/-
Where the subroutines lie.

The bodies follow the driver end to end, and the label of each points to where its body
begins.  `placed` lists the subroutines with their places; an instruction inside a body is
found by counting from there, and no place belongs to two bodies.

A jump names a label, and the table of labels holds for each label the place of whichever
subroutine had it last.  `Lands` says that a label leads to a given routine of a given
resource.  Every jump lands in its own resource exactly if neither keys nor labels were used
twice, which is `staysHome_iff`: a key used twice loses a routine that something jumps to or
calls, and a label used twice is shared by two routines of different resources, as by the
branch `modify_check` of `y` and the branch `modify` of `check_y`.

What a body is made of is listed beside: where a routine may jump to, its `targets`, and what
it does to its resource, its `operations`.
-/
import Mathlib.Algebra.Ring.Nat
import Provisioning.Proofs.Plan.Schedule

namespace Provisioning

namespace Layout

/-! ### Places -/

/-- Subroutines with the places of their bodies, the first at `start`. -/
def placedFrom : (start : Nat) → List Subroutine → List (Subroutine × Nat)
  | _, [] => []
  | start, s :: rest => (s, start) :: placedFrom (start + s.size) rest

/-- The subroutines with the places of their bodies. -/
def placed (l : Layout) : List (Subroutine × Nat) :=
  placedFrom l.driver.length l.subroutines.values

theorem length_body (s : Subroutine) : s.body.length = s.size := by
  simp [Subroutine.body, Subroutine.size]

theorem map_placedFrom (start : Nat) (ss : List Subroutine) :
    (placedFrom start ss).map Prod.fst = ss := by
  induction ss generalizing start with
  | nil => rfl
  | cons s rest ih => rw [placedFrom, List.map_cons, ih]

theorem positions_eq_map (start : Nat) (ss : List Subroutine) :
    positions start ss = (placedFrom start ss).map fun e => (e.1.label, e.2) := by
  induction ss generalizing start with
  | nil => rfl
  | cons s rest ih => rw [positions, placedFrom, List.map_cons, ih]

theorem mem_values_of_placed {l : Layout} {e : Subroutine × Nat} (h : e ∈ l.placed) :
    e.1 ∈ l.subroutines.values := by
  rw [← map_placedFrom l.driver.length l.subroutines.values]
  exact List.mem_map.2 ⟨e, h, rfl⟩

theorem exists_placed {l : Layout} {s : Subroutine} (h : s ∈ l.subroutines.values) :
    ∃ i, (s, i) ∈ l.placed := by
  rw [← map_placedFrom l.driver.length l.subroutines.values] at h
  obtain ⟨⟨s, i⟩, he, rfl⟩ := List.mem_map.1 h
  exact ⟨i, he⟩

theorem le_of_placedFrom {start : Nat} {ss : List Subroutine} {e : Subroutine × Nat}
    (h : e ∈ placedFrom start ss) : start ≤ e.2 := by
  induction ss generalizing start with
  | nil => cases h
  | cons s rest ih =>
    rcases List.mem_cons.1 h with rfl | h
    · exact Nat.le_refl _
    · have := ih h
      omega

/-- Bodies that lie end to end are found where they are placed. -/
theorem getElem?_flatMap_body {start : Nat} {ss : List Subroutine} {e : Subroutine × Nat}
    (h : e ∈ placedFrom start ss) {j : Nat} (hj : j < e.1.size) :
    (ss.flatMap Subroutine.body)[e.2 - start + j]? = e.1.body[j]? := by
  induction ss generalizing start with
  | nil => cases h
  | cons s rest ih =>
    rw [List.flatMap_cons]
    rcases List.mem_cons.1 h with rfl | h
    · have hlt : start - start + j < s.body.length := by
        rw [length_body]
        simpa using hj
      rw [List.getElem?_append_left hlt]
      simp
    · have hle := le_of_placedFrom h
      rw [List.getElem?_append_right (by rw [length_body]; omega), length_body]
      have hsub : e.2 - start + j - s.size = e.2 - (start + s.size) + j := by omega
      rw [hsub]
      exact ih h

/-- **Instruction `j` of a body stands `j` behind the place of the body.** -/
theorem getElem?_placed {l : Layout} {e : Subroutine × Nat} (h : e ∈ l.placed) {j : Nat}
    (hj : j < e.1.size) : l.instructions[e.2 + j]? = e.1.body[j]? := by
  have hle := le_of_placedFrom h
  unfold instructions
  rw [List.getElem?_append_right (by omega)]
  have hsub : e.2 + j - l.driver.length = e.2 - l.driver.length + j := by omega
  rw [hsub]
  exact getElem?_flatMap_body h hj

/-- What is left of a body stands behind what comes before it. -/
theorem getElem?_of_body {l : Layout} {s : Subroutine} {start : Nat} (h : (s, start) ∈ l.placed)
    {before rest : List Instruction} {i : Instruction} (hbody : s.body = before ++ i :: rest) :
    l.instructions[start + before.length]? = some i := by
  have hlt : before.length < s.size := by
    rw [← length_body, hbody, List.length_append, List.length_cons]
    omega
  rw [getElem?_placed h hlt, hbody, List.getElem?_append_right (Nat.le_refl _), Nat.sub_self]
  rfl

theorem getElem?_driver {l : Layout} {k : Nat} (hk : k < l.driver.length) :
    l.instructions[k]? = l.driver[k]? :=
  List.getElem?_append_left hk

/-- A body ends where the next one begins, at the latest. -/
theorem placedFrom_pairwise (start : Nat) (ss : List Subroutine) :
    (placedFrom start ss).Pairwise fun e f => e.2 + e.1.size ≤ f.2 := by
  induction ss generalizing start with
  | nil => exact List.Pairwise.nil
  | cons s rest ih =>
    rw [placedFrom, List.pairwise_cons]
    exact ⟨fun f hf => le_of_placedFrom hf, ih _⟩

/-- No place lies in two bodies. -/
theorem eq_of_place {l : Layout} {e f : Subroutine × Nat} (he : e ∈ l.placed)
    (hf : f ∈ l.placed) {i : Nat} (hi : e.2 ≤ i ∧ i < e.2 + e.1.size)
    (hi' : f.2 ≤ i ∧ i < f.2 + f.1.size) : e = f := by
  obtain ⟨a, ha, rfl⟩ := List.getElem_of_mem he
  obtain ⟨b, hb, rfl⟩ := List.getElem_of_mem hf
  have hends := List.pairwise_iff_getElem.1
    (placedFrom_pairwise l.driver.length l.subroutines.values)
  rcases Nat.lt_trichotomy a b with hab | rfl | hab
  · have hend : l.placed[a].2 + l.placed[a].1.size ≤ l.placed[b].2 := hends a b ha hb hab
    omega
  · rfl
  · have hend : l.placed[b].2 + l.placed[b].1.size ≤ l.placed[a].2 := hends b a hb ha hab
    omega

/-- A body lies behind the driver and the bodies before it. -/
theorem placedFrom_eq_sum {start : Nat} {ss : List Subroutine}
    {before after : List (Subroutine × Nat)} {e : Subroutine × Nat}
    (h : placedFrom start ss = before ++ e :: after) :
    e.2 = start + (before.map fun f => f.1.size).sum := by
  induction ss generalizing start before with
  | nil => simp [placedFrom] at h
  | cons s rest ih =>
    rw [placedFrom] at h
    cases before with
    | nil =>
      obtain ⟨rfl, -⟩ := List.cons.inj h
      rfl
    | cons f before =>
      obtain ⟨rfl, htail⟩ := List.cons.inj h
      rw [ih htail, List.map_cons, List.sum_cons]
      exact Nat.add_assoc _ _ _

theorem place_eq_sum {l : Layout} {before after : List (Subroutine × Nat)}
    {e : Subroutine × Nat} (h : l.placed = before ++ e :: after) :
    e.2 = l.driver.length + (before.map fun f => f.1.size).sum :=
  placedFrom_eq_sum h

theorem body_closed {l : Layout} {e : Subroutine × Nat} (h : e ∈ l.placed) :
    l.instructions[e.2]? = some .clear ∧
      l.instructions[e.2 + (e.1.size - 1)]? = some .ret := by
  have hpos : 0 < e.1.size := by simp [Subroutine.size]
  constructor
  · have hfirst := getElem?_placed h hpos
    rwa [Nat.add_zero] at hfirst
  · rw [getElem?_placed h (Nat.sub_lt hpos Nat.one_pos)]
    simp [Subroutine.body, Subroutine.size]

/-! ### Labels -/

/-- The label leads to the body of the routine of the resource. -/
def Lands (l : Layout) (label owner : String) (routine : Routine) : Prop :=
  ∃ e ∈ l.placed, e.1.owner = owner ∧ e.1.routine = routine ∧ l.labels.get? label = some e.2

theorem labels_entries {l : Layout} (h : (l.subroutines.values.map Subroutine.label).Nodup) :
    l.labels.entries = l.placed.map fun e => (e.1.label, e.2) := by
  unfold labels Table.ofList
  have hnames : (l.placed.map fun e => (e.1.label, e.2)).map Prod.fst =
      l.subroutines.values.map Subroutine.label := by
    rw [List.map_map, ← map_placedFrom l.driver.length l.subroutines.values, List.map_map]
    rfl
  rw [positions_eq_map]
  exact Entries.ofList_of_nodup (by rw [← placed, hnames]; exact h)

theorem get?_label {l : Layout} (h : (l.subroutines.values.map Subroutine.label).Nodup)
    {e : Subroutine × Nat} (he : e ∈ l.placed) : l.labels.get? e.1.label = some e.2 := by
  rw [Table.get?_eq_some_iff, labels_entries h]
  exact List.mem_map.2 ⟨e, he, rfl⟩

end Layout

/-! ### Jumps

Only the four routines of an update jump, each to branches of the same resource, and every
branch is a target of one of them.
-/

namespace Routine

/-- The branches that a routine may jump to. -/
def targets (createMissing : Bool) : Routine → List Routine
  | .update => (if createMissing then [.missingCreate] else []) ++ [.recreate, .modify]
  | .checkUpdate =>
    (if createMissing then [.missingCreateCheck] else []) ++ [.recreateCheck, .modifyCheck]
  | .commitUpdate => [.recreateCommit]
  | .finishUpdate => [.recreateFinish]
  | _ => []

theorem label_left_inj {r₁ r₂ : Routine} {name : String} (h : r₁.label name = r₂.label name) :
    r₁ = r₂ := by
  have htext : r₁.text = r₂.text := by simpa [label] using h
  revert htext
  cases r₁ <;> cases r₂ <;> decide

end Routine

namespace Resource

theorem mem_routines_of_target {action : Action} {createMissing : Bool} {e : String × Routine}
    (he : e ∈ routines action createMissing) {target : Routine}
    (h : target ∈ e.2.targets createMissing) :
    (target.text, target) ∈ routines action createMissing := by
  revert e target
  cases action <;> cases createMissing <;> decide

/-- Whatever a resource needs beyond its four phases is a target of one of them. -/
theorem phase_or_target {action : Action} {createMissing : Bool} {e : String × Routine}
    (he : e ∈ routines action createMissing) :
    ∃ phase ∈ Phase.all, e.2 = Routine.forPhase action phase ∨
      e.2 ∈ (Routine.forPhase action phase).targets createMissing := by
  revert e
  cases action <;> cases createMissing <;> decide

theorem gotoIf_mem_script {r : Resource} {createMissing : Bool} {routine : Routine}
    {target : Target} : .gotoIf target ∈ r.script createMissing routine ↔
      ∃ branch ∈ routine.targets createMissing, target = .label (branch.label r.name) := by
  cases hlate : r.schema.deleteAtEnd <;> cases routine <;> cases createMissing <;>
    simp [script, Routine.targets, Emit.withProperties, Emit.onResource, Emit.load, Emit.branch,
      Emit.probe, Emit.reconcile, Emit.deleteNow, Emit.deleteLate, Emit.vacate,
      Emit.replaceMissing, Emit.write, or_comm, hlate]

theorem gotoIf_mem_body {r : Resource} {createMissing : Bool} {routine : Routine}
    {target : Target} : .gotoIf target ∈ (r.piece createMissing routine).body ↔
      ∃ branch ∈ routine.targets createMissing, target = .label (branch.label r.name) := by
  rw [← gotoIf_mem_script]
  simp [Subroutine.body, piece]

end Resource

/-! ### Which operations a routine has -/

/-- The operations of a routine. -/
def Routine.operations (createMissing deleteAtEnd : Bool) : Routine → List ResourceOp
  | .create | .missingCreate => [.create]
  | .checkCreate | .recreateCheck | .missingCreateCheck => [.checkCreate]
  | .update => (if createMissing then [.checkExist] else []) ++ [.read, .rescmp]
  | .modify => [.update]
  | .modifyCheck => [.checkUpdate]
  | .recreate => (if deleteAtEnd then [.markDeletable] else [.delete, .checkDelete]) ++ [.create]
  | .delete => if deleteAtEnd then [] else [.delete]
  | .checkDelete => if deleteAtEnd then [] else [.checkDelete]
  | .commitDelete | .recreateCommit => if deleteAtEnd then [.delete] else []
  | .finishDelete | .recreateFinish => if deleteAtEnd then [.checkDelete] else []
  | .commitCreate | .finishCreate | .checkUpdate | .commitUpdate | .finishUpdate => []

namespace Resource

variable {r : Resource} {createMissing : Bool} {routine : Routine} {op : ResourceOp}

theorem resource_mem_body : .resource op ∈ (r.piece createMissing routine).body ↔
    op ∈ routine.operations createMissing r.schema.deleteAtEnd := by
  cases hlate : r.schema.deleteAtEnd <;> cases routine <;> cases createMissing <;>
    simp [Subroutine.body, piece, script, Routine.operations, Emit.withProperties,
      Emit.onResource, Emit.load, Emit.branch, Emit.probe, Emit.reconcile, Emit.deleteNow,
      Emit.deleteLate, Emit.vacate, Emit.replaceMissing, Emit.write, hlate]

/-- Only the start of an update looks for the object, reads it and compares it. -/
theorem update_of_looks (hop : op = .checkExist ∨ op = .read ∨ op = .rescmp)
    (h : .resource op ∈ (r.piece createMissing routine).body) : routine = .update := by
  rw [resource_mem_body] at h
  revert h
  rcases hop with rfl | rfl | rfl <;> cases routine <;> cases createMissing <;>
    cases r.schema.deleteAtEnd <;> decide

/-- Only an update that is made in place updates the object. -/
theorem modify_of_update (h : .resource .update ∈ (r.piece createMissing routine).body) :
    routine = .modify := by
  rw [resource_mem_body] at h
  revert h
  cases routine <;> cases createMissing <;> cases r.schema.deleteAtEnd <;> decide

theorem creates_of_mem_body (h : .resource .create ∈ (r.piece createMissing routine).body) :
    routine.creates = true := by
  rw [resource_mem_body] at h
  revert h
  cases routine <;> cases createMissing <;> cases r.schema.deleteAtEnd <;> decide

/-- Only routines without branches write new identifiers. -/
theorem targets_of_writes (hop : op = .create ∨ op = .markDeletable)
    (h : .resource op ∈ (r.piece createMissing routine).body) :
    routine.targets createMissing = [] := by
  rw [resource_mem_body] at h
  revert h
  rcases hop with rfl | rfl <;> cases routine <;> cases createMissing <;>
    cases r.schema.deleteAtEnd <;> decide

/-- The two checks stand in bodies without branches. -/
theorem targets_of_check (hop : op = .checkCreate ∨ op = .checkUpdate)
    (h : .resource op ∈ (r.piece createMissing routine).body) :
    routine.targets createMissing = [] := by
  rw [resource_mem_body] at h
  revert h
  rcases hop with rfl | rfl <;> cases routine <;> cases createMissing <;>
    cases r.schema.deleteAtEnd <;> decide

end Resource

/-! ### Every jump lands at home -/

namespace Compilation

variable {plan : Plan}

/-- Labels are told apart, the bodies lie where the labels point, and every call and every
jump lands in the resource it was made for. -/
structure StaysHome (c : Compilation plan) : Prop where
  /-- No two subroutines share a label. -/
  labels : (c.table.values.map Subroutine.label).Nodup
  /-- The table of labels has one entry for each subroutine: its place. -/
  indexed : c.layout.labels.entries = c.layout.placed.map fun e => (e.1.label, e.2)
  /-- The bodies lie end to end behind the driver. -/
  laid : ∀ before e after, c.layout.placed = before ++ e :: after →
    e.2 = c.layout.driver.length + (before.map fun f => f.1.size).sum
  /-- Each body begins by emptying scratch and ends by returning. -/
  closed : ∀ e ∈ c.layout.placed, c.layout.instructions[e.2]? = some .clear ∧
    c.layout.instructions[e.2 + (e.1.size - 1)]? = some .ret
  /-- The call for a phase of a resource lands at its routine. -/
  calls : ∀ ra ∈ c.actions, ∀ phase, ∃ label,
    c.callFor (ra.1.name, phase) = some (.call label) ∧
      c.layout.Lands label ra.1.name (Routine.forPhase ra.2 phase)
  /-- A jump in a routine of a resource lands at a branch of the same resource. -/
  jumps : ∀ s ∈ c.table.values, ∀ target, .gotoIf target ∈ s.body →
    ∃ branch ∈ s.routine.targets plan.createMissing,
      target = .label (branch.label s.owner) ∧
        c.layout.Lands (branch.label s.owner) s.owner branch

theorem labels_nodup {c : Compilation plan} (h : c.Distinct) :
    (c.table.values.map Subroutine.label).Nodup := by
  rw [values_of_nodup h.keys, List.map_map]
  exact h.labels

theorem piece_mem_values {c : Compilation plan} (h : (c.pieces.map Prod.fst).Nodup)
    {ra : Resource × Action} (hra : ra ∈ c.actions) {e : String × Routine}
    (he : e ∈ Resource.routines ra.2 plan.createMissing) :
    ra.1.piece plan.createMissing e.2 ∈ c.table.values := by
  rw [values_of_nodup h]
  exact List.mem_map.2 ⟨_, mem_pieces.2 ⟨ra, hra, e, he, rfl⟩, rfl⟩

/-- A subroutine of the table is a routine that some resource needs. -/
theorem exists_piece {c : Compilation plan} {s : Subroutine} (h : s ∈ c.table.values) :
    ∃ ra ∈ c.actions, ∃ e ∈ Resource.routines ra.2 plan.createMissing,
      s = ra.1.piece plan.createMissing e.2 := by
  obtain ⟨key, hmem⟩ := mem_pieces_of_mem_values h
  obtain ⟨ra, hra, e, he, heq⟩ := mem_pieces.1 hmem
  exact ⟨ra, hra, e, he, (Prod.mk.inj heq).2⟩

/-- The label of a routine that a resource needs leads there. -/
theorem lands_piece {c : Compilation plan} (h : c.Distinct) {ra : Resource × Action}
    (hra : ra ∈ c.actions) {e : String × Routine}
    (he : e ∈ Resource.routines ra.2 plan.createMissing) :
    c.layout.Lands (e.2.label ra.1.name) ra.1.name e.2 := by
  obtain ⟨i, hi⟩ := Layout.exists_placed (l := c.layout) (piece_mem_values h.keys hra he)
  exact ⟨_, hi, rfl, rfl, Layout.get?_label (labels_nodup h) hi⟩

theorem staysHome_of_distinct {c : Compilation plan} (h : c.Distinct) : c.StaysHome where
  labels := labels_nodup h
  indexed := Layout.labels_entries (labels_nodup h)
  laid before e after heq := Layout.place_eq_sum heq
  closed e he := Layout.body_closed he
  calls ra hra phase :=
    ⟨_, callFor_eq h.keys hra phase,
      lands_piece h hra (phase_mem_routines ra.2 plan.createMissing phase)⟩
  jumps s hs target htarget := by
    obtain ⟨ra, hra, e, he, rfl⟩ := exists_piece hs
    obtain ⟨branch, hbranch, rfl⟩ := Resource.gotoIf_mem_body.1 htarget
    exact ⟨branch, hbranch, rfl, lands_piece h hra (Resource.mem_routines_of_target he hbranch)⟩

/-- If calls and jumps land at home, every routine that a resource needs is in the table. -/
theorem StaysHome.present {c : Compilation plan} (h : c.StaysHome) {ra : Resource × Action}
    (hra : ra ∈ c.actions) {e : String × Routine}
    (he : e ∈ Resource.routines ra.2 plan.createMissing) :
    (ra.1.name, e.2) ∈ c.table.values.map fun s => (s.owner, s.routine) := by
  obtain ⟨phase, -, hphase⟩ := Resource.phase_or_target he
  obtain ⟨label, -, f, hf, howner, hroutine, -⟩ := h.calls ra hra phase
  have hvalue : f.1 ∈ c.table.values := Layout.mem_values_of_placed hf
  rcases hphase with heq | htarget
  · exact List.mem_map.2 ⟨f.1, hvalue, by rw [howner, hroutine, heq]⟩
  · -- The routine of the phase is in the table, so its jump to the branch is in the program.
    obtain ⟨rb, hrb, e', he', hpiece⟩ := exists_piece hvalue
    rw [hpiece] at howner hroutine
    obtain rfl := eq_of_name_eq hrb hra howner
    have hjump : .gotoIf (.label (e.2.label rb.1.name)) ∈ f.1.body := by
      rw [hpiece]
      exact Resource.gotoIf_mem_body.2
        ⟨e.2, by rw [show e'.2 = _ from hroutine]; exact htarget, rfl⟩
    obtain ⟨branch, -, hlabel, g, hg, howner', hroutine', -⟩ := h.jumps f.1 hvalue _ hjump
    have hsame : e.2.label rb.1.name = branch.label rb.1.name := by
      rw [hpiece] at hlabel
      simpa [Resource.piece] using hlabel
    have hbranch : e.2 = branch := Routine.label_left_inj hsame
    refine List.mem_map.2 ⟨g.1, Layout.mem_values_of_placed hg, ?_⟩
    rw [howner', hroutine', hpiece, hbranch]
    rfl

theorem distinct_of_staysHome {c : Compilation plan} (h : c.StaysHome) : c.Distinct := by
  have hsubset : (c.pieces.map fun e => (e.2.owner, e.2.routine)) ⊆
      c.table.values.map fun s => (s.owner, s.routine) := by
    intro x hx
    obtain ⟨p, hp, rfl⟩ := List.mem_map.1 hx
    obtain ⟨ra, hra, e, he, rfl⟩ := mem_pieces.1 hp
    exact h.present hra he
  have hlength : c.pieces.length ≤ (Entries.ofList c.pieces).length := by
    have hle := (c.nodup_owners.subperm hsubset).length_le
    rw [List.length_map, List.length_map, Table.values, List.length_map,
      c.table_eq_ofList] at hle
    exact hle
  have hkeys := Entries.nodup_of_length_ofList hlength
  have hlabels := h.labels
  rw [values_of_nodup hkeys, List.map_map] at hlabels
  exact ⟨hkeys, hlabels⟩

/-- **Every call and every jump of a program lands in the resource it was made for exactly
if the keys and the labels are distinct.** -/
theorem staysHome_iff {p : Program} (h : plan.compile = .ok p) :
    ∃ c : Compilation plan, c.program = p ∧ (c.StaysHome ↔ c.Distinct) := by
  obtain ⟨c, hc⟩ := compile_eq_ok.1 h
  exact ⟨c, hc, distinct_of_staysHome, staysHome_of_distinct⟩

/-- A plan whose names keep out of each other's way: its calls and jumps all stay home. -/
theorem staysHome_plain :
    ∃ p, (plainPlan true ["x", "y"] ["y", "z"] true).compile = .ok p ∧
      ∃ c : Compilation (plainPlan true ["x", "y"] ["y", "z"] true),
        c.program = p ∧ c.StaysHome := by
  obtain ⟨c, hc, hiff⟩ :=
    staysHome_iff (rfl : (plainPlan true ["x", "y"] ["y", "z"] true).compile = .ok _)
  exact ⟨_, rfl, c, hc, hiff.2 c.distinct_plain⟩

/-- The branch `modify` of `check_y` has the label of the branch `modify_check` of `y`, so a
jump of `y` lands where the fields of `check_y` are sent. -/
theorem not_staysHome_check :
    ∃ p, (plainPlan false ["y", "check_y"] ["y", "check_y"] false).compile = .ok p ∧
      (∃ i, p.label (Routine.modifyCheck.label "y") = .ok i ∧
        p.instructions[i + 2]? = some (.value (.str "check_y")) ∧
        p.instructions[i + 7]? = some (.resource .update)) ∧
      ∀ c : Compilation (plainPlan false ["y", "check_y"] ["y", "check_y"] false),
        ¬ c.StaysHome := by
  refine ⟨_, rfl, ⟨_, rfl, rfl, rfl⟩, ?_⟩
  intro c hhome
  have hlabels := (distinct_of_staysHome hhome).labels
  rw [pieces_eq
    (rfl : (plainPlan false ["y", "check_y"] ["y", "check_y"] false).actions = .ok _)] at hlabels
  exact absurd hlabels (by decide +kernel)

end Compilation

end Provisioning
