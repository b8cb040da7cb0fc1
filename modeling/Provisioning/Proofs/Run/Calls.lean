/-
Which phases of a resource lie behind.

The driver makes one call for each entry of the schedule, so how far it has come is the
number of calls it has made.  `past` lists the phases of a resource among them.  They come in
their order, so they are the first of the four phases, and when a phase is called next it is
the first one that is missing.

What may be decided about a resource follows: nothing before its start, and afterwards
whatever its start may end with.
-/
import Mathlib.Data.List.Basic
import Provisioning.Proofs.Run.Typing

namespace Provisioning

/-- Where a function is defined on a whole list, filtering drops nothing. -/
theorem getElem?_filterMap {α β : Type} {f : α → Option β} {l : List α}
    (h : ∀ a ∈ l, (f a).isSome = true) (k : Nat) : (l.filterMap f)[k]? = l[k]?.bind f := by
  induction l generalizing k with
  | nil => rfl
  | cons a rest ih =>
    obtain ⟨b, hb⟩ := Option.isSome_iff_exists.1 (h a List.mem_cons_self)
    rw [List.filterMap_cons_some hb]
    cases k with
    | zero => simp [hb]
    | succ k => simpa using ih (fun x hx => h x (List.mem_cons_of_mem _ hx)) k

namespace Compilation

variable {plan : Plan} {c : Compilation plan}

/-! ### The driver, call by call -/

theorem isSome_callFor (h : (c.pieces.map Prod.fst).Nodup) :
    ∀ e ∈ c.schedule, (c.callFor e).isSome = true := by
  rintro ⟨n, phase⟩ he
  obtain ⟨ra, hra, rfl⟩ := List.mem_map.1 (mem_schedule.1 he)
  rw [callFor_eq h hra]
  rfl

theorem length_driver (h : (c.pieces.map Prod.fst).Nodup) :
    c.layout.driver.length = c.schedule.length + 2 := by
  have hcalls : (c.schedule.filterMap c.callFor).length = c.schedule.length :=
    List.filterMap_length_eq_length.2 (isSome_callFor h)
  rw [driver_eq, List.length_cons, List.length_append, hcalls]
  rfl

theorem instruction_init (c : Compilation plan) : c.program.instructions[0]? = some .init := by
  show c.layout.instructions[0]? = _
  rw [Layout.getElem?_driver (by rw [driver_eq]; simp), driver_eq]
  rfl

/-- The calls stand behind the first instruction, in the order of the schedule. -/
theorem instruction_call (h : (c.pieces.map Prod.fst).Nodup) {ra : Resource × Action}
    (hra : ra ∈ c.actions) {k : Nat} {phase : Phase}
    (hk : c.schedule[k]? = some (ra.1.name, phase)) :
    c.program.instructions[k + 1]? =
      some (.call ((Routine.forPhase ra.2 phase).label ra.1.name)) := by
  have hlt : k < c.schedule.length := (List.getElem?_eq_some_iff.1 hk).1
  have hcall := getElem?_filterMap (isSome_callFor h) k
  rw [hk, Option.bind_some, callFor_eq h hra] at hcall
  show c.layout.instructions[k + 1]? = _
  rw [Layout.getElem?_driver (by rw [length_driver h]; omega), driver_eq,
    List.getElem?_cons_succ, List.getElem?_append_left]
  · exact hcall
  · exact (List.getElem?_eq_some_iff.1 hcall).1

theorem instruction_halt (h : (c.pieces.map Prod.fst).Nodup) :
    c.program.instructions[c.schedule.length + 1]? = some .halt := by
  have hcalls : (c.schedule.filterMap c.callFor).length = c.schedule.length :=
    List.filterMap_length_eq_length.2 (isSome_callFor h)
  show c.layout.instructions[c.schedule.length + 1]? = _
  rw [Layout.getElem?_driver (by rw [length_driver h]; omega), driver_eq,
    List.getElem?_cons_succ, List.getElem?_append_right (Nat.le_of_eq hcalls), hcalls, Nat.sub_self]
  rfl

/-! ### Phases that lie behind -/

/-- The phases of a resource among the first `k` calls. -/
def past (c : Compilation plan) (k : Nat) (name : String) : List Phase :=
  ((c.schedule.take k).filter fun e => e.1 = name).map Prod.snd

theorem past_zero (name : String) : c.past 0 name = [] := rfl

theorem past_succ {k : Nat} {e : String × Phase} (hk : c.schedule[k]? = some e) (name : String) :
    c.past (k + 1) name = c.past k name ++ if e.1 = name then [e.2] else [] := by
  unfold past
  rw [List.take_add_one, hk, List.filter_append, List.map_append]
  by_cases he : e.1 = name <;> simp [he]

/-- A phase lies behind if its call was made. -/
theorem mem_past {k : Nat} {name : String} {phase : Phase} :
    phase ∈ c.past k name ↔ ∃ j < k, c.schedule[j]? = some (name, phase) := by
  constructor
  · intro h
    obtain ⟨e, he, rfl⟩ := List.mem_map.1 h
    obtain ⟨htake, hname⟩ := List.mem_filter.1 he
    obtain ⟨j, hj⟩ := List.getElem?_of_mem htake
    by_cases hjk : j < k
    · rw [List.getElem?_take_of_lt hjk] at hj
      exact ⟨j, hjk, hj.trans (congrArg some (Prod.ext (by simpa using hname) rfl))⟩
    · rw [List.getElem?_take_eq_none (Nat.le_of_not_lt hjk)] at hj
      cases hj
  · rintro ⟨j, hjk, hj⟩
    have htake : (c.schedule.take k)[j]? = some (name, phase) := by
      rw [List.getElem?_take_of_lt hjk]
      exact hj
    exact List.mem_map.2 ⟨_, List.mem_filter.2 ⟨List.mem_of_getElem? htake, by simp⟩, rfl⟩

/-- In the end every phase of every resource lies behind. -/
theorem past_length {name : String} (h : name ∈ c.names) :
    c.past c.schedule.length name = Phase.all := by
  have hsorted : (c.past c.schedule.length name).Pairwise (·.rank < ·.rank) := by
    unfold past
    rw [List.take_length, List.pairwise_map]
    refine (c.schedule_pairwise.filter _).imp_of_mem fun ha hb horder => horder ?_
    have ha := (List.mem_filter.1 ha).2
    have hb := (List.mem_filter.1 hb).2
    simp only [decide_eq_true_eq] at ha hb
    rw [ha, hb]
  have hall : Phase.all.Pairwise (·.rank < ·.rank) := by decide
  have hnodup : ∀ {l : List Phase}, l.Pairwise (·.rank < ·.rank) → l.Nodup := fun hl =>
    hl.imp fun hlt heq => by
      subst heq
      exact Nat.lt_irrefl _ hlt
  refine List.Perm.eq_of_pairwise (fun a b _ _ hab hba => ?_) hsorted hall ?_
  · exact absurd hab (Nat.lt_asymm hba)
  · refine (List.perm_ext_iff_of_nodup (hnodup hsorted) (hnodup hall)).2 ?_
    intro phase
    refine ⟨fun _ => phase.mem_all, ?_⟩
    intro _
    unfold past
    rw [List.take_length]
    refine List.mem_map.2 ⟨(name, phase), List.mem_filter.2 ⟨mem_schedule.2 h, ?_⟩, rfl⟩
    simp

theorem past_isPrefix (k : Nat) {name : String} (h : name ∈ c.names) :
    c.past k name <+: Phase.all := by
  rw [← past_length h]
  unfold past
  rw [List.take_length]
  exact ((List.take_prefix k c.schedule).filter _).map _

/-- A phase is called when exactly the ones before it lie behind. -/
theorem past_append_isPrefix {k : Nat} {name : String} {phase : Phase}
    (hk : c.schedule[k]? = some (name, phase)) : c.past k name ++ [phase] <+: Phase.all := by
  have hname : name ∈ c.names := mem_schedule.1 (List.mem_of_getElem? hk)
  have hsucc := past_isPrefix (k + 1) hname
  rw [past_succ hk, if_pos rfl] at hsucc
  exact hsucc

theorem past_eq_nil_iff {k : Nat} {name : String} {phase : Phase}
    (hk : c.schedule[k]? = some (name, phase)) : c.past k name = [] ↔ phase = .start := by
  obtain ⟨rest, hrest⟩ := past_append_isPrefix hk
  constructor
  · intro hnil
    rw [hnil] at hrest
    exact (List.cons.inj hrest).1
  · rintro rfl
    cases hpast : c.past k name with
    | nil => rfl
    | cons first later =>
      -- Otherwise the start would come a second time.
      rw [hpast] at hrest
      have htail : later ++ [Phase.start] ++ rest = [.check, .commit, .finish] :=
        (List.cons.inj hrest).2
      have hmem : Phase.start ∈ later ++ [Phase.start] ++ rest := by simp
      rw [htail] at hmem
      simp at hmem

/-! ### What may be decided -/

/-- What may have been decided about a resource when `k` calls are made. -/
def expected (c : Compilation plan) (k : Nat) (ra : Resource × Action) :
    List (Option Decision) :=
  if c.past k ra.1.name = [] then [none] else settled plan.createMissing ra.2

theorem expected_zero (ra : Resource × Action) : c.expected 0 ra = [none] := rfl

/-- A call of another resource changes nothing. -/
theorem expected_succ_of_ne {k : Nat} {e : String × Phase} (hk : c.schedule[k]? = some e)
    {ra : Resource × Action} (hne : e.1 ≠ ra.1.name) : c.expected (k + 1) ra = c.expected k ra := by
  unfold expected
  rw [past_succ hk, if_neg hne, List.append_nil]

theorem expected_succ {k : Nat} {ra : Resource × Action} {phase : Phase}
    (hk : c.schedule[k]? = some (ra.1.name, phase)) :
    c.expected (k + 1) ra = settled plan.createMissing ra.2 := by
  unfold expected
  rw [past_succ hk, if_pos rfl, if_neg (by simp)]

/-- The routine of a phase presumes what is expected when it is called. -/
theorem presumed_forPhase {k : Nat} {ra : Resource × Action} {phase : Phase}
    (hk : c.schedule[k]? = some (ra.1.name, phase)) :
    (Routine.forPhase ra.2 phase).presumed plan.createMissing = c.expected k ra := by
  unfold expected
  simp only [past_eq_nil_iff hk]
  cases ra.2 <;> cases phase <;> rfl

theorem phase_forPhase (action : Action) (phase : Phase) :
    (Routine.forPhase action phase).phase = phase := by
  cases action <;> cases phase <;> rfl

theorem none_notMem_settled (createMissing : Bool) : none ∉ settled createMissing .update := by
  cases createMissing <;> simp [settled]

/-- After the start of an update its decision is made. -/
theorem ne_none_of_expected {k : Nat} {ra : Resource × Action} (hpast : c.past k ra.1.name ≠ [])
    (haction : ra.2 = .update) {d : Option Decision} (hd : d ∈ c.expected k ra) : d ≠ none := by
  rintro rfl
  unfold expected at hd
  rw [if_neg hpast, haction] at hd
  exact none_notMem_settled _ hd

end Compilation

end Provisioning
