/-
What is left alone while others are served.

A step in the routine of a resource touches what is kept under the name of the resource, and
under the name where it puts its object aside, and it speaks about nothing else.  So two times
of a run `Concur` on a resource if in between no call was made for it.  Whether one was made
can be told from the phases of the resource that lie behind: a call that was begun and has
returned adds a phase, and phases are never taken back.  So where the same phases lie behind
at two places outside of the routines of a resource, these places concur on it
(`Reaches.concurs`), and a run that has an end comes up with every call that is still to be
made, with the resource left as it was (`Reaches.comesUp`).
-/
import Provisioning.Proofs.Run.Alike
import Provisioning.Proofs.Run.Replies
import Provisioning.Proofs.Plan.Reorder

namespace Provisioning

/-- After `n` steps of one run and `n'` of another, the same is kept for a resource and for what
it has put aside, and the same was said about it. -/
structure Run.Concurs {W : Type} (p q : Program) (types : Registry W) (w : W) (name : String)
    (n n' : Nat) : Prop where
  tables : (steps p types n (fresh w)).memory.Agree (undeletable · = name)
    (steps q types n' (fresh w)).memory
  about : Run.about name (spoken q types (fresh w) n') = Run.about name (spoken p types (fresh w) n)

namespace Run.Concurs

variable {W : Type} {p q p' : Program} {types : Registry W} {w : W} {name : String}
  {n n' n₁ : Nat}

theorem refl (p : Program) (types : Registry W) (w : W) (name : String) (n : Nat) :
    Concurs p p types w name n n :=
  ⟨.refl _ _, rfl⟩

theorem symm (h : Concurs p q types w name n n') : Concurs q p types w name n' n :=
  ⟨h.tables.symm, h.about.symm⟩

theorem trans (h : Concurs p p' types w name n n₁) (h' : Concurs p' q types w name n₁ n') :
    Concurs p q types w name n n' :=
  ⟨h.tables.trans h'.tables, h'.about.trans h.about⟩

end Run.Concurs

/-- An operation touches only what is kept under the name that is staged; putting aside also
touches the name where it puts things. -/
theorem Staged.Performed.agree {W : Type} {s : Staged W} {rom : Rom} {m m' : Memory} {w w' : W}
    {es : List Exchange} (h : s.Performed rom m w m' w' es) (on : String → Prop)
    (hname : ¬ on s.name) (haside : s.op = .markDeletable → ¬ on (deletable s.name)) :
    m.Agree on m' := by
  have hne : ∀ {n}, on n → s.name ≠ n := fun hn heq => hname (heq ▸ hn)
  cases h with
  | create =>
    refine ⟨fun n hn => ?_, fun _ _ => rfl, fun _ _ => rfl, fun _ _ => rfl⟩
    rw [Table.get?_insert, if_neg (hne hn)]
  | read | update | updateRead | delete | checkExist | presume | filter =>
    exact ⟨fun _ _ => rfl, fun _ _ => rfl, fun _ _ => rfl, fun _ _ => rfl⟩
  | readOutputs | checkChange =>
    refine ⟨fun _ _ => rfl, fun n hn => ?_, fun _ _ => rfl, fun _ _ => rfl⟩
    rw [Table.get?_insert, if_neg (hne hn)]
  | checkDelete =>
    refine ⟨fun n hn => ?_, fun n hn => ?_, fun _ _ => rfl, fun n hn => ?_⟩
    · exact (Table.get?_erase _ _ _).trans (if_neg (hne hn))
    · exact (Table.get?_erase _ _ _).trans (if_neg (hne hn))
    · have hzero : [s.name].count n = 0 :=
        List.count_eq_zero_of_not_mem (by simpa using (hne hn).symm)
      show (m.deleted ++ [s.name]).count n = m.deleted.count n
      rw [List.count_append, hzero, Nat.add_zero]
  | markDeletable hop =>
    refine ⟨fun n hn => ?_, fun _ _ => rfl, fun _ _ => rfl, fun _ _ => rfl⟩
    have haside : deletable s.name ≠ n := fun heq => haside hop (heq ▸ hn)
    rw [Table.get?_insert, if_neg haside, Table.get?_erase, if_neg (hne hn)]
  | rescmp =>
    refine ⟨fun _ _ => rfl, fun _ _ => rfl, fun n hn => ?_, fun _ _ => rfl⟩
    rw [Table.get?_insert, if_neg (hne hn)]

namespace Compilation

variable {plan : Plan} {W : Type} {c : Compilation plan} {types : Registry W} {w : W}
  {name : String} {n n' t N : Nat} {place place' : Place}

/-! ### Phases that lie behind -/

theorem past_mono (c : Compilation plan) {k k' : Nat} (h : k ≤ k') (name : String) :
    c.past k name <+: c.past k' name := by
  unfold past
  exact ((List.take_prefix_take_left h).filter _).map _

theorem past_of_notMem (h : name ∉ c.names) (k : Nat) : c.past k name = [] := by
  refine List.eq_nil_iff_forall_not_mem.2 fun phase hphase => ?_
  obtain ⟨j, -, hj⟩ := mem_past.1 hphase
  exact h (mem_schedule.1 (List.mem_of_getElem? hj))

/-! ### One step -/

/-- An operation acts on its resource, or on what that has put aside. -/
theorem undeletable_of_serves (h : plan.Unmarked) {m : Memory} {k : Nat} {ra : Resource × Action}
    {routine : Routine} {before rest : List Instruction} {K : Known} {s : Staged W}
    (hfaces : c.Faces types k ra routine before rest K s m) :
    undeletable s.name = ra.1.name := by
  rcases hfaces.serves.name with hname | hname
  · rw [hname, undeletable_of_planned h hfaces.inRoutine.planned]
  · rw [hname, undeletable_deletable]

theorem Coasts.concurs (h : c.Coasts types w n) (name : String) :
    Run.Concurs c.program c.program types w name n (n + 1) :=
  ⟨h.tables.agree _, Run.about_succ_of_silent h.silent name⟩

section

variable (hd : c.Distinct) (htypes : ∀ t ∈ plan.declaration.catalog.keys, t ∈ types.keys)

include hd htypes in
/-- What is said in a step is about the resource whose routine it is made in. -/
theorem Reaches.owner_of_said (hunmarked : plan.Unmarked) (h : c.Reaches types w n place)
    (hspeaks : Run.exchanges c.program types (c.after types w n) ≠ []) :
    place.owner? = some (undeletable (Run.stagedName (c.after types w n).memory)) := by
  obtain ⟨e, he⟩ := List.exists_mem_of_ne_nil _ hspeaks
  obtain ⟨k, ra, routine, before, rest, K, s, rfl, hfaces, -⟩ :=
    faces_of_said hd htypes h.stands.1 h.stands.2 he
  have hstaged : Run.stagedName (c.after types w n).memory = s.name := by
    rw [Run.stagedName, hfaces.named]
    rfl
  rw [hstaged, undeletable_of_serves hunmarked hfaces]
  rfl

include hd htypes in
theorem Reaches.about_step (hunmarked : plan.Unmarked) (h : c.Reaches types w n place)
    (howner : place.owner? ≠ some name) :
    Run.about name (Run.spoken c.program types (Run.fresh w) (n + 1)) =
      Run.about name (Run.spoken c.program types (Run.fresh w) n) := by
  by_cases hsilent : Run.exchanges c.program types (c.after types w n) = []
  · exact Run.about_succ_of_silent hsilent name
  · have hsaid := h.owner_of_said hd htypes hunmarked hsilent
    generalize hstaged : Run.stagedName (c.after types w n).memory = staged at hsaid
    have hother : undeletable staged ≠ name := fun heq => howner (heq ▸ hsaid)
    rw [Run.about_succ hstaged, Run.about_map_of_ne hother, List.append_nil]

include hd htypes in
theorem Reaches.gives {reply : String → Replies} (hunmarked : plan.Unmarked)
    (hreplies : Run.RepliesBy c.program types w reply) {k : Nat} {ra : Resource × Action}
    {routine : Routine} {before rest : List Instruction} {K : Known}
    (h : c.Reaches types w n (.routine k ra routine before rest K)) :
    (reply ra.1.name).Gives (Run.stagedName (c.after types w n).memory)
      (Run.asked (Run.about ra.1.name (Run.spoken c.program types (Run.fresh w) n)))
      (Run.exchanges c.program types (c.after types w n)) := by
  by_cases hsilent : Run.exchanges c.program types (c.after types w n) = []
  · rw [hsilent]
    trivial
  · have howner := Option.some.inj (h.owner_of_said hd htypes hunmarked hsilent)
    generalize hstaged : Run.stagedName (c.after types w n).memory = staged at howner
    have hgives := hreplies.gives n hstaged
    rw [← howner] at hgives
    exact hgives

include hd htypes in
/-- **A step in the routine of another resource leaves a resource as it is.** -/
theorem Reaches.unmoved (hunmarked : plan.Unmarked) (h : c.Reaches types w n place)
    (hadvances : c.Advances types (c.after types w n) (c.after types w (n + 1)) place place')
    (hplace : place ≠ .start) (howner : place.owner? ≠ some name) :
    Run.Concurs c.program c.program types w name n (n + 1) := by
  refine ⟨?_, h.about_step hd htypes hunmarked howner⟩
  show (c.after types w n).memory.Agree _ (c.after types w (n + 1)).memory
  have hother : ∀ {ra : Resource × Action}, ra ∈ c.actions → place.owner? = some ra.1.name →
      ∀ {x}, undeletable x = name → ra.1.name ≠ x := by
    rintro ra hra hname x hx rfl
    rw [undeletable_of_planned hunmarked hra] at hx
    exact howner (hx ▸ hname)
  cases hadvances.effect with
  | init => exact absurd rfl hplace
  | quiet _ _ htables => exact htables.agree _
  | forget hroutine _ _ _ hids houtputs hdecisions hdeleted =>
    refine ⟨fun x hx => ?_, fun x _ => by rw [houtputs], fun x _ => by rw [hdecisions],
      fun x _ => by rw [hdeleted]⟩
    rw [hids, Table.get?_erase, if_neg (hother hroutine.planned rfl hx)]
  | settle hroutine _ hids houtputs hdecisions hdeleted =>
    refine ⟨fun x _ => by rw [hids], fun x _ => by rw [houtputs], fun x hx => ?_,
      fun x _ => by rw [hdeleted]⟩
    rw [hdecisions, Table.get?_insert, if_neg (hother hroutine.planned rfl hx)]
  | @did k ra routine s before rest K m hfaces _ hperformed _ hmemory =>
    have hserved : undeletable s.name ≠ name := by
      rw [undeletable_of_serves hunmarked hfaces]
      exact fun heq => howner (congrArg some heq)
    have hagree := hperformed.agree (undeletable · = name) hserved fun hop => by
      have hself := (putAside_of_faces hd hfaces h.stands.2 hop).1
      rw [undeletable_deletable, hself]
      exact fun heq => howner (congrArg some heq)
    rw [hmemory]
    exact ⟨hagree.remoteIds, hagree.outputs, hagree.decisions, hagree.deleted⟩
  | wait _ _ hmemory =>
    rw [hmemory]
    exact .refl _ _

/-- A step outside of the routines of a resource makes the next call for it, or leaves its
phases as they are. -/
theorem Advances.calls_or_stays {r r' : Run W} (h : c.Advances types r r' place place')
    (hplace : place ≠ .start) (howner : place.owner? ≠ some name) :
    (place' ≠ .start ∧ place'.owner? ≠ some name ∧
        c.past (c.calls place') name = c.past (c.calls place) name) ∨
      ∃ k ra phase, ra ∈ c.actions ∧ ra.1.name = name ∧ c.schedule[k]? = some (name, phase) ∧
        place = .driver k ∧ place' = .routine k ra (Routine.forPhase ra.2 phase) []
          (ra.1.piece plan.createMissing (Routine.forPhase ra.2 phase)).body
          (ra.1.entry plan.createMissing (Routine.forPhase ra.2 phase)) := by
  cases h.executes with
  | init => exact absurd rfl hplace
  | @call k start ra phase hra hk =>
    by_cases hname : ra.1.name = name
    · exact .inr ⟨k, ra, phase, hra, hname, hname ▸ hk, rfl, rfl⟩
    · exact .inl ⟨Place.noConfusion, fun heq => hname (Option.some.inj heq), rfl⟩
  | halt => exact .inl ⟨Place.noConfusion, howner, rfl⟩
  | next | jump | wait => exact .inl ⟨Place.noConfusion, howner, rfl⟩
  | ret hroutine =>
    refine .inl ⟨Place.noConfusion, (fun heq => by cases heq), ?_⟩
    show c.past (_ + 1) name = c.past _ name
    rw [past_succ hroutine.scheduled, if_neg fun heq => howner (congrArg some heq),
      List.append_nil]
    rfl

include hd htypes in
theorem Reaches.goesOn (h : c.Reaches types w n place) (hlast : c.Reaches types w N place')
    (hn : n < N) : ∃ place₁,
      c.Advances types (c.after types w n) (c.after types w (n + 1)) place place₁ := by
  have hgoes : place ≠ .halted := by
    rintro rfl
    have := hlast.le_of_ended hd (ended_of_halted h)
    omega
  rcases executes hd htypes h.stands.1 hgoes h.stands.2 with hcontinues | hstops
  · rw [after_succ]
    exact advances_of_continues hd htypes h.stands.1 h.stands.2 hcontinues
  · rw [← after_succ] at hstops
    have herror : ∃ f, (c.after types w (n + 1)).memory.error = some f := by
      generalize c.after types w (n + 1) = r' at hstops
      cases hstops with
      | fault => exact ⟨_, rfl⟩
    obtain ⟨f, hf⟩ := herror
    have hle := hlast.le_of_ended hd (ended_of_error hf)
    obtain rfl : N = n + 1 := by omega
    rw [hlast.stands.2] at hf
    cases hf

/-! ### Several steps -/

include hd htypes in
theorem Reaches.returns_before {k : Nat} {ra : Resource × Action} {routine : Routine}
    {before rest : List Instruction} {K : Known}
    (h : c.Reaches types w n (.routine k ra routine before rest K))
    (h' : c.Reaches types w n' place') (howner : place'.owner? ≠ some ra.1.name) (hn : n ≤ n') :
    k + 1 ≤ c.calls place' := by
  obtain ⟨d, rfl⟩ := Nat.exists_eq_add_of_le hn
  induction d generalizing n k routine before rest K with
  | zero =>
    have hroutine : c.InRoutine k ra routine before rest K (c.after types w n).memory := h.stands.1
    have hhalted : place' ≠ .halted := by
      rintro rfl
      exact Bool.false_ne_true (hroutine.ended.symm.trans h'.stands.1.1)
    exact absurd ((owner_of_stands hd h'.stands.1 hhalted).symm.trans
      (owner_of_stands hd h.stands.1 Place.noConfusion)) howner
  | succ d ih =>
    obtain ⟨place₁, hadvances⟩ := h.goesOn hd htypes h' (by omega)
    have hreaches := h.step hadvances
    have hn' : n + (d + 1) = n + 1 + d := by omega
    rw [hn'] at h'
    have hexecutes := hadvances.executes
    generalize c.after types w (n + 1) = r' at hexecutes
    cases hexecutes with
    | next | jump | wait => exact ih hreaches h' (by omega)
    | ret => exact calls_le_of_reaches hreaches h' (by omega)

include hd htypes in
/-- **Where the same phases of a resource lie behind, the resource is as it was.** -/
theorem Reaches.concurs (hunmarked : plan.Unmarked) (h : c.Reaches types w n place)
    (hplace : place ≠ .start) (howner : place.owner? ≠ some name)
    (h' : c.Reaches types w n' place') (howner' : place'.owner? ≠ some name) (hn : n ≤ n')
    (hpast : c.past (c.calls place') name = c.past (c.calls place) name) :
    Run.Concurs c.program c.program types w name n n' := by
  obtain ⟨d, rfl⟩ := Nat.exists_eq_add_of_le hn
  induction d generalizing n place with
  | zero => exact .refl _ _ _ _ _
  | succ d ih =>
    obtain ⟨place₁, hadvances⟩ := h.goesOn hd htypes h' (by omega)
    have hreaches := h.step hadvances
    have hstep := h.unmoved hd htypes hunmarked hadvances hplace howner
    have hn' : n + (d + 1) = n + 1 + d := by omega
    rw [hn'] at h' ⊢
    rcases hadvances.calls_or_stays hplace howner with ⟨hbegun, hapart, hkept⟩ |
      ⟨k, ra, phase, hra, rfl, hk, rfl, rfl⟩
    · exact hstep.trans (ih hreaches hbegun hapart (hpast.trans hkept.symm) h' (by omega))
    · -- The call would have returned, and added its phase.
      have hbehind := past_mono c (hreaches.returns_before hd htypes h' howner' (by omega))
        ra.1.name
      rw [past_succ hk, if_pos rfl, hpast] at hbehind
      have hlength := hbehind.length_le
      rw [List.length_append] at hlength
      exact absurd hlength (by simp [calls])

include hd htypes in
/-- **A run that has an end comes up with every call that is still to be made.** -/
theorem Reaches.comesUp (hunmarked : plan.Unmarked) (h : c.Reaches types w n place)
    (hplace : place ≠ .start) (howner : place.owner? ≠ some name)
    (hend : c.Reaches types w N .halted)
    (hpast : c.past (c.calls place) name ≠ c.past c.schedule.length name) :
    ∃ n' k ra phase, n < n' ∧ n' ≤ N ∧ ra ∈ c.actions ∧ ra.1.name = name ∧
      c.schedule[k]? = some (name, phase) ∧ c.past k name = c.past (c.calls place) name ∧
      c.Reaches types w n' (.routine k ra (Routine.forPhase ra.2 phase) []
        (ra.1.piece plan.createMissing (Routine.forPhase ra.2 phase)).body
        (ra.1.entry plan.createMissing (Routine.forPhase ra.2 phase))) ∧
      Run.Concurs c.program c.program types w name n n' := by
  have hn : n ≤ N := h.le_of_ended hd (ended_of_halted hend)
  obtain ⟨d, rfl⟩ := Nat.exists_eq_add_of_le hn
  induction d generalizing n place with
  | zero =>
    have hcalls := (calls_eq_made h.stands.1).trans (calls_eq_made hend.stands.1).symm
    exact absurd (congrArg (c.past · name) hcalls) hpast
  | succ d ih =>
    obtain ⟨place₁, hadvances⟩ := h.goesOn hd htypes hend (by omega)
    have hreaches := h.step hadvances
    have hstep := h.unmoved hd htypes hunmarked hadvances hplace howner
    rcases hadvances.calls_or_stays hplace howner with ⟨hbegun, hapart, hkept⟩ |
      ⟨k, ra, phase, hra, hname, hk, rfl, rfl⟩
    · have hn' : n + (d + 1) = n + 1 + d := by omega
      rw [hn'] at hend ⊢
      obtain ⟨n', k, ra, phase, hlt, hle, hra, hname, hk, hbehind, hcomes, hconcurs⟩ :=
        ih hreaches hbegun hapart (hkept ▸ hpast) hend (by omega)
      exact ⟨n', k, ra, phase, by omega, hle, hra, hname, hk, hbehind.trans hkept, hcomes,
        hstep.trans hconcurs⟩
    · exact ⟨n + 1, k, ra, phase, by omega, by omega, hra, hname, hk, rfl, hreaches, hstep⟩

end

end Compilation

end Provisioning
