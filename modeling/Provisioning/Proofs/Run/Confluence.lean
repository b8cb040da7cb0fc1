/-
The order within a level does not matter.

Two programs that were compiled from the same resources in different orders call their
routines in different orders.  If one of their runs has come to an end, the other one is
compared with it resource by resource: at any time of the second run each resource is `Paired`
with a time of the first, at which as much was done for it, and the same was said about it.
Different resources are paired with different times.

A step of the second run belongs to one resource.  The first run makes the same step at the
time the resource is paired with, or it comes up with the same call later on.  So the resource
is then paired with a later time, and the others stay paired as they are.  All times lie before
the end of the first run, so the second run makes no more steps than there are times for its
resources.  It cannot be stopped, since the first run would have been stopped by the same.

What a step reads of other resources are outputs of those it refers to.  They are started and
checked in both runs by then, and what was kept for them has not changed since.
-/
import Mathlib.Algebra.Order.BigOperators.Group.List
import Mathlib.Algebra.Order.Group.Nat
import Provisioning.Proofs.Run.Apart

namespace Provisioning

/-- After `n'` steps of `p'` its run has ended without a fault, having done for each resource
what `p` has done for it in `n` steps. -/
structure Run.SameEnd {W : Type} (p p' : Program) (types : Registry W) (w : W) (n n' : Nat) :
    Prop where
  ended : (steps p' types n' (fresh w)).ended p' = true
  error : (steps p' types n' (fresh w)).memory.error = none
  remoteIds : ∀ name, (steps p' types n' (fresh w)).memory.remoteIds.get? name =
    (steps p types n (fresh w)).memory.remoteIds.get? name
  outputs : ∀ name, (steps p' types n' (fresh w)).memory.outputs.get? name =
    (steps p types n (fresh w)).memory.outputs.get? name
  decisions : ∀ name, (steps p' types n' (fresh w)).memory.decisions.get? name =
    (steps p types n (fresh w)).memory.decisions.get? name
  deleted : (steps p types n (fresh w)).memory.deleted.Perm
    (steps p' types n' (fresh w)).memory.deleted
  about : ∀ name, Run.about name (spoken p' types (fresh w) n') =
    Run.about name (spoken p types (fresh w) n)

namespace Compilation

variable {plan plan' : Plan} {W : Type} {c : Compilation plan} {c' : Compilation plan'}
  {types : Registry W} {w : W} {name : String} {n n' t k k' N : Nat} {ra : Resource × Action}
  {routine : Routine} {i : Instruction} {before before' rest : List Instruction} {K K' : Known}
  {place place' : Place} {reply : String → Replies}

/-- Two compilations of the same resources in different orders, of which either can run, and
backends that keep the resources apart in both runs. -/
structure Siblings (c : Compilation plan) (c' : Compilation plan') (types : Registry W) (w : W)
    (reply : String → Replies) : Prop where
  reorders : plan.Reorders plan'
  unmarked : plan.Unmarked
  selfContained : plan.declaration.SelfContained
  selfContained' : plan'.declaration.SelfContained
  distinct : c.Distinct
  distinct' : c'.Distinct
  registered : ∀ t ∈ plan.declaration.catalog.keys, t ∈ types.keys
  replies : Run.RepliesBy c.program types w reply
  replies' : Run.RepliesBy c'.program types w reply

namespace Siblings

theorem unmarked' (hs : Siblings c c' types w reply) : plan'.Unmarked :=
  hs.reorders.unmarked hs.unmarked

theorem registered' (hs : Siblings c c' types w reply) :
    ∀ t ∈ plan'.declaration.catalog.keys, t ∈ types.keys :=
  fun t ht => hs.registered t (hs.reorders.mem_catalog ht)

end Siblings

/-- At a place of the second run, as much was done for a resource as in the first run after
`n` steps. -/
inductive Paired (c : Compilation plan) (c' : Compilation plan') (types : Registry W) (w : W)
    (name : String) (n n' : Nat) (place' : Place) : Prop
  /-- Neither run is in a routine of the resource. -/
  | aside {place : Place} : c.Reaches types w n place → place ≠ .start →
    place.owner? ≠ some name → place'.owner? ≠ some name →
    c.past (c.calls place) name = c'.past (c'.calls place') name →
    Run.Concurs c.program c'.program types w name n n' → Paired c c' types w name n n' place'
  /-- Both are at the same instruction of one of its routines, and scratch is the same unless
  it is emptied next. -/
  | inside {k k' : Nat} {ra : Resource × Action} {routine : Routine}
    {before before' rest : List Instruction} {K K' : Known} :
    c.Reaches types w n (.routine k ra routine before rest K) →
    place' = .routine k' ra routine before' rest K' → ra.1.name = name →
    c.past k name = c'.past k' name →
    (∃ later, rest = .clear :: later) ∨
      (c.after types w n).memory.Within (c'.after types w n').memory →
    Run.Concurs c.program c'.program types w name n n' → Paired c c' types w name n n' place'

/-- The second run has made a step for a resource, which the first run has made too, and none
for the others. -/
structure Paired.Led (c : Compilation plan) (c' : Compilation plan') (types : Registry W) (w : W)
    (name : String) (n n' k' : Nat) (place' : Place) : Prop where
  reaches : c'.Reaches types w (n' + 1) place'
  begun : place' ≠ .start
  paired : Paired c c' types w name (n + 1) (n' + 1) place'
  apart : ∀ other ≠ name, place'.owner? ≠ some other
  kept : ∀ other ≠ name, c'.past (c'.calls place') other = c'.past k' other

/-- Each resource is paired with a time up to `N`. -/
def Aligned (c : Compilation plan) (c' : Compilation plan') (types : Registry W) (w : W)
    (N : Nat) (times : String → Nat) (n' : Nat) (place' : Place) : Prop :=
  ∀ name, times name ≤ N ∧ Paired c c' types w name (times name) n' place'

/-- What was done in both runs for a resource is still the same after a step that comes to the
same. -/
theorem concurs_of_heeds {held held' : Talk.Held Upshot W}
    (hconcurs : Run.Concurs c.program c'.program types w name n n')
    (h : Run.Heeds c.program types i (c.after types w n) held)
    (h' : Run.Heeds c'.program types i (c'.after types w n') held')
    (hresult : held'.result = held.result) (hsaid : held'.said = held.said)
    (hnamed : held.said ≠ [] → Run.stagedName (c'.after types w n').memory =
      Run.stagedName (c.after types w n).memory) :
    Run.Concurs c.program c'.program types w name (n + 1) (n' + 1) := by
  have hagree : (c.after types w n).memory.Agree (undeletable · = name)
    (c'.after types w n').memory := hconcurs.tables
  constructor
  · have hwritten := hagree.applyAll held.result.writes
    have hleft := h.tables.agree (undeletable · = name)
    have hright := h'.tables.agree (undeletable · = name)
    rw [hresult] at hright
    rw [← after_succ] at hleft hright
    exact hleft.symm.trans (hwritten.trans hright)
  · have hboth := h'.said.trans (hsaid.trans h.said.symm)
    by_cases hsilent : held.said = []
    · rw [Run.about_succ_of_silent (h.said.trans hsilent),
        Run.about_succ_of_silent (h'.said.trans (hsaid.trans hsilent)), hconcurs.about]
    · have hstaged' := hnamed hsilent
      generalize hstaged : Run.stagedName (c.after types w n).memory = staged at hstaged'
      rw [Run.about_succ hstaged, Run.about_succ hstaged', hconcurs.about]
      exact congrArg (fun es => _ ++ Run.about name (es.map (staged, ·))) hboth

section

variable (hs : Siblings c c' types w reply)

/-! ### What is read -/

include hs in
/-- **Where neither run is in a routine of a resource, and the same phases of it lie behind, the
same was done for it in both.** -/
theorem Aligned.concurs {times : String → Nat} (haligned : Aligned c c' types w N times n' place')
    (h : c.Reaches types w n place) (hbegun : place ≠ .start) (howner : place.owner? ≠ some name)
    (howner' : place'.owner? ≠ some name)
    (hpast : c.past (c.calls place) name = c'.past (c'.calls place') name) :
    Run.Concurs c.program c'.program types w name n n' := by
  cases (haligned name).2 with
  | inside _ hplace hname =>
    rw [hplace] at howner'
    exact absurd (congrArg some hname) howner'
  | @aside place₁ hat hbegun₁ hapart _ hsame hconcurs =>
    have hbehind : c.past (c.calls place₁) name = c.past (c.calls place) name :=
      hsame.trans hpast.symm
    rcases Nat.le_total (times name) n with hle | hle
    · exact (hat.concurs hs.distinct hs.registered hs.unmarked hbegun₁ hapart h howner hle
        hbehind.symm).symm.trans hconcurs
    · exact (h.concurs hs.distinct hs.registered hs.unmarked hbegun howner hat hapart hle
        hbehind).trans hconcurs

include hs in
/-- **Where fields are read in both runs, they are read as the same.** -/
theorem Aligned.resolve_eq {times : String → Nat}
    (haligned : Aligned c c' types w N times n' (.routine k' ra routine before' (i :: rest) K'))
    (h : c.Reaches types w n (.routine k ra routine before (i :: rest) K))
    (h' : c'.Reaches types w n' (.routine k' ra routine before' (i :: rest) K'))
    (hreads : i.reads = true) :
    c'.program.tables.rom.resolve (c'.after types w n').memory.outputValue ra.1.name =
      c.program.tables.rom.resolve (c.after types w n).memory.outputValue ra.1.name := by
  have hroutine : c.InRoutine k ra routine before (i :: rest) K (c.after types w n).memory :=
    h.stands.1
  have hroutine' : c'.InRoutine k' ra routine before' (i :: rest) K' (c'.after types w n').memory :=
    h'.stands.1
  obtain ⟨hphase, haction, -⟩ := start_of_reads hroutine hreads
  have hk := hroutine.scheduled
  have hk' := hroutine'.scheduled
  rw [hphase] at hk hk'
  rw [hs.reorders.resolve_eq c c']
  refine Rom.resolve_congr fun o ho => ?_
  have ho := Plan.outputs_of_holds c.rom_eq ((c.planned hroutine.planned).declared haction) ho
  obtain ⟨hne, rb, hchecked⟩ := exists_checked hs.selfContained hroutine.planned haction hk ho
  obtain ⟨-, rb', hchecked'⟩ := exists_checked hs.selfContained' hroutine'.planned haction hk' ho
  obtain ⟨j, hjk, hj⟩ := hchecked.earlier
  obtain ⟨j', hjk', hj'⟩ := hchecked'.earlier
  rw [hchecked.name_eq] at hj
  rw [hchecked'.name_eq] at hj'
  -- It was checked in both runs, so the same phases of it lie behind.
  have hpast : c.past k o.resource = c'.past k' o.resource :=
    (past_of_checked hjk hj (by decide) hk).trans (past_of_checked hjk' hj' (by decide) hk').symm
  have hother : some ra.1.name ≠ some o.resource := fun heq => hne (Option.some.inj heq).symm
  have hconcurs := haligned.concurs hs h Place.noConfusion hother hother hpast
  have hmarked : undeletable o.resource = o.resource := by
    rw [← hchecked.name_eq]
    exact undeletable_of_planned hs.unmarked hchecked.planned
  have hids : (c'.after types w n').memory.remoteIds.get? o.resource =
    (c.after types w n).memory.remoteIds.get? o.resource := hconcurs.tables.remoteIds _ hmarked
  have houtputs : (c'.after types w n').memory.outputs.get? o.resource =
    (c.after types w n).memory.outputs.get? o.resource := hconcurs.tables.outputs _ hmarked
  rw [Memory.outputValue, Memory.outputValue, hids, houtputs]

/-! ### A step in a routine -/

include hs in
/-- **The same instruction comes to the same, and says the same, in both runs.** -/
theorem held_eq_of_concurs
    (h : c.Reaches types w n (.routine k ra routine before (i :: rest) K))
    (h' : c'.Reaches types w n' (.routine k' ra routine before' (i :: rest) K'))
    (hret : i ≠ .ret)
    (hscratch : i = .clear ∨ (c.after types w n).memory.Within (c'.after types w n').memory)
    (hconcurs : Run.Concurs c.program c'.program types w ra.1.name n n')
    (hread : i.reads = true →
      c'.program.tables.rom.resolve (c'.after types w n').memory.outputValue ra.1.name =
        c.program.tables.rom.resolve (c.after types w n).memory.outputValue ra.1.name) :
    let held := (i.talk c.program.tables.rom types (c.after types w n).memory).hold types
      (c.after types w n).world
    let held' := (i.talk c'.program.tables.rom types (c'.after types w n').memory).hold types
      (c'.after types w n').world
    held'.result = held.result ∧ held'.said = held.said ∧
      Run.Concurs c.program c'.program types w ra.1.name (n + 1) (n' + 1) := by
  have hroutine : c.InRoutine k ra routine before (i :: rest) K (c.after types w n).memory :=
    h.stands.1
  have hmarked := undeletable_of_planned hs.unmarked hroutine.planned
  have hagree : (c.after types w n).memory.Agree (undeletable · = ra.1.name)
    (c'.after types w n').memory := hconcurs.tables
  have hheeds := (h.follows hs.distinct hs.registered hret).2
  have hheeds' := (h'.follows hs.distinct' hs.registered' hret).2
  have hgives := h.gives hs.distinct hs.registered hs.unmarked hs.replies
  have hgives' := h'.gives hs.distinct' hs.registered' hs.unmarked' hs.replies'
  rw [hconcurs.about] at hgives'
  cases hroutine.checked with
  | ret => exact absurd rfl hret
  | step ht hrest =>
    have htalk : i.talk c'.program.tables.rom types (c'.after types w n').memory =
        i.talk c.program.tables.rom types (c.after types w n).memory := by
      rcases hscratch with rfl | hwithin
      · rfl
      · exact ht.talk_eq hrest hroutine.fits ⟨hwithin, hagree.remoteIds _ hmarked,
          hagree.remoteIds _ (undeletable_deletable _), hagree.decisions _ hmarked⟩ hread
    dsimp only at hheeds hheeds' ⊢
    rw [htalk] at hheeds' ⊢
    rw [hheeds.said] at hgives
    rw [hheeds'.said] at hgives'
    generalize i.talk c.program.tables.rom types (c.after types w n).memory = talk
      at hheeds hheeds' hgives hgives' ⊢
    cases hop : i.isResourceOp with
    | false =>
      have hsilent := hheeds.said.symm.trans (h.silent_of_not_op hs.distinct hs.registered hop)
      have hsilent' := hheeds'.said.symm.trans (h'.silent_of_not_op hs.distinct' hs.registered' hop)
      have hnothing : ∀ {es : List Exchange}, es = [] →
          (reply ra.1.name).Gives ra.1.name [] es := by
        rintro es rfl
        trivial
      obtain ⟨hresult, hsaid⟩ := talk.hold_eq_of_gives (hnothing hsilent) (hnothing hsilent')
      exact ⟨hresult, hsaid,
        concurs_of_heeds hconcurs hheeds hheeds' hresult hsaid (absurd hsilent)⟩
    | true =>
      have hnamed : Run.stagedName (c'.after types w n').memory =
          Run.stagedName (c.after types w n).memory := by
        rcases hscratch with rfl | hwithin
        · cases hop
        · exact ht.stagedName_eq hroutine.fits hwithin hop
      rw [hnamed] at hgives'
      obtain ⟨hresult, hsaid⟩ := talk.hold_eq_of_gives hgives hgives'
      exact ⟨hresult, hsaid, concurs_of_heeds hconcurs hheeds hheeds' hresult hsaid fun _ => hnamed⟩

include hs in
theorem Reaches.before_end (h : c.Reaches types w n (.routine k ra routine before rest K))
    (hend : c.Reaches types w N .halted) :
    n + 1 ≤ N ∧ ∀ f, (c.after types w (n + 1)).memory.error ≠ some f := by
  have hroutine : c.InRoutine k ra routine before rest K (c.after types w n).memory := h.stands.1
  have hle := h.le_of_ended hs.distinct (ended_of_halted hend)
  have hne : n ≠ N := by
    rintro rfl
    exact Bool.false_ne_true (hroutine.ended.symm.trans hend.stands.1.1)
  refine ⟨by omega, fun f hf => ?_⟩
  have hlast := hend.le_of_ended hs.distinct (ended_of_error hf)
  obtain rfl : N = n + 1 := by omega
  rw [hend.stands.2] at hf
  cases hf

include hs in
theorem Paired.led_of_ret (h : c.Reaches types w n (.routine k ra routine before [.ret] K))
    (h' : c'.Reaches types w n' (.routine k' ra routine before' [.ret] K'))
    (hpast : c.past k ra.1.name = c'.past k' ra.1.name)
    (hconcurs : Run.Concurs c.program c'.program types w ra.1.name n n') :
    ∃ place', Paired.Led c c' types w ra.1.name n n' k' place' := by
  have hroutine : c.InRoutine k ra routine before [.ret] K (c.after types w n).memory :=
    h.stands.1
  have hroutine' : c'.InRoutine k' ra routine before' [.ret] K' (c'.after types w n').memory :=
    h'.stands.1
  obtain ⟨hreaches, hcoasts⟩ := h.returns hs.distinct hs.registered
  obtain ⟨hreaches', hcoasts'⟩ := h'.returns hs.distinct' hs.registered'
  have hbehind : c.past (k + 1) ra.1.name = c'.past (k' + 1) ra.1.name := by
    rw [past_succ hroutine.scheduled, past_succ hroutine'.scheduled, hpast]
  have hconcurs' := (hcoasts.concurs _).symm.trans (hconcurs.trans (hcoasts'.concurs _))
  have howner : ∀ {k : Nat} {other : String}, (Place.driver k).owner? ≠ some other :=
    fun heq => by cases heq
  refine ⟨.driver (k' + 1), hreaches', Place.noConfusion,
    .aside hreaches Place.noConfusion howner howner hbehind hconcurs', fun _ _ => howner, ?_⟩
  intro other hother
  show c'.past (k' + 1) other = _
  rw [past_succ hroutine'.scheduled, if_neg hother.symm, List.append_nil]

include hs in
/-- **In a routine the second run makes the step that the first one has made.** -/
theorem Aligned.follow {times : String → Nat} (hend : c.Reaches types w N .halted)
    (haligned : Aligned c c' types w N times n' (.routine k' ra routine before' rest K'))
    (h : c.Reaches types w n (.routine k ra routine before rest K))
    (h' : c'.Reaches types w n' (.routine k' ra routine before' rest K'))
    (hpast : c.past k ra.1.name = c'.past k' ra.1.name)
    (hscratch : (∃ later, rest = .clear :: later) ∨
      (c.after types w n).memory.Within (c'.after types w n').memory)
    (hconcurs : Run.Concurs c.program c'.program types w ra.1.name n n') :
    ∃ place', Paired.Led c c' types w ra.1.name n n' k' place' := by
  have hroutine : c.InRoutine k ra routine before rest K (c.after types w n).memory := h.stands.1
  have hroutine' : c'.InRoutine k' ra routine before' rest K' (c'.after types w n').memory :=
    h'.stands.1
  cases hroutine.checked with
  | ret => exact Paired.led_of_ret hs h h' hpast hconcurs
  | @step _ _ i later ht =>
    have hret : i ≠ .ret := by
      rintro rfl
      cases ht
    have hscratch : i = .clear ∨
        (c.after types w n).memory.Within (c'.after types w n').memory :=
      hscratch.imp_left fun ⟨_, heq⟩ => (List.cons.inj heq).1
    obtain ⟨hresult, -, hconcurs'⟩ := held_eq_of_concurs hs h h' hret hscratch hconcurs
      (haligned.resolve_eq hs h h')
    obtain ⟨hfollows, hheeds⟩ := h.follows hs.distinct hs.registered hret
    obtain ⟨hfollows', hheeds'⟩ := h'.follows hs.distinct' hs.registered' hret
    have hwithin' : (c.after types w (n + 1)).memory.Within (c'.after types w (n' + 1)).memory := by
      rw [after_succ, after_succ]
      rcases hscratch with rfl | hwithin
      · intro key v hv
        rw [hheeds.temp] at hv
        cases hv
      · exact hheeds.within hheeds' hresult hroutine.fits.distinct hroutine'.fits.distinct hwithin
    rw [hresult] at hfollows'
    generalize ((i.talk c.program.tables.rom types (c.after types w n).memory).hold types
      (c.after types w n).world).result.turn = turn at hfollows hfollows'
    have hapart : ∀ other ≠ ra.1.name, some ra.1.name ≠ some other := fun other hother heq =>
      hother (Option.some.inj heq).symm
    cases hfollows with
    | next hreaches =>
      cases hfollows' with
      | next hreaches' =>
        exact ⟨_, hreaches', Place.noConfusion, .inside hreaches rfl rfl hpast (.inr hwithin')
          hconcurs', hapart, fun _ _ => rfl⟩
    | branch _ htarget hreaches =>
      cases hfollows' with
      | branch _ htarget' hreaches' =>
        injection htarget.symm.trans htarget' with hlabel
        obtain rfl := Routine.label_left_inj hlabel
        rw [hs.reorders.createMissing] at hreaches'
        exact ⟨_, hreaches', Place.noConfusion, .inside hreaches rfl rfl hpast (.inl ⟨_, rfl⟩)
          hconcurs', hapart, fun _ _ => rfl⟩
    | stay hreaches =>
      cases hfollows' with
      | stay hreaches' =>
        exact ⟨_, hreaches', Place.noConfusion, .inside hreaches rfl rfl hpast (.inr hwithin')
          hconcurs', hapart, fun _ _ => rfl⟩
    | fault herror => exact absurd herror ((h.before_end hs hend).2 _)

/-! ### A step of the second run -/

include hs in
/-- What the second run does for one resource leaves the others paired as they are. -/
theorem Paired.others (h : Paired c c' types w name n n' place')
    (h' : c'.Reaches types w n' place') (hbegun : place' ≠ .start)
    (hapart : place'.owner? ≠ some name) {place₁ : Place}
    (hreaches : c'.Reaches types w (n' + 1) place₁) (howner : place₁.owner? ≠ some name)
    (hpast : c'.past (c'.calls place₁) name = c'.past (c'.calls place') name) :
    Paired c c' types w name n (n' + 1) place₁ := by
  obtain ⟨_, hadvances⟩ := h'.goesOn hs.distinct' hs.registered' hreaches (Nat.lt_succ_self n')
  have hunmoved := h'.unmoved hs.distinct' hs.registered' hs.unmarked' hadvances hbegun hapart
  cases h with
  | inside _ hplace hname =>
    rw [hplace] at hapart
    exact absurd (congrArg some hname) hapart
  | aside hat hplace hapart₁ _ hsame hconcurs =>
    exact .aside hat hplace hapart₁ howner (hsame.trans hpast.symm) (hconcurs.trans hunmoved)

include hs in
/-- **When the second run calls a routine, the first one comes up with the same call.** -/
theorem Paired.call (hend : c.Reaches types w N .halted) (hra : ra ∈ c'.actions) {phase : Phase}
    (hk : c'.schedule[k']? = some (ra.1.name, phase))
    (h : Paired c c' types w ra.1.name n n' (.driver k')) (hcoasts : c'.Coasts types w n') :
    ∃ n₁, n < n₁ ∧ n₁ ≤ N ∧ Paired c c' types w ra.1.name n₁ (n' + 1)
      (.routine k' ra (Routine.forPhase ra.2 phase) []
        (ra.1.piece plan'.createMissing (Routine.forPhase ra.2 phase)).body
        (ra.1.entry plan'.createMissing (Routine.forPhase ra.2 phase))) := by
  have hra₀ := hs.reorders.symm.mem_actions c' c hra
  have hphase := past_append_isPrefix hk
  cases h with
  | inside _ hplace => cases hplace
  | @aside place hat hbegun hapart _ hsame hconcurs =>
    have hsame : c.past (c.calls place) ra.1.name = c'.past k' ra.1.name := hsame
    have hleft : c.past (c.calls place) ra.1.name ≠ c.past c.schedule.length ra.1.name := by
      rw [past_length (mem_names_of_mem hra₀), hsame]
      intro hall
      rw [hall] at hphase
      have hlength := hphase.length_le
      rw [List.length_append] at hlength
      exact absurd hlength (by simp)
    obtain ⟨n₁, k, rb, phase₁, hlt, hle, hrb, hrbname, hk₁, hbehind, hreaches, hcomes⟩ :=
      hat.comesUp hs.distinct hs.registered hs.unmarked hbegun hapart hend hleft
    obtain rfl := eq_of_name_eq hrb hra₀ hrbname
    -- The same phases lie behind, so the same one is next.
    have hphase₁ := past_append_isPrefix hk₁
    rw [hbehind, hsame] at hphase₁
    obtain rfl : phase₁ = phase := by
      have heq := List.prefix_of_prefix_length_le hphase₁ hphase (by simp)
      simpa using heq
    rw [hs.reorders.createMissing]
    exact ⟨n₁, hlt, hle, .inside hreaches rfl rfl (hbehind.trans hsame) (.inl ⟨_, rfl⟩)
      (hcomes.symm.trans (hconcurs.trans (hcoasts.concurs _)))⟩

theorem Aligned.update {times : String → Nat} (h : Aligned c c' types w N times n' place')
    {place₁ : Place} (ht : t ≤ N) (hname : Paired c c' types w name t (n' + 1) place₁)
    (hothers : ∀ other ≠ name, Paired c c' types w other (times other) (n' + 1) place₁) :
    Aligned c c' types w N (Function.update times name t) (n' + 1) place₁ := by
  intro other
  by_cases heq : other = name
  · subst heq
    rw [Function.update_self]
    exact ⟨ht, hname⟩
  · rw [Function.update_of_ne heq]
    exact ⟨(h other).1, hothers other heq⟩

include hs in
/-- **The second run cannot be stopped: each step pairs one resource with a later time, or it
is the last one.** -/
theorem Aligned.step {times : String → Nat} (hend : c.Reaches types w N .halted)
    (haligned : Aligned c c' types w N times n' place') (h' : c'.Reaches types w n' place')
    (hbegun : place' ≠ .start) (hgoes : place' ≠ .halted) :
    (c'.Reaches types w (n' + 1) .halted ∧ Aligned c c' types w N times (n' + 1) .halted) ∨
      ∃ place₁, c'.Reaches types w (n' + 1) place₁ ∧ place₁ ≠ .start ∧
        ∃ name ∈ c'.names, ∃ t, times name < t ∧ t ≤ N ∧
          Aligned c c' types w N (Function.update times name t) (n' + 1) place₁ := by
  cases place' with
  | start => exact absurd rfl hbegun
  | halted => exact absurd rfl hgoes
  | driver k =>
    have hapart : ∀ {other}, (Place.driver k).owner? ≠ some other := fun heq => by cases heq
    obtain ⟨⟨ra, hra, phase, hk, hreaches⟩ | ⟨rfl, hreaches⟩, hcoasts⟩ :=
      h'.driven hs.distinct' hs.registered'
    · obtain ⟨t, hlt, hle, hpaired⟩ := (haligned ra.1.name).2.call hs hend hra hk hcoasts
      refine .inr ⟨_, hreaches, Place.noConfusion, ra.1.name, mem_names_of_mem hra, t, hlt, hle,
        haligned.update hle hpaired fun other hother => ?_⟩
      exact (haligned other).2.others hs h' hbegun hapart hreaches
        (fun heq => hother (Option.some.inj heq).symm) rfl
    · refine .inl ⟨hreaches, fun other => ⟨(haligned other).1, ?_⟩⟩
      exact (haligned other).2.others hs h' hbegun hapart hreaches (fun heq => by cases heq) rfl
  | routine k ra routine before rest K =>
    have hroutine : c'.InRoutine k ra routine before rest K (c'.after types w n').memory :=
      h'.stands.1
    cases (haligned ra.1.name).2 with
    | aside _ _ _ hapart => exact absurd rfl hapart
    | inside hreaches hplace hname hpast hscratch hconcurs =>
      cases hplace
      obtain ⟨place₁, hled⟩ := haligned.follow hs hend hreaches h' hpast hscratch hconcurs
      have hle := (hreaches.before_end hs hend).1
      refine .inr ⟨place₁, hled.reaches, hled.begun, ra.1.name, mem_names_of_mem hroutine.planned,
        _, Nat.lt_succ_self _, hle, haligned.update hle hled.paired fun other hother => ?_⟩
      exact (haligned other).2.others hs h' hbegun
        (fun heq => hother (Option.some.inj heq).symm) hled.reaches (hled.apart other hother)
        (hled.kept other hother)

/-! ### The whole second run -/

/-- How many times there are that resources may still be paired with. -/
def slack (c' : Compilation plan') (N : Nat) (times : String → Nat) : Nat :=
  (c'.names.map fun name => N - times name).sum

theorem slack_update {times : String → Nat} (hname : name ∈ c'.names) (hlt : times name < t)
    (hle : t ≤ N) : c'.slack N (Function.update times name t) < c'.slack N times := by
  refine List.sum_lt_sum _ _ (fun other _ => ?_) ⟨name, hname, ?_⟩
  · by_cases heq : other = name
    · subst heq
      rw [Function.update_self]
      omega
    · rw [Function.update_of_ne heq]
  · rw [Function.update_self]
    omega

include hs in
/-- **The second run comes to its end, paired with the first.** -/
theorem Aligned.completes {times : String → Nat} (hend : c.Reaches types w N .halted)
    (haligned : Aligned c c' types w N times n' place') (h' : c'.Reaches types w n' place')
    (hbegun : place' ≠ .start) :
    ∃ N' times', c'.Reaches types w N' .halted ∧ Aligned c c' types w N times' N' .halted := by
  induction hslack : c'.slack N times using Nat.strong_induction_on
    generalizing times n' place' with
  | _ _ ih =>
    subst hslack
    by_cases hgoes : place' = .halted
    · subst hgoes
      exact ⟨n', times, h', haligned⟩
    · obtain ⟨hreaches, hlast⟩ | ⟨place₁, hreaches, hbegun₁, name, hname, t, hlt, hle, hnext⟩ :=
        haligned.step hs hend h' hbegun hgoes
      · exact ⟨n' + 1, times, hreaches, hlast⟩
      · exact ih _ (slack_update hname hlt hle) hnext hreaches hbegun₁ rfl

/-! ### Both ends of the runs -/

include hs in
theorem aligned_loaded (hend : c.Reaches types w N .halted) :
    c'.Reaches types w 1 (.driver 0) ∧ Aligned c c' types w N (fun _ => 1) 1 (.driver 0) := by
  obtain ⟨hreaches, hmemory, -, hsilent⟩ :=
    Reaches.loads hs.distinct hs.registered (.start : c.Reaches types w 0 .start)
  obtain ⟨hreaches', hmemory', -, hsilent'⟩ :=
    Reaches.loads hs.distinct' hs.registered' (.start : c'.Reaches types w 0 .start)
  refine ⟨hreaches', fun name => ⟨hend.pos Place.noConfusion, .aside hreaches Place.noConfusion
    (fun heq => by cases heq) (fun heq => by cases heq) rfl ⟨?_, ?_⟩⟩⟩
  · show (c.after types w 1).memory.Agree _ (c'.after types w 1).memory
    rw [hmemory, hmemory']
    exact ⟨fun name _ => hs.reorders.get?_remoteIds c c' name, fun _ _ => rfl, fun _ _ => rfl,
      fun _ _ => rfl⟩
  · exact (Run.about_succ_of_silent hsilent' name).trans
      (Run.about_succ_of_silent hsilent name).symm

include hs in
/-- **Where both runs are at their end, the same is done for every resource.** -/
theorem Aligned.concurs_halted {times : String → Nat} (hend : c.Reaches types w N .halted)
    (h : Aligned c c' types w N times n' .halted) (name : String) :
    Run.Concurs c.program c'.program types w name N n' := by
  have hall : c.past c.schedule.length name = c'.past c'.schedule.length name := by
    by_cases hname : name ∈ c.names
    · rw [past_length hname, past_length (hs.reorders.mem_names c c' hname)]
    · rw [past_of_notMem hname, past_of_notMem fun hname' =>
        hname (hs.reorders.symm.mem_names c' c hname')]
  exact h.concurs hs hend Place.noConfusion (fun heq => by cases heq) (fun heq => by cases heq) hall

end

theorem sameEnd_of_concurs (h : ∀ name, Run.Concurs c.program c'.program types w name N n')
    (hend : c'.Reaches types w n' .halted) :
    Run.SameEnd c.program c'.program types w N n' where
  ended := ended_of_halted hend
  error := hend.stands.2
  remoteIds name := (h (undeletable name)).tables.remoteIds name rfl
  outputs name := (h (undeletable name)).tables.outputs name rfl
  decisions name := (h (undeletable name)).tables.decisions name rfl
  deleted := List.perm_iff_count.2 fun name =>
    ((h (undeletable name)).tables.deleted name rfl).symm
  about name := (h name).about

/-- **The order in which resources are listed makes no difference: where the replies for each
resource only depend on what was asked for it before, two programs that were compiled from the
same resources in different orders come to the same end, if one of them ends without a fault,
and ask the same for each resource.** -/
theorem confluent_of_steps {p p' : Program} (h : plan.compile = .ok p)
    (h' : plan'.compile = .ok p') (hreorders : plan.Reorders plan') (hunmarked : plan.Unmarked)
    (hself : plan.declaration.SelfContained) (hself' : plan'.declaration.SelfContained) :
    ∃ (c : Compilation plan) (c' : Compilation plan'), c.program = p ∧ c'.program = p' ∧
      (c.Distinct → c'.Distinct → ∀ {W : Type} (types : Registry W),
        (∀ t ∈ plan.declaration.catalog.keys, t ∈ types.keys) → ∀ w reply,
          Run.RepliesBy p types w reply → Run.RepliesBy p' types w reply → ∀ n,
            (Run.steps p types n (Run.fresh w)).ended p = true →
            (Run.steps p types n (Run.fresh w)).memory.error = none →
              ∃ n', Run.SameEnd p p' types w n n') := by
  obtain ⟨c, rfl⟩ := compile_eq_ok.1 h
  obtain ⟨c', rfl⟩ := compile_eq_ok.1 h'
  refine ⟨c, c', rfl, rfl, ?_⟩
  intro hd hd' W types htypes w reply hreplies hreplies' n hended herror
  obtain ⟨N, hle, hend, hafter⟩ := reaches_halted hd htypes hended herror
  have hs : Siblings c c' types w reply :=
    ⟨hreorders, hunmarked, hself, hself', hd, hd', htypes, hreplies, hreplies'⟩
  obtain ⟨hloaded, haligned⟩ := aligned_loaded hs hend
  obtain ⟨N', times, hend', hlast⟩ := haligned.completes hs hend hloaded Place.noConfusion
  have hsame := sameEnd_of_concurs (hlast.concurs_halted hs hend) hend'
  have hspoken := Run.spoken_of_ended_le (ended_of_halted hend) hle
  obtain ⟨hended', herror', hids, houtputs, hdecisions, hdeleted, habout⟩ := hsame
  have hsteps : Run.steps c.program types n (Run.fresh w) =
    Run.steps c.program types N (Run.fresh w) := hafter
  rw [← hsteps] at hids houtputs hdecisions hdeleted
  rw [← hspoken] at habout
  exact ⟨N', hended', herror', hids, houtputs, hdecisions, hdeleted, habout⟩

theorem selfContained_pair {n m : String} {r : Resource}
    (h : (plainDeclaration true [n]).add "file" m [("name", .json (.str m)),
      ("contents", .json (.str "new"))] = .ok (plainDeclaration true [n, m], r)) :
    (plainDeclaration true [n, m]).SelfContained := by
  have hfirst : (plainDeclaration true [n]).SelfContained := by
    refine .add (.empty (Table.ofList [("file", plainSchema true)])) ?_
      (rfl : Declaration.add _ "file" n [("name", .json (.str n)),
        ("contents", .json (.str "new"))] = .ok (_, plainResource true n))
    exact ⟨trivial, trivial, trivial⟩
  have hoffers : (plainDeclaration true [n]).OffersFields
      [("name", .json (.str m)), ("contents", .json (.str "new"))] := ⟨trivial, trivial, trivial⟩
  exact .add hfirst hoffers h

/-- Both tracked and declared files change places: the runs log different things, and come to
the same end. -/
theorem confluent_of_steps_plain :
    ∃ p p', (plainPlan true ["x", "y"] ["y", "z"] true).compile = .ok p ∧
      (plainPlan true ["y", "x"] ["z", "y"] true).compile = .ok p' ∧
      (Run.steps p (plainTypes true) 200 (Run.fresh ())).log ≠
        (Run.steps p' (plainTypes true) 200 (Run.fresh ())).log ∧
      ∃ n', Run.SameEnd p p' (plainTypes true) () 200 n' := by
  have hreorders : (plainPlan true ["x", "y"] ["y", "z"] true).Reorders
      (plainPlan true ["y", "x"] ["z", "y"] true) :=
    ⟨fun _ => rfl, rfl, .swap .., .swap ..⟩
  have hunmarked : (plainPlan true ["x", "y"] ["y", "z"] true).Unmarked := by
    have hlong : ∀ {name key : String}, key.length < deletableMark.length →
        deletable name ≠ key := by
      rintro name key hshort rfl
      rw [deletable, String.length_append] at hshort
      omega
    constructor <;> intro name hname <;> rcases List.mem_pair.1 hname with hname | hname <;>
      exact hlong (by decide) hname
  obtain ⟨c, c', -, -, hconfluent⟩ := confluent_of_steps
    (rfl : (plainPlan true ["x", "y"] ["y", "z"] true).compile = .ok _)
    (rfl : (plainPlan true ["y", "x"] ["z", "y"] true).compile = .ok _) hreorders hunmarked
    (selfContained_pair (r := plainResource true "z") rfl)
    (selfContained_pair (r := plainResource true "y") rfl)
  have hdistinct' : c'.Distinct := distinct_of_actions rfl (by decide +kernel) (by decide +kernel)
  have hstill : ∀ call w, ((plainTypes true).answer call w).1 =
    ((plainTypes true).answer call ()).1 := fun _ _ => rfl
  refine ⟨_, _, rfl, rfl, by decide +kernel, ?_⟩
  exact hconfluent c.distinct_plain hdistinct' (plainTypes true) (by decide) () _
    (Run.repliesBy_of_still hstill _) (Run.repliesBy_of_still hstill _) 200 (by decide +kernel)
    (by decide +kernel)

end Compilation

end Provisioning
