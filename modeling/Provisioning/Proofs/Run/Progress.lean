/-
What a run does to one resource.

Whatever is interleaved with it, what a run does to a resource keeps to the words of its
action.  At a place, the phases that lie behind are done, and of the present phase what is
known there; `achieved` puts the two together.  A move adds to it what it logs in the
subroutines of the resource, and what is told of the resource is what is achieved, except
that a check which waits is told before it is achieved.

A decision that is made is never changed.  So the word that a resource is heading for is
fixed when its decision is made, and as long as it is not, nothing has been done that would
not begin all the words that may still be decided on.
-/
import Provisioning.Proofs.Run.Trace
import Provisioning.Proofs.Run.Words

namespace Provisioning

namespace Place

/-- The resource whose routine a place lies in. -/
def owner? : Place → Option String
  | .routine _ ra _ _ _ _ => some ra.1.name
  | _ => none

/-- Whether what is done at a place belongs to the forward part of the schedule. -/
def forward : Place → Prop
  | .routine _ _ current _ _ _ => current.phase ∈ Phase.forward
  | _ => True

/-- What was done to a resource in the phase that it is in. -/
def records (name : String) : Place → List Operation
  | .routine _ ra _ _ _ K => if ra.1.name = name then K.records else []
  | _ => []

end Place

/-- What was done begins a word that was decided on, or still may be. -/
def Plan.Possible (plan : Plan) (ra : Resource × Action) (v : Option Decision)
    (os : List Operation) : Prop :=
  ∃ d ∈ settled plan.createMissing ra.2, (v = none ∨ v = d) ∧
    os <+: ra.1.word plan.createMissing ra.2 d

theorem Plan.Possible.nodup {plan : Plan} {ra : Resource × Action} {v : Option Decision}
    {os : List Operation} (h : plan.Possible ra v os) : os.Nodup := by
  obtain ⟨d, -, -, hprefix⟩ := h
  exact hprefix.sublist.nodup (ra.1.nodup_word plan.createMissing ra.2 d)

namespace Compilation

variable {plan : Plan} {c : Compilation plan} {ra : Resource × Action} {m : Memory}
  {place place' : Place}

/-! ### Places and resources -/

/-- How many calls lie behind at a place. -/
def calls (c : Compilation plan) : Place → Nat
  | .start => 0
  | .driver k => k
  | .routine k _ _ _ _ _ => k
  | .halted => c.schedule.length

/-- All that was done to a resource at a place, where `d` is decided. -/
def achieved (c : Compilation plan) (place : Place) (ra : Resource × Action)
    (d : Option Decision) : List Operation :=
  c.finished (c.calls place) ra d ++ place.records ra.1.name

/-- An instruction belongs to the resource whose routine its place lies in. -/
theorem owner_of_stands (hd : c.Distinct) (h : c.Stands m place) (hplace : place ≠ .halted) :
    c.layout.owner? m.programCounter = place.owner? := by
  cases place with
  | start =>
    obtain rfl : m = Memory.fresh := h
    refine Layout.owner_of_driver ?_
    rw [length_driver hd.keys]
    exact Nat.succ_pos _
  | driver k =>
    have hdriver : c.InDriver k m := h
    refine Layout.owner_of_driver ?_
    rw [length_driver hd.keys, hdriver.programCounter]
    have := hdriver.le
    omega
  | routine k rb routine before rest K =>
    have hroutine : c.InRoutine k rb routine before rest K m := h
    obtain ⟨start, hstart, hcounter⟩ := hroutine.programCounter
    refine Layout.owner_of_placed hstart ?_
    have hlength : (rb.1.piece plan.createMissing routine).size = before.length + rest.length := by
      rw [← Layout.length_body, hroutine.body, List.length_append]
    have hrest : 0 < rest.length := by
      cases hroutine.checked <;> exact Nat.succ_pos _
    rw [hcounter, hlength]
    omega
  | halted => exact absurd rfl hplace

theorem ne_none_of_stands (h : c.Stands m place) (hra : ra ∈ c.actions)
    (hpast : c.past (c.calls place) ra.1.name ≠ []) (haction : ra.2 = .update) :
    m.decisions.get? ra.1.name ≠ none := by
  cases place with
  | start => exact absurd (past_zero _) hpast
  | driver k =>
    have hdriver : c.InDriver k m := h
    exact ne_none_of_expected hpast haction (hdriver.decided ra hra)
  | routine k rb routine before rest K =>
    have hroutine : c.InRoutine k rb routine before rest K m := h
    by_cases hname : ra.1.name = rb.1.name
    · obtain rfl := eq_of_name_eq hra hroutine.planned hname
      exact hroutine.decided (fun hphase => hpast ((past_eq_nil_iff hroutine.scheduled).2 hphase))
        haction
    · exact ne_none_of_expected hpast haction (hroutine.others ra hra hname)
  | halted =>
    have hhalted : m.ended = true ∧ m.callStack = [] ∧ _ := h
    exact ne_none_of_expected hpast haction (hhalted.2.2 ra hra)

theorem finished_of_stands (h : c.Stands m place) (hra : ra ∈ c.actions) {d : Option Decision}
    (hkept : ∀ x, m.decisions.get? ra.1.name = some x → d = some x) :
    c.finished (c.calls place) ra d =
      c.finished (c.calls place) ra (m.decisions.get? ra.1.name) := by
  refine finished_congr ?_
  intro hpast haction
  obtain ⟨x, hx⟩ := Option.ne_none_iff_exists'.1 (ne_none_of_stands h hra hpast haction)
  rw [hx]
  exact hkept x hx

theorem preceding_forPhase (r : Resource) (createMissing : Bool) (action : Action)
    (phase : Phase) : r.preceding createMissing (Routine.forPhase action phase) = [] := by
  cases action <;> cases phase <;> rfl

/-- A routine that returns has done all the work of its phase. -/
theorem achieved_of_exit {k : Nat} {routine : Routine} {before rest : List Instruction}
    {K : Known} (h : c.InRoutine k ra routine before rest K m)
    (hexit : ra.1.Exit plan.createMissing routine K) {d : Option Decision}
    (hkept : ∀ x, m.decisions.get? ra.1.name = some x → d = some x) :
    K.records = ra.1.work plan.createMissing ra.2 routine.phase d := by
  obtain ⟨step, hneeded⟩ := h.needed
  have haction : routine.action = ra.2 := Resource.action_of_mem hneeded
  rw [hexit.records _ h.fits.decided, haction]
  refine ra.1.work_congr plan.createMissing _ ?_
  intro hupdate
  have hsettled := hexit.decided _ h.fits.decided
  rw [haction, hupdate] at hsettled
  cases hd : m.decisions.get? ra.1.name with
  | none => exact absurd (hd ▸ hsettled) (none_notMem_settled _)
  | some x => exact (hkept x hd).symm

/-- A move adds to what is achieved for a resource what it logs in its subroutines. -/
theorem achieved_of_moves {logged : List Operation} (hmoves : c.Moves logged place place')
    (h : c.Stands m place) (hra : ra ∈ c.actions) {d : Option Decision}
    (hkept : ∀ x, m.decisions.get? ra.1.name = some x → d = some x) :
    c.achieved place' ra d = c.achieved place ra (m.decisions.get? ra.1.name) ++
      if place.owner? = some ra.1.name then logged else [] := by
  have hfinished := finished_of_stands h hra hkept
  unfold achieved
  rw [← hfinished]
  cases hmoves with
  | init => rfl
  | halt => simp [calls, Place.records, Place.owner?]
  | call => simp [calls, Place.records, Place.owner?, Resource.entry, preceding_forPhase]
  | @next k rb routine i before rest K K' _ _ hrecords =>
    by_cases hname : rb.1.name = ra.1.name
    · simp [calls, Place.records, Place.owner?, hname, hrecords]
    · simp [calls, Place.records, Place.owner?, hname]
  | @jump k rb routine target before rest K hrecords _ =>
    simp [calls, Place.records, Place.owner?, Resource.entry, hrecords]
  | @ret k rb routine before K hexit =>
    have hroutine : c.InRoutine k rb routine before [.ret] K m := h
    by_cases hname : rb.1.name = ra.1.name
    · obtain rfl := eq_of_name_eq hroutine.planned hra hname
      have hsucc : c.finished (k + 1) rb d = _ := finished_succ hroutine.scheduled
      rw [← achieved_of_exit hroutine hexit hkept] at hsucc
      simp [calls, Place.records, Place.owner?, hsucc]
    · have hsucc : c.finished (k + 1) ra d = _ := finished_succ_of_ne hroutine.scheduled hname
      simp [calls, Place.records, Place.owner?, hname, hsucc]

/-! ### The words that are still possible -/

theorem settled_nonempty (createMissing : Bool) (action : Action) :
    ∃ d, d ∈ settled createMissing action := by
  cases action <;> exact ⟨_, List.mem_cons_self⟩

theorem possible_of_expected (hra : ra ∈ c.actions) {k : Nat} {v : Option Decision}
    (hv : v ∈ c.expected k ra) : plan.Possible ra v (c.finished k ra v) := by
  unfold expected at hv
  split at hv
  · next hpast =>
    obtain ⟨d, hd⟩ := settled_nonempty plan.createMissing ra.2
    refine ⟨d, hd, .inl (List.mem_singleton.1 hv), ?_⟩
    unfold finished
    rw [hpast]
    exact List.nil_prefix
  · exact ⟨v, hv, .inr rfl, finished_isPrefix k hra⟩

/-- In a phase, what goes on with its work goes on with a possible word. -/
theorem possible_of_begins {k : Nat} {routine : Routine} {before rest : List Instruction}
    {K : Known} (h : c.InRoutine k ra routine before rest K m) {os : List Operation}
    (hbegins : ra.1.Begins plan.createMissing routine K os) :
    plan.Possible ra (m.decisions.get? ra.1.name)
      (c.finished k ra (m.decisions.get? ra.1.name) ++ os) := by
  obtain ⟨step, hneeded⟩ := h.needed
  have haction : routine.action = ra.2 := Resource.action_of_mem hneeded
  obtain ⟨d, hd, hvd, hprefix⟩ := hbegins _ h.fits.decided
  rw [haction] at hd hprefix
  have hfinished : c.finished k ra (m.decisions.get? ra.1.name) = c.finished k ra d := by
    refine finished_congr ?_
    intro hpast hupdate
    have hphase : routine.phase ≠ .start := fun hphase =>
      hpast ((past_eq_nil_iff h.scheduled).2 hphase)
    exact hvd.resolve_left (h.decided hphase hupdate)
  refine ⟨d, hd, hvd, ?_⟩
  rw [hfinished]
  exact ((List.prefix_append_right_inj _).2 hprefix).trans
    (finished_append_isPrefix h.scheduled)

/-! ### What the next step logs -/

/-- What the next step logs in the subroutines of a resource. -/
def upcoming (c : Compilation plan) (name : String) (m : Memory) : List Operation :=
  if c.layout.owner? m.programCounter = some name then Run.upcoming c.program m else []

theorem upcoming_eq (c : Compilation plan) (name : String) (m : Memory) :
    c.upcoming name m = [] ∨ ∃ o, c.upcoming name m = [o] := by
  unfold upcoming
  split
  · exact Run.upcoming_eq c.program m
  · exact .inl rfl

/-- What is done at an instruction of a routine, with what the instruction logs. -/
theorem begins_upcoming {k : Nat} {routine : Routine} {before rest : List Instruction}
    {K : Known} (h : c.InRoutine k ra routine before rest K m)
    (hhalted : m.halted c.program.size = false) :
    ra.1.Begins plan.createMissing routine K (K.records ++ Run.upcoming c.program m) := by
  cases h.checked with
  | ret hexit =>
    rw [Run.upcoming_of_instruction hhalted (instruction_routine h)]
    show ra.1.Begins plan.createMissing routine K (K.records ++ [])
    rw [List.append_nil]
    exact h.checked.begins
  | step ht hrest =>
    rw [Run.upcoming_of_instruction hhalted (instruction_routine h), ← ht.records h.fits]
    exact ht.begins hrest.begins

theorem upcoming_of_halted (name : String) (h : m.halted c.program.size = true) :
    c.upcoming name m = [] := by
  unfold upcoming
  rw [Run.upcoming_of_halted h]
  split <;> rfl

theorem upcoming_of_outside (hd : c.Distinct) (h : c.Stands m place) {name : String}
    (howner : place.owner? ≠ some name) : c.upcoming name m = [] := by
  by_cases hplace : place = .halted
  · subst hplace
    exact upcoming_of_halted name (halted_of_stands h c.program.size)
  · unfold upcoming
    rw [owner_of_stands hd h hplace, if_neg howner]

theorem possible_of_outside (hd : c.Distinct) (h : c.Stands m place) (hra : ra ∈ c.actions)
    (howner : place.owner? ≠ some ra.1.name) (hrecords : place.records ra.1.name = [])
    (hexpected : m.decisions.get? ra.1.name ∈ c.expected (c.calls place) ra) :
    plan.Possible ra (m.decisions.get? ra.1.name)
      (c.achieved place ra (m.decisions.get? ra.1.name) ++ c.upcoming ra.1.name m) := by
  unfold achieved
  rw [upcoming_of_outside hd h howner, hrecords, List.append_nil, List.append_nil]
  exact possible_of_expected hra hexpected

/-- In a routine of a resource, what the next step logs goes on with the work of the phase. -/
theorem possible_of_inside (hd : c.Distinct) {k : Nat} {routine : Routine}
    {before rest : List Instruction} {K : Known}
    (h : c.InRoutine k ra routine before rest K m) (herror : m.error = none) :
    plan.Possible ra (m.decisions.get? ra.1.name)
      (c.achieved (.routine k ra routine before rest K) ra (m.decisions.get? ra.1.name) ++
        c.upcoming ra.1.name m) := by
  have hstands : c.Stands m (.routine k ra routine before rest K) := h
  have hhalted := running_of_stands hd hstands nofun herror
  have howner : c.layout.owner? m.programCounter = some ra.1.name :=
    owner_of_stands hd hstands nofun
  have hupcoming : c.upcoming ra.1.name m = Run.upcoming c.program m := if_pos howner
  have hachieved : c.achieved (.routine k ra routine before rest K) ra
      (m.decisions.get? ra.1.name) = c.finished k ra (m.decisions.get? ra.1.name) ++ K.records := by
    show c.finished k ra _ ++ (if ra.1.name = ra.1.name then K.records else []) = _
    rw [if_pos rfl]
  rw [hachieved, hupcoming, List.append_assoc]
  exact possible_of_begins h (begins_upcoming h hhalted)

/-- **At every place, what is achieved and what the next step logs begin a possible word.** -/
theorem possible_of_stands (hd : c.Distinct) (h : c.Stands m place) (herror : m.error = none)
    (hra : ra ∈ c.actions) : plan.Possible ra (m.decisions.get? ra.1.name)
      (c.achieved place ra (m.decisions.get? ra.1.name) ++ c.upcoming ra.1.name m) := by
  cases place with
  | start =>
    refine possible_of_outside hd h hra nofun rfl ?_
    obtain rfl : m = Memory.fresh := h
    exact List.mem_singleton.2 rfl
  | driver k =>
    have hdriver : c.InDriver k m := h
    exact possible_of_outside hd h hra nofun rfl (hdriver.decided ra hra)
  | routine k rb routine before rest K =>
    have hroutine : c.InRoutine k rb routine before rest K m := h
    by_cases hname : rb.1.name = ra.1.name
    · obtain rfl := eq_of_name_eq hroutine.planned hra hname
      exact possible_of_inside hd hroutine herror
    · have howner : (Place.routine k rb routine before rest K).owner? ≠ some ra.1.name :=
        fun heq => hname (Option.some.inj heq)
      exact possible_of_outside hd h hra howner (if_neg hname)
        (hroutine.others ra hra (Ne.symm hname))
  | halted =>
    have hhalted : m.ended = true ∧ m.callStack = [] ∧ _ := h
    exact possible_of_outside hd h hra nofun rfl (hhalted.2.2 ra hra)

end Compilation

end Provisioning
