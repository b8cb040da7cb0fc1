/-
Healing that finds nothing to heal.

A program that replaces what is missing probes every object before it updates it.  As long as
every probe finds the object and is of no consequence for what is answered otherwise, nothing
comes of it: the program does the same as the one without probes.

The two programs have different addresses, and one of them is ahead of the other by the
instructions of a detour now and then.  `Abreast` says how their places correspond, with the
rest of the detour that is still to be made.  While it is made, the other run waits; only
scratch changes and only probes are said and logged, and no branch leads away from it.
Otherwise both runs execute the same instruction.  It finds the same in both memories, so it
says the same, and is answered the same, since what was said before differs in probes only.
-/
import Provisioning.Proofs.Plan.Healing
import Provisioning.Proofs.Run.Alike
import Provisioning.Proofs.Run.Probe
import Provisioning.Proofs.Run.Staging

namespace Provisioning

theorem Run.kind_of_said {W : Type} {p : Program} {types : Registry W} {r : Run W} {e : Exchange}
    (he : e ∈ exchanges p types r) : ∃ kind, types.get? e.typeId = some kind := by
  cases hrunning : r.ended p with
  | true =>
    rw [exchanges_of_ended hrunning] at he
    cases he
  | false =>
    obtain ⟨i, hi⟩ := exists_instruction hrunning
    cases hop : i.isResourceOp with
    | false =>
      rw [exchanges_of_silent hrunning hi hop] at he
      cases he
    | true =>
      rw [exchanges_of_instruction hrunning hi] at he
      cases i with
      | resource op =>
        unfold execute at he
        split at he
        · cases he
        · rw [perform, Staged.ofMemory_recorded] at he
          cases hs : Staged.ofMemory types op r.memory with
          | error f =>
            rw [hs] at he
            cases he
          | ok s =>
            rw [hs] at he
            have hrecords := s.records_perform p.tables.rom r.memory (r.world, [])
            rcases hrecords.said e he with he | hsays
            · cases he
            · obtain ⟨-, -, -, hkind⟩ := Staged.ofMemory_eq_ok.1 hs
              exact ⟨s.kind, hsays.typeId ▸ hkind⟩
      | _ => cases hop

namespace Resource

/-- What a detour is made of: probes, and instructions that only act on scratch. -/
theorem detour_cases {r : Resource} {routine : Routine} {i : Instruction}
    (h : i ∈ r.detour routine) :
    i = .resource .checkExist ∨ (i.quiet = true ∧ i.reads = false ∧
      ∀ target : Routine, i = .gotoIf (.label (target.label r.name)) →
        target = .missingCreate ∨ target = .missingCreateCheck) := by
  have htarget : ∀ {target target' : Routine},
      Instruction.gotoIf (.label (target.label r.name)) =
        .gotoIf (.label (target'.label r.name)) → target' = target := by
    intro target target' heq
    injection heq with heq
    injection heq with heq
    exact (Routine.label_left_inj heq).symm
  cases routine with
  | update =>
    simp only [detour, Emit.probe, Emit.onResource, Emit.load, List.mem_append, List.mem_cons,
      List.not_mem_nil, or_false] at h
    rcases h with ((rfl | rfl | rfl | rfl) | rfl) | rfl | rfl
    · exact .inr ⟨rfl, rfl, fun _ heq => by cases heq⟩
    · exact .inr ⟨rfl, rfl, fun _ heq => by cases heq⟩
    · exact .inr ⟨rfl, rfl, fun _ heq => by cases heq⟩
    · exact .inr ⟨rfl, rfl, fun _ heq => by cases heq⟩
    · exact .inl rfl
    · exact .inr ⟨rfl, rfl, fun _ heq => by cases heq⟩
    · exact .inr ⟨rfl, rfl, fun _ heq => .inl (htarget heq)⟩
  | checkUpdate =>
    simp only [detour, Emit.branch, List.mem_cons, List.not_mem_nil, or_false] at h
    rcases h with rfl | rfl | rfl
    · exact .inr ⟨rfl, rfl, fun _ heq => by cases heq⟩
    · exact .inr ⟨rfl, rfl, fun _ heq => by cases heq⟩
    · exact .inr ⟨rfl, rfl, fun _ heq => .inr (htarget heq)⟩
  | _ => cases h

theorem presumed_of_detour {r : Resource} {routine : Routine} (h : r.detour routine ≠ []) :
    some Decision.missing ∉ routine.presumed false := by
  cases routine <;> first | exact absurd rfl h | decide

end Resource

/-! ### What two runs have in common -/

namespace Run

variable {W : Type} {p q : Program} {types : Registry W} {w : W} {n n' : Nat}

/-- After `n'` steps, a run of the second program has said and logged what a run of the first
has in `n` steps, apart from probes, and has the same tables. -/
structure Echoes (p q : Program) (types : Registry W) (w : W) (n n' : Nat) : Prop where
  spoken : ((spoken q types (fresh w) n').filter fun e => !e.2.request.probes) =
    (spoken p types (fresh w) n).filter fun e => !e.2.request.probes
  log : ((steps q types n' (fresh w)).log.filter (·.name ≠ ResourceOp.checkExist.word)) =
    (steps p types n (fresh w)).log.filter (·.name ≠ ResourceOp.checkExist.word)
  tables : (steps q types n' (fresh w)).memory.SameTables (steps p types n (fresh w)).memory

theorem provides_of_spoken
    (hall : ∀ typeId kind, types.get? typeId = some kind → ∃ p, kind.provider = some p)
    (r : Run W) (n : Nat) : ∀ call ∈ (spoken p types r n).map (fun e => e.2.call),
      types.Provides call.typeId := by
  induction n with
  | zero =>
    intro call hcall
    cases hcall
  | succ n ih =>
    intro call hcall
    rw [Run.spoken, List.map_append] at hcall
    rcases List.mem_append.1 hcall with hcall | hcall
    · exact ih call hcall
    · rw [List.map_map] at hcall
      obtain ⟨e, he, rfl⟩ := List.mem_map.1 hcall
      obtain ⟨kind, hkind⟩ := kind_of_said he
      obtain ⟨q, hq⟩ := hall _ kind hkind
      exact ⟨kind, q, hkind, hq⟩

/-- What two runs have in common, with how they stand: whether they have ended, and because of
which fault. -/
structure Mirrors (p q : Program) (types : Registry W) (w : W) (n n' : Nat) : Prop
    extends Echoes p q types w n n' where
  error : (steps q types n' (fresh w)).memory.error = (steps p types n (fresh w)).memory.error
  ended : (steps q types n' (fresh w)).ended q = (steps p types n (fresh w)).ended p

namespace Echoes

theorem sameButProbes (h : Echoes p q types w n n')
    (hall : ∀ typeId kind, types.get? typeId = some kind → ∃ p, kind.provider = some p) :
    types.SameButProbes ((Run.spoken p types (fresh w) n).map fun e => e.2.call)
      ((Run.spoken q types (fresh w) n').map fun e => e.2.call) where
  provided := provides_of_spoken hall _ n
  provided' := provides_of_spoken hall _ n'
  same := by
    rw [List.filter_map, List.filter_map]
    exact congrArg _ h.spoken.symm

/-- Where both say and log the same in a step, they still have it in common. -/
theorem both (h : Echoes p q types w n n') (os : List Operation)
    (hsaid : exchanges q types (steps q types n' (fresh w)) =
      exchanges p types (steps p types n (fresh w)))
    (hnamed : exchanges p types (steps p types n (fresh w)) ≠ [] →
      stagedName (steps q types n' (fresh w)).memory =
        stagedName (steps p types n (fresh w)).memory)
    (hlog : (steps p types (n + 1) (fresh w)).log = (steps p types n (fresh w)).log ++ os)
    (hlog' : (steps q types (n' + 1) (fresh w)).log = (steps q types n' (fresh w)).log ++ os)
    (htables : (steps q types (n' + 1) (fresh w)).memory.SameTables
      (steps p types (n + 1) (fresh w)).memory) : Echoes p q types w (n + 1) (n' + 1) where
  spoken := by
    rw [Run.spoken, Run.spoken, List.filter_append, List.filter_append, h.spoken, hsaid]
    by_cases hsilent : exchanges p types (steps p types n (fresh w)) = []
    · rw [hsilent]
      rfl
    · rw [hnamed hsilent]
  log := by rw [hlog, hlog', List.filter_append, List.filter_append, h.log]
  tables := htables

/-- Where only the first one goes on, and with probes, they still have it in common. -/
theorem left (h : Echoes p q types w n n') (os : List Operation)
    (hsaid : ∀ e ∈ exchanges p types (steps p types n (fresh w)), e.request.probes = true)
    (hlog : (steps p types (n + 1) (fresh w)).log = (steps p types n (fresh w)).log ++ os)
    (hos : ∀ o ∈ os, o.name = ResourceOp.checkExist.word)
    (htables : (steps p types n (fresh w)).memory.SameTables
      (steps p types (n + 1) (fresh w)).memory) : Echoes p q types w (n + 1) n' where
  spoken := by
    have hnone : ((exchanges p types (steps p types n (fresh w))).map
        (stagedName (steps p types n (fresh w)).memory, ·)).filter
          (fun e => !e.2.request.probes) = [] := by
      rw [List.filter_eq_nil_iff]
      intro named hnamed
      obtain ⟨e, he, rfl⟩ := List.mem_map.1 hnamed
      simp [hsaid e he]
    rw [Run.spoken, List.filter_append, hnone, List.append_nil, h.spoken]
  log := by
    have hnone : os.filter (·.name ≠ ResourceOp.checkExist.word) = [] := by
      rw [List.filter_eq_nil_iff]
      intro o ho
      simp [hos o ho]
    rw [hlog, List.filter_append, hnone, List.append_nil, h.log]
  tables := h.tables.trans htables

end Echoes

end Run

/-! ### Runs side by side -/

/-- How the places of the two runs correspond, `m'` being the memory of the one that makes no
detours.  The list has the instructions of a detour that are still to be carried out. -/
inductive Abreast (m' : Memory) : List Instruction → Place → Place → Prop
  | start : Abreast m' [] .start .start
  | driver (k : Nat) : Abreast m' [] (.driver k) (.driver k)
  | entry (k : Nat) (ra : Resource × Action) (routine : Routine) :
    Abreast m' []
      (.routine k ra routine [] (ra.1.piece true routine).body (ra.1.entry true routine))
      (.routine k ra routine [] (ra.1.piece false routine).body (ra.1.entry false routine))
  | routine {k : Nat} {ra : Resource × Action} {routine : Routine}
    {before before' rest : List Instruction} {K K' : Known} :
    Abreast m' [] (.routine k ra routine before rest K) (.routine k ra routine before' rest K')
  /-- Scratch has just been emptied, and nothing is known to be missing. -/
  | detour {k : Nat} {ra : Resource × Action} {routine : Routine} {i : Instruction}
    {d before before' rest : List Instruction} {K K' : Known} :
    (i :: d) <:+ ra.1.detour routine → m'.temp = [] →
    m'.decisions.get? ra.1.name ≠ some .missing →
    Abreast m' (i :: d) (.routine k ra routine before (i :: (d ++ rest)) K)
      (.routine k ra routine before' rest K')

/-- With less and less of a detour before it, the run that makes it comes up with the other. -/
theorem Abreast.of_detour {m' : Memory} {k : Nat} {ra : Resource × Action} {routine : Routine}
    {d before before' rest : List Instruction} {K K' : Known} (hd : d <:+ ra.1.detour routine)
    (htemp : m'.temp = [])
    (hmissing : d ≠ [] → m'.decisions.get? ra.1.name ≠ some .missing) :
    Abreast m' d (.routine k ra routine before (d ++ rest) K)
      (.routine k ra routine before' rest K') := by
  cases d with
  | nil => exact .routine
  | cons i d => exact .detour hd htemp (hmissing (List.cons_ne_nil _ _))

namespace Compilation

variable {declaration : Declaration} {prior : Snapshot}
  {c : Compilation ⟨declaration, prior, true⟩} {c' : Compilation ⟨declaration, prior, false⟩}
  {W : Type} {types : Registry W} {w : W} {n n' k : Nat} {ra : Resource × Action}
  {routine : Routine} {i : Instruction} {d before before' rest rest' : List Instruction}
  {K K' : Known}

/-- The two runs are side by side after `n` and `n'` steps, but for the rest of a detour. -/
inductive Twins (c : Compilation ⟨declaration, prior, true⟩)
    (c' : Compilation ⟨declaration, prior, false⟩) (types : Registry W) (w : W) (n n' : Nat)
    (d : List Instruction) : Prop
  | running {place place' : Place} : c.Reaches types w n place → c'.Reaches types w n' place' →
    Abreast (c'.after types w n').memory d place place' →
    (c'.after types w n').memory.Within (c.after types w n).memory →
    Run.Echoes c.program c'.program types w n n' → Twins c c' types w n n' d
  | ended : d = [] → (c.after types w n).ended c.program = true →
    (c'.after types w n').ended c'.program = true →
    (c.after types w n).memory.error = (c'.after types w n').memory.error →
    Run.Echoes c.program c'.program types w n n' → Twins c c' types w n n' d

section

variable (hd : c.Distinct) (htypes : ∀ t ∈ declaration.catalog.keys, t ∈ types.keys)
  (hall : ∀ typeId kind, types.get? typeId = some kind → ∃ p, kind.provider = some p)
  (hconfirms : types.Confirms w)

include hall hconfirms in
/-- **The same instruction comes to the same, and says the same, in both runs.** -/
theorem held_eq (h' : c'.Reaches types w n' (.routine k ra routine before' (i :: rest') K'))
    (hret : i ≠ .ret) (hwithin : (c'.after types w n').memory.Within (c.after types w n).memory)
    (hechoes : Run.Echoes c.program c'.program types w n n') :
    let held := (i.talk c.program.tables.rom types (c.after types w n).memory).hold types
      (c.after types w n).world
    let held' := (i.talk c'.program.tables.rom types (c'.after types w n').memory).hold types
      (c'.after types w n').world
    held.result = held'.result ∧ held.said = held'.said := by
  have hroutine : c'.InRoutine k ra routine before' (i :: rest') K' (c'.after types w n').memory :=
    h'.stands.1
  have htables : (c'.after types w n').memory.SameTables (c.after types w n).memory :=
    hechoes.tables
  have hrom : c.program.tables.rom = c'.program.tables.rom := (rom_unhealing c c').symm
  cases hroutine.checked with
  | ret => exact absurd rfl hret
  | step ht hrest =>
    have halike : ra.1.Alike (c'.after types w n').memory (c.after types w n).memory :=
      ⟨hwithin, by rw [htables.remoteIds], by rw [htables.remoteIds], by rw [htables.decisions]⟩
    have htalk : i.talk c.program.tables.rom types (c.after types w n).memory =
        i.talk c'.program.tables.rom types (c'.after types w n').memory :=
      ht.talk_eq hrest hroutine.fits halike fun _ => by
        rw [hrom, Memory.outputValue_congr htables]
    have hworld : (c.after types w n).world = (types.tell ((Run.spoken c.program types
        (Run.fresh w) n).map fun e => e.2.call) w).2 :=
      (congrArg Prod.snd (Run.tell_spoken c.program types (Run.fresh w) n)).symm
    have hworld' : (c'.after types w n').world = (types.tell ((Run.spoken c'.program types
        (Run.fresh w) n').map fun e => e.2.call) w).2 :=
      (congrArg Prod.snd (Run.tell_spoken c'.program types (Run.fresh w) n')).symm
    dsimp only
    rw [htalk, hworld, hworld']
    exact hconfirms.hold_eq _ (hechoes.sameButProbes hall)

include hd htypes hall hconfirms in
theorem follows_both (h : c.Reaches types w n (.routine k ra routine before (i :: rest) K))
    (h' : c'.Reaches types w n' (.routine k ra routine before' (i :: rest') K'))
    (hret : i ≠ .ret) (hwithin : (c'.after types w n').memory.Within (c.after types w n).memory)
    (hechoes : Run.Echoes c.program c'.program types w n n') :
    let turn := ((i.talk c'.program.tables.rom types (c'.after types w n').memory).hold types
      (c'.after types w n').world).result.turn
    c.Follows types w n k ra routine before rest i turn ∧
      c'.Follows types w n' k ra routine before' rest' i turn ∧
      (c'.after types w (n' + 1)).memory.Within (c.after types w (n + 1)).memory ∧
      Run.Echoes c.program c'.program types w (n + 1) (n' + 1) := by
  obtain ⟨hfollows, hheeds⟩ := h.follows hd htypes hret
  obtain ⟨hfollows', hheeds'⟩ := h'.follows (hd.unhealing c') htypes hret
  obtain ⟨hresult, hsaid⟩ := held_eq (c := c) hall hconfirms h' hret hwithin hechoes
  dsimp only at hfollows hheeds hfollows' hheeds' hresult hsaid ⊢
  generalize (i.talk c.program.tables.rom types (c.after types w n).memory).hold types
    (c.after types w n).world = held at hfollows hheeds hresult hsaid
  generalize (i.talk c'.program.tables.rom types (c'.after types w n').memory).hold types
    (c'.after types w n').world = held' at hfollows' hheeds' hresult hsaid ⊢
  have hroutine : c'.InRoutine k ra routine before' (i :: rest') K' (c'.after types w n').memory :=
    h'.stands.1
  have hfits : c.InRoutine k ra routine before (i :: rest) K (c.after types w n).memory :=
    h.stands.1
  have hnamed : i.isResourceOp = true → Run.stagedName (c'.after types w n').memory =
      Run.stagedName (c.after types w n).memory := by
    intro hop
    cases hroutine.checked with
    | ret => exact absurd rfl hret
    | step ht => exact (ht.stagedName_eq hroutine.fits hwithin hop).symm
  refine ⟨hresult ▸ hfollows, hfollows', ?_, ?_⟩
  · rw [after_succ, after_succ]
    exact hheeds'.within hheeds hresult hroutine.fits.distinct hfits.fits.distinct hwithin
  · have hlogged := Run.logged_congr hnamed
    have hlog : (c.after types w (n + 1)).log = (c.after types w n).log ++
        Run.logged i (c.after types w n).memory :=
      (congrArg Run.log (after_succ c types w n)).trans hheeds.log
    have hlog' : (c'.after types w (n' + 1)).log = (c'.after types w n').log ++
        Run.logged i (c.after types w n).memory :=
      (congrArg Run.log (after_succ c' types w n')).trans (hlogged ▸ hheeds'.log)
    refine hechoes.both _ ?_ ?_ hlog hlog' ?_
    · exact hheeds'.said.trans (hsaid.symm.trans hheeds.said.symm)
    · intro hspeaks
      refine hnamed (Bool.not_eq_false _ ▸ fun hop => hspeaks ?_)
      exact h.silent_of_not_op hd htypes hop
    · have htables : (c'.after types w n').memory.SameTables (c.after types w n).memory :=
        hechoes.tables
      have hwritten := htables.applyAll held'.result.writes
      have hleft := hheeds.tables
      have hright := hheeds'.tables
      rw [hresult] at hleft
      rw [← after_succ] at hleft hright
      exact hright.symm.trans (hwritten.trans hleft)

/-! ### The detour -/

include hall hconfirms in
theorem not_missing (c : Compilation ⟨declaration, prior, true⟩) (n : Nat) {typeId : String}
    {id : Option Json} :
    (⟨typeId, id, .found, .ok false⟩ : Exchange) ∉
      Run.exchanges c.program types (c.after types w n) := by
  intro he
  have hspoken : (⟨typeId, id, .found, .ok false⟩ : Exchange) ∈
      (Run.spoken c.program types (Run.fresh w) (n + 1)).map Prod.snd := by
    rw [Run.spoken, List.map_append, List.map_map]
    exact List.mem_append_right _ (List.mem_map.2 ⟨_, he, rfl⟩)
  have htell : (types.tell ((Run.spoken c.program types (Run.fresh w) (n + 1)).map
      fun e => e.2.call) w).1 = (Run.spoken c.program types (Run.fresh w) (n + 1)).map Prod.snd :=
    congrArg Prod.fst (Run.tell_spoken c.program types (Run.fresh w) (n + 1))
  rw [← htell] at hspoken
  cases hconfirms.there _ (Run.provides_of_spoken hall (Run.fresh w) (n + 1)) typeId id _ hspoken

include hd htypes hall hconfirms in
/-- A probe goes on, says nothing but the probe, and leaves the tables as they were. -/
theorem Reaches.probes
    (h : c.Reaches types w n (.routine k ra routine before (.resource .checkExist :: rest) K))
    (hechoes : Run.Echoes c.program c'.program types w n n') :
    (∃ K', c.Reaches types w (n + 1)
      (.routine k ra routine (before ++ [.resource .checkExist]) rest K')) ∧
      (c.after types w n).memory.SameTables (c.after types w (n + 1)).memory ∧
      (c.after types w (n + 1)).log =
        (c.after types w n).log ++ Run.logged (.resource .checkExist) (c.after types w n).memory ∧
      ∀ e ∈ Run.exchanges c.program types (c.after types w n), e.request.probes = true := by
  obtain ⟨hfollows, hheeds⟩ := h.follows hd htypes Instruction.noConfusion
  have hroutine : c.InRoutine k ra routine before (.resource .checkExist :: rest) K
    (c.after types w n).memory := h.stands.1
  obtain ⟨s, hop, hfaces, -⟩ : ∃ s : Staged W, s.op = .checkExist ∧
      c.Faces types k ra routine before rest K s (c.after types w n).memory ∧ True := by
    cases hroutine.checked with
    | step ht =>
      obtain ⟨s, hop, hfaces, -⟩ := exists_faces (r := c.after types w n) htypes hroutine ht
      exact ⟨s, hop, hfaces, trivial⟩
  have hstaged : Staged.ofMemory types .checkExist (c.after types w n).memory = .ok s :=
    hop ▸ hfaces.staged
  obtain ⟨q, hq⟩ := hall _ _ hfaces.serves.kind
  have hprovider : s.provider = .ok q := by
    rw [Staged.provider, Kind.provides, hq]
  have hprovides : types.Provides s.typeId :=
    ⟨s.kind, q, hfaces.serves.typeId ▸ hfaces.serves.kind, hq⟩
  have hfound : (types.answer ⟨s.typeId, (c.after types w n).memory.remoteId s.name, .found⟩
      (c.after types w n).world).1 = .ok true := by
    have hworld : (c.after types w n).world = (types.tell ((Run.spoken c.program types
        (Run.fresh w) n).map fun e => e.2.call) w).2 :=
      (congrArg Prod.snd (Run.tell_spoken c.program types (Run.fresh w) n)).symm
    rw [hworld]
    exact hconfirms.found (hechoes.sameButProbes hall) hprovides
  obtain ⟨said, w', hsaid, hheld⟩ := Staged.hold_talkCheckExist hprovider hfound
  rw [Instruction.talk_eq_say (hop ▸ hfaces.keys), Instruction.say, hstaged] at hfollows hheeds
  simp only [Talk.need, Staged.talk, hop, hheld] at hfollows hheeds
  refine ⟨?_, ?_, ?_, ?_⟩
  · cases hfollows with
    | next hreaches => exact ⟨_, hreaches⟩
  · rw [after_succ]
    exact ⟨hheeds.tables.remoteIds, hheeds.tables.outputs, hheeds.tables.decisions,
      hheeds.tables.deleted⟩
  · rw [after_succ]
    exact hheeds.log
  · intro e he
    rw [hheeds.said] at he
    exact hsaid e he

include hd htypes hall hconfirms in
/-- **While one run makes its detour, the other may wait for it.** -/
theorem Twins.catchUp (h : Twins c c' types w n n' (i :: d)) : Twins c c' types w (n + 1) n' d := by
  cases h with
  | ended hnil => cases hnil
  | running h h' habreast hwithin hechoes =>
    cases habreast with
    | @detour k ra routine _ _ before before' rest K K' hdetour htemp hmissing =>
      have hsuffix : d <:+ ra.1.detour routine := (List.suffix_cons i d).trans hdetour
      have hnothing : ∀ m : Memory, (c'.after types w n').memory.Within m := by
        intro m key v hv
        rw [htemp] at hv
        cases hv
      have hruns : ∀ {K}, c.Reaches types w (n + 1)
          (.routine k ra routine (before ++ [i]) (d ++ rest) K) →
          Run.Echoes c.program c'.program types w (n + 1) n' →
          Twins c c' types w (n + 1) n' d := fun hreaches hechoes =>
        .running hreaches h' (.of_detour hsuffix htemp fun _ => hmissing) (hnothing _) hechoes
      rcases Resource.detour_cases (hdetour.mem List.mem_cons_self) with
        rfl | ⟨hquiet, hreads, htargets⟩
      · obtain ⟨⟨K', hreaches⟩, htables, hlog, hprobes⟩ :=
          Reaches.probes hd htypes hall hconfirms h hechoes
        refine hruns hreaches (hechoes.left _ hprobes hlog ?_ htables)
        intro o ho
        rw [Run.logged_resource] at ho
        rw [List.mem_singleton.1 ho]
        rfl
      · obtain ⟨hgoes, htables, hlog, hsilent⟩ := h.quietly hd htypes hquiet hreads
        rcases hgoes with ⟨K', hreaches⟩ | ⟨target, hbranch, hreaches⟩
        · refine hruns hreaches (hechoes.left [] ?_ ?_ ?_ htables)
          · intro e he
            cases (hsilent ▸ he : e ∈ [])
          · rw [List.append_nil]
            exact hlog
          · intro o ho
            cases ho
        · exfalso
          rcases htargets target hbranch with rfl | rfl
          · obtain ⟨t, -, -, -, hhears⟩ := hreaches.probed hd htypes
            exact not_missing hall hconfirms c t hhears.said
          · have hentered : c.InRoutine k ra .missingCreateCheck [] _ _
              (c.after types w (n + 1)).memory := hreaches.stands.1
            have hdecided := List.mem_singleton.1 hentered.fits.decided
            have hsame : (c'.after types w n').memory.SameTables (c.after types w n).memory :=
              hechoes.tables
            rw [htables.decisions, hsame.decisions] at hdecided
            exact hmissing hdecided

/-! ### Side by side -/

theorem echoes_of_coasts (hechoes : Run.Echoes c.program c'.program types w n n')
    (h : c.Coasts types w n) (h' : c'.Coasts types w n') :
    Run.Echoes c.program c'.program types w (n + 1) (n' + 1) := by
  have htables : (c'.after types w n').memory.SameTables (c.after types w n).memory :=
    hechoes.tables
  refine hechoes.both [] (h'.silent.trans h.silent.symm) ?_ ?_ ?_
    (h'.tables.symm.trans (htables.trans h.tables))
  · intro hspeaks
    exact absurd h.silent hspeaks
  · rw [List.append_nil]
    exact h.log
  · rw [List.append_nil]
    exact h'.log

theorem within_of_coasts
    (hwithin : (c'.after types w n').memory.Within (c.after types w n).memory)
    (h : c.Coasts types w n) (h' : c'.Coasts types w n') :
    (c'.after types w (n' + 1)).memory.Within (c.after types w (n + 1)).memory := by
  intro key v hv
  rw [h'.temp] at hv
  rw [h.temp]
  exact hwithin key v hv

theorem coasts_of_ended {plan : Plan} {c : Compilation plan}
    (h : (c.after types w n).ended c.program = true) :
    c.after types w (n + 1) = c.after types w n ∧ c.Coasts types w n := by
  have hafter : c.after types w (n + 1) = c.after types w n := by
    rw [after_succ, Run.step_of_ended h]
  refine ⟨hafter, ?_, ?_, ?_, Run.exchanges_of_ended h⟩
  · rw [hafter]
    exact ⟨rfl, rfl, rfl, rfl⟩
  · rw [hafter]
  · rw [hafter]

include hd htypes in
/-- From the driver, both runs make the same call or come to their end. -/
theorem Twins.drive (h : c.Reaches types w n (.driver k)) (h' : c'.Reaches types w n' (.driver k))
    (hwithin : (c'.after types w n').memory.Within (c.after types w n).memory)
    (hechoes : Run.Echoes c.program c'.program types w n n') :
    Twins c c' types w (n + 1) (n' + 1) [] := by
  obtain ⟨hleads, hcoasts⟩ := h.driven hd htypes
  obtain ⟨hleads', hcoasts'⟩ := h'.driven (hd.unhealing c') htypes
  have hechoes' := echoes_of_coasts hechoes hcoasts hcoasts'
  have hwithin' := within_of_coasts hwithin hcoasts hcoasts'
  have hschedule := schedule_unhealing c c'
  rcases hleads with ⟨ra, hra, phase, hk, hreaches⟩ | ⟨hk, hreaches⟩ <;>
    rcases hleads' with ⟨rb, hrb, phase', hk', hreaches'⟩ | ⟨hk', hreaches'⟩
  · rw [hschedule, hk] at hk'
    obtain ⟨hname, rfl⟩ := Prod.mk.inj (Option.some.inj hk')
    rw [actions_unhealing c c'] at hrb
    obtain rfl := eq_of_name_eq hra hrb hname
    exact .running hreaches hreaches' (.entry k ra _) hwithin' hechoes'
  · rw [hschedule] at hk'
    rw [List.getElem?_eq_none (Nat.le_of_eq hk'.symm)] at hk
    cases hk
  · rw [hschedule, List.getElem?_eq_none (Nat.le_of_eq hk.symm)] at hk'
    cases hk'
  · exact .ended rfl (ended_of_halted hreaches) (ended_of_halted hreaches')
      (hreaches.stands.2.trans hreaches'.stands.2.symm) hechoes'

include hd htypes hall hconfirms in
theorem Twins.follow
    (h : c.Reaches types w n (.routine k ra routine before rest K))
    (h' : c'.Reaches types w n' (.routine k ra routine before' rest K'))
    (hwithin : (c'.after types w n').memory.Within (c.after types w n).memory)
    (hechoes : Run.Echoes c.program c'.program types w n n') :
    Twins c c' types w (n + 1) (n' + 1) [] := by
  have hroutine : c.InRoutine k ra routine before rest K (c.after types w n).memory :=
    h.stands.1
  cases hroutine.checked with
  | ret =>
    obtain ⟨hreaches, hcoasts⟩ := h.returns hd htypes
    obtain ⟨hreaches', hcoasts'⟩ := h'.returns (hd.unhealing c') htypes
    exact .running hreaches hreaches' (.driver (k + 1)) (within_of_coasts hwithin hcoasts hcoasts')
      (echoes_of_coasts hechoes hcoasts hcoasts')
  | @step _ _ i rest ht =>
    have hret : i ≠ .ret := by
      rintro rfl
      cases ht
    obtain ⟨hfollows, hfollows', hwithin', hechoes'⟩ :=
      follows_both hd htypes hall hconfirms h h' hret hwithin hechoes
    generalize ((i.talk c'.program.tables.rom types (c'.after types w n').memory).hold types
      (c'.after types w n').world).result.turn = turn at hfollows hfollows'
    cases hfollows with
    | next hreaches =>
      cases hfollows' with
      | next hreaches' => exact .running hreaches hreaches' .routine hwithin' hechoes'
    | branch _ htarget hreaches =>
      cases hfollows' with
      | branch _ htarget' hreaches' =>
        injection htarget.symm.trans htarget' with hlabel
        obtain rfl := Routine.label_left_inj hlabel
        exact .running hreaches hreaches' (.entry k ra _) hwithin' hechoes'
    | stay hreaches =>
      cases hfollows' with
      | stay hreaches' => exact .running hreaches hreaches' .routine hwithin' hechoes'
    | fault herror =>
      cases hfollows' with
      | fault herror' =>
        exact .ended rfl (ended_of_error herror) (ended_of_error herror')
          (herror.trans herror'.symm) hechoes'

include hd htypes hall hconfirms in
/-- Both runs empty scratch, and then one of them may have a detour to make. -/
theorem Twins.enter
    (h : c.Reaches types w n (.routine k ra routine [] (ra.1.piece true routine).body K))
    (h' : c'.Reaches types w n' (.routine k ra routine [] (ra.1.piece false routine).body
      (ra.1.entry false routine)))
    (hwithin : (c'.after types w n').memory.Within (c.after types w n).memory)
    (hechoes : Run.Echoes c.program c'.program types w n n') :
    Twins c c' types w (n + 1) (n' + 1) (ra.1.detour routine) := by
  have hbody : (ra.1.piece false routine).body =
    .clear :: (ra.1.script false routine ++ [.ret]) := rfl
  have hentered : c'.InRoutine k ra routine [] (ra.1.piece false routine).body
    (ra.1.entry false routine) (c'.after types w n').memory := h'.stands.1
  rw [ra.1.body_eq] at h
  rw [hbody] at h'
  obtain ⟨hfollows, hfollows', hwithin', hechoes'⟩ :=
    follows_both hd htypes hall hconfirms h h' Instruction.noConfusion hwithin hechoes
  have hheeds' := (h'.follows (hd.unhealing c') htypes Instruction.noConfusion).2
  cases hfollows with
  | next hreaches =>
    cases hfollows' with
    | next hreaches' =>
      refine .running hreaches hreaches'
        (.of_detour (List.suffix_refl _) ?_ fun hdetour hmissing => ?_) hwithin' hechoes'
      · rw [after_succ]
        exact hheeds'.temp
      · rw [after_succ, hheeds'.tables.decisions] at hmissing
        have hdecided : (c'.after types w n').memory.decisions.get? ra.1.name ∈
          routine.presumed false := hentered.fits.decided
        exact Resource.presumed_of_detour hdetour (hmissing ▸ hdecided)

include hd htypes hall hconfirms in
/-- **Runs that are side by side make their next step side by side.** -/
theorem Twins.step (h : Twins c c' types w n n' []) :
    ∃ d, Twins c c' types w (n + 1) (n' + 1) d := by
  cases h with
  | ended _ hended hended' herror hechoes =>
    obtain ⟨hafter, hcoasts⟩ := coasts_of_ended hended
    obtain ⟨hafter', hcoasts'⟩ := coasts_of_ended hended'
    exact ⟨[], .ended rfl (hafter ▸ hended) (hafter' ▸ hended') (hafter ▸ hafter' ▸ herror)
      (echoes_of_coasts hechoes hcoasts hcoasts')⟩
  | running h h' habreast hwithin hechoes =>
    cases habreast with
    | start =>
      obtain ⟨hreaches, hmemory, hlog, hsilent⟩ := h.loads hd htypes
      obtain ⟨hreaches', hmemory', hlog', hsilent'⟩ := h'.loads (hd.unhealing c') htypes
      refine ⟨[], .running hreaches hreaches' (.driver 0) ?_
        (hechoes.both [] (hsilent'.trans hsilent.symm) (absurd hsilent) ?_ ?_ ?_)⟩
      · rw [hmemory']
        intro key v hv
        cases hv
      · rw [List.append_nil]
        exact hlog
      · rw [List.append_nil]
        exact hlog'
      · exact (congrArg₂ Memory.SameTables hmemory' hmemory).mpr ⟨rfl, rfl, rfl, rfl⟩
    | driver k => exact ⟨[], Twins.drive hd htypes h h' hwithin hechoes⟩
    | entry k ra routine =>
      exact ⟨_, Twins.enter hd htypes hall hconfirms h h' hwithin hechoes⟩
    | routine => exact ⟨[], Twins.follow hd htypes hall hconfirms h h' hwithin hechoes⟩

include hd htypes hall hconfirms in
theorem Twins.arrive (h : Twins c c' types w n n' d) :
    ∃ n₁, Twins c c' types w n₁ n' [] := by
  induction d generalizing n with
  | nil => exact ⟨n, h⟩
  | cons i d ih => exact ih (Twins.catchUp hd htypes hall hconfirms h)

theorem twins_fresh (c : Compilation ⟨declaration, prior, true⟩)
    (c' : Compilation ⟨declaration, prior, false⟩) (types : Registry W) (w : W) :
    Twins c c' types w 0 0 [] :=
  .running .start .start .start (fun _ _ hv => hv) ⟨rfl, rfl, rfl, rfl, rfl, rfl⟩

include hd htypes hall hconfirms in
theorem exists_twin (c' : Compilation ⟨declaration, prior, false⟩) (n : Nat) :
    ∃ n' d, Twins c c' types w n n' d := by
  induction n with
  | zero => exact ⟨0, [], twins_fresh c c' types w⟩
  | succ n ih =>
    obtain ⟨n', d, h⟩ := ih
    cases d with
    | nil => exact ⟨n' + 1, Twins.step hd htypes hall hconfirms h⟩
    | cons i d => exact ⟨n', d, Twins.catchUp hd htypes hall hconfirms h⟩

include hd htypes hall hconfirms in
theorem exists_twin' (c' : Compilation ⟨declaration, prior, false⟩) (n' : Nat) :
    ∃ n, Twins c c' types w n n' [] := by
  induction n' with
  | zero => exact ⟨0, twins_fresh c c' types w⟩
  | succ n' ih =>
    obtain ⟨n, h⟩ := ih
    obtain ⟨d, h⟩ := Twins.step hd htypes hall hconfirms h
    exact Twins.arrive hd htypes hall hconfirms h

include hd in
theorem Twins.mirrors (h : Twins c c' types w n n' d) :
    Run.Mirrors c.program c'.program types w n n' := by
  cases h with
  | ended _ hended hended' herror hechoes =>
    exact ⟨hechoes, herror.symm, hended'.trans hended.symm⟩
  | @running place place' h h' habreast _ hechoes =>
    have hgoes : place ≠ .halted ∧ place' ≠ .halted := by
      cases habreast <;> exact ⟨Place.noConfusion, Place.noConfusion⟩
    exact ⟨hechoes, h'.stands.2.trans h.stands.2.symm,
      (running_of_stands (hd.unhealing c') h'.stands.1 hgoes.2 h'.stands.2).trans
        (running_of_stands hd h.stands.1 hgoes.1 h.stands.2).symm⟩

end

/-- **As long as every probe finds its object and is of no consequence otherwise, a program that
replaces what is missing does what the one without probes does: at any time either run is where
the other one comes by, having said and logged the same apart from probes, with the same tables
and the same fault, if any.** -/
theorem mirrors_of_steps {p : Program} (h : (Plan.mk declaration prior true).compile = .ok p) :
    ∃ (c : Compilation ⟨declaration, prior, true⟩) (q : Program), c.program = p ∧
      (Plan.mk declaration prior false).compile = .ok q ∧ (c.Distinct →
        ∀ {W : Type} (types : Registry W), (∀ t ∈ declaration.catalog.keys, t ∈ types.keys) →
          (∀ typeId kind, types.get? typeId = some kind → ∃ p, kind.provider = some p) →
            ∀ w, types.Confirms w → (∀ n, ∃ n', Run.Mirrors p q types w n n') ∧
              ∀ n', ∃ n, Run.Mirrors p q types w n n') := by
  obtain ⟨c, rfl⟩ := compile_eq_ok.1 h
  obtain ⟨c'⟩ := nonempty_unhealing c
  refine ⟨c, c'.program, rfl, compile_eq_ok.2 ⟨c', rfl⟩, ?_⟩
  intro hd W types htypes hall w hconfirms
  constructor
  · intro n
    obtain ⟨n', d, htwins⟩ := exists_twin hd htypes hall hconfirms c' n
    exact ⟨n', htwins.mirrors hd⟩
  · intro n'
    obtain ⟨n, htwins⟩ := exists_twin' hd htypes hall hconfirms c' n'
    exact ⟨n, htwins.mirrors hd⟩

/-- A plan with an update: its run has an end and makes a probe, and the run without probes
comes to the same end. -/
theorem mirrors_of_steps_plain :
    ∃ p q, (plainPlan true ["x", "y"] ["y", "z"] true).compile = .ok p ∧
      (plainPlan true ["x", "y"] ["y", "z"] false).compile = .ok q ∧
      ResourceOp.checkExist.record "y" ∈ (Run.steps p (plainTypes true) 200 (Run.fresh ())).log ∧
      (Run.steps p (plainTypes true) 200 (Run.fresh ())).memory.ended = true ∧
      ∃ n, Run.Mirrors p q (plainTypes true) () 200 n := by
  obtain ⟨p, hp⟩ : ∃ p, (plainPlan true ["x", "y"] ["y", "z"] true).compile = .ok p := ⟨_, rfl⟩
  obtain ⟨c, q, -, hq, hmirrors⟩ := mirrors_of_steps hp
  have hprobed : ResourceOp.checkExist.record "y" ∈
        (Run.steps p (plainTypes true) 200 (Run.fresh ())).log ∧
      (Run.steps p (plainTypes true) 200 (Run.fresh ())).memory.ended = true := by
    obtain rfl : _ = p := Except.ok.inj hp
    exact ⟨by decide +kernel, by decide +kernel⟩
  have htypes : ∀ t ∈ (plainPlan true ["x", "y"] ["y", "z"] true).declaration.catalog.keys,
      t ∈ (plainTypes true).keys := by decide
  have hkind : ∀ {typeId kind}, (plainTypes true).get? typeId = some kind →
      kind.provider = some plainProvider := by
    intro typeId kind hkind
    obtain ⟨-, rfl⟩ := Prod.mk.inj (List.mem_singleton.1 (Table.get?_eq_some_iff.1 hkind))
    rfl
  refine ⟨p, q, hp, hq, hprobed.1, hprobed.2, ?_⟩
  refine (hmirrors c.distinct_plain (plainTypes true) htypes
    (fun _ _ h => ⟨_, hkind h⟩) () (Registry.confirms_of_still ?_ ())).1 200
  intro typeId kind p h hp id w
  obtain rfl := Option.some.inj ((hkind h).symm.trans hp)
  rfl

end Compilation

end Provisioning
