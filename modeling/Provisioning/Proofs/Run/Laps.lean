/-
Two runs, lap by lap.

A check that has to wait leaves the memory as it is and is made again.  So what a run does
between two answers that count does not depend on how often it was told "not yet" in between.

Two registries differ in polls only if they answer every question alike, up to how often they
say "not yet" to a question whether something is complete.  Runs of one program against them
are compared lap by lap.  A lap is one instruction with all the times it had to wait: in both
runs the same instruction is carried out from the same memory, it holds the same talk, and the
first answer that is not "not yet" is the same, after `k` polls in the one run and after `k'` in
the other.  So both laps lead to the same memory, say the same but for the polls, and log the
same but for repetitions of the check.

Nothing of this depends on the program.
-/
import Provisioning.Proofs.Run.Conduct
import Provisioning.Proofs.Run.Outputs

namespace Provisioning

/-! ### Registries that differ in polls -/

/-- What a run can see of a registered type without asking its provider. -/
def Kind.face {W : Type} (k : Kind W) : Schema × Bool := (k.schema, k.provider.isSome)

namespace Registry

variable {W W' : Type} {types : Registry W} {types' : Registry W'} {R : W → W' → Prop}

/-- From one world the same is asked `k` times and answered with "not yet" each time, which
leads to another world. -/
inductive Denies (types : Registry W) (call : Call) (w : W) : Nat → W → Prop
  | none : Denies types call w 0 w
  | again {k : Nat} {v : W} : Denies types call w k v →
    call.request.notYet (types.answer call v).1 = true →
    Denies types call w (k + 1) (types.answer call v).2

/-- Two registries that differ only in how often they say "not yet" before they say something
else.  `R` tells which of their worlds are alike. -/
structure DifferInPolls (types : Registry W) (types' : Registry W') (R : W → W' → Prop) : Prop where
  /-- The same types are there, of the same shapes, and the same of them can be run. -/
  faces : ∀ typeId, (types.get? typeId).map Kind.face = (types'.get? typeId).map Kind.face
  /-- Whatever is no question for completion is answered alike. -/
  answers : ∀ w w' call, R w w' → call.request.awaits = false →
    (types'.answer call w').1 = (types.answer call w).1 ∧
      R (types.answer call w).2 (types'.answer call w').2
  /-- What is complete some time here is complete some time there. -/
  settles : ∀ w w' call k v, R w w' → call.request.awaits = true → types.Denies call w k v →
    call.request.notYet (types.answer call v).1 = false →
      ∃ k' v', types'.Denies call w' k' v' ∧
        (types'.answer call v').1 = (types.answer call v).1 ∧
        R (types.answer call v).2 (types'.answer call v').2

theorem DifferInPolls.registered (h : types.DifferInPolls types' R) {typeId : String}
    (ht : typeId ∈ types.keys) : typeId ∈ types'.keys := by
  rw [← Table.contains_iff] at ht ⊢
  have hsome := congrArg Option.isSome (h.faces typeId)
  rw [Option.isSome_map, Option.isSome_map] at hsome
  exact hsome.symm.trans ht

/-- Of any request, the first answer that counts is the same. -/
theorem DifferInPolls.meets (h : types.DifferInPolls types' R) {w v : W} {w' : W'} {call : Call}
    {k : Nat} (hw : R w w') (hdenies : types.Denies call w k v)
    (hv : call.request.notYet (types.answer call v).1 = false) :
    ∃ k' v', types'.Denies call w' k' v' ∧
      (types'.answer call v').1 = (types.answer call v).1 ∧
      R (types.answer call v).2 (types'.answer call v').2 := by
  cases hawaits : call.request.awaits with
  | true => exact h.settles w w' call k v hw hawaits hdenies hv
  | false =>
    cases hdenies with
    | none => exact ⟨0, w', .none, h.answers w w' call hw hawaits⟩
    | again _ hnotYet =>
      rw [Request.notYet_of_not_awaits hawaits] at hnotYet
      cases hnotYet

end Registry

/-! ### The same talks -/

section

variable {W W' : Type}

theorem Talk.need_congr {α β : Type} {x : Except Fault α} {y : Except Fault β}
    {f : α → Talk Upshot} {g : β → Talk Upshot} (h : FailAlike x y)
    (hnext : ∀ a b, x = .ok a → y = .ok b → f a = g b) : need x f = need y g := by
  cases x with
  | error e =>
    rw [(h e).1 rfl]
    rfl
  | ok a =>
    cases y with
    | error e => exact absurd ((h e).2 rfl) nofun
    | ok b => exact hnext a b rfl rfl

namespace Staged

variable {op : ResourceOp} {name typeId : String} {schema : Schema} {q : Option (Provider W)}
  {q' : Option (Provider W')}

/-- Either both can be run, or both cannot and for the same reason. -/
theorem provider_failAlike (op : ResourceOp) (name typeId : String) (schema : Schema)
    (h : q'.isSome = q.isSome) :
    FailAlike (Staged.mk op name typeId ⟨schema, q'⟩).provider
      (Staged.mk op name typeId ⟨schema, q⟩).provider := by
  cases q with
  | none =>
    cases q' with
    | none => exact .error _
    | some => cases h
  | some =>
    cases q' with
    | none => cases h
    | some => exact fun _ => ⟨nofun, nofun⟩

theorem prepareCreate_failAlike (h : q'.isSome = q.isSome) (m : Memory) :
    FailAlike ((Staged.mk op name typeId ⟨schema, q'⟩).prepareCreate m)
      ((Staged.mk op name typeId ⟨schema, q⟩).prepareCreate m) := by
  have hprovider := provider_failAlike op name typeId schema h
  unfold prepareCreate
  cases m.requireObject op.name "properties" with
  | error f => exact .error f
  | ok properties =>
    show FailAlike
      (if schema.needsRemoteId && (m.remoteId name).isSome then _ else _)
      (if schema.needsRemoteId && (m.remoteId name).isSome then _ else _)
    split
    · exact .error _
    · exact hprovider.map _ _

theorem request_eq (id : Option Json) (r : Request) (written : List Write)
    (next : r.Answer → Talk Upshot) :
    (Staged.mk op name typeId ⟨schema, q'⟩).request id r written next =
      (Staged.mk op name typeId ⟨schema, q⟩).request id r written next := by
  unfold request
  congr 1
  funext a
  cases a <;> rfl

/-- **Before it asks, an operation says the same.** -/
theorem talk_eq (h : q'.isSome = q.isSome) (rom : Rom) (m : Memory) :
    (Staged.mk op name typeId ⟨schema, q'⟩).talk rom m =
      (Staged.mk op name typeId ⟨schema, q⟩).talk rom m := by
  have hprovider := provider_failAlike op name typeId schema h
  have hrequest := @request_eq W W' op name typeId schema q q'
  have houtputs : (Staged.mk op name typeId ⟨schema, q'⟩).talkOutputs m =
      (Staged.mk op name typeId ⟨schema, q⟩).talkOutputs m := hrequest _ _ _ _
  have hsend : ∀ properties, (Staged.mk op name typeId ⟨schema, q'⟩).talkSend properties m =
      (Staged.mk op name typeId ⟨schema, q⟩).talkSend properties m := fun _ => hrequest _ _ _ _
  cases op with
  | create =>
    refine Talk.need_congr (prepareCreate_failAlike h m) fun prepared prepared' hok hok' => ?_
    have hfields := (prepareCreate_eq_ok hok).1
    have hfields' := (prepareCreate_eq_ok hok').1
    have hsame : prepared.1 = prepared'.1 := Except.ok.inj (hfields.symm.trans hfields')
    rw [hsame, hrequest]
  | read =>
    refine Talk.need_congr hprovider fun _ _ _ _ => ?_
    simp only [hrequest]
  | update =>
    refine Talk.need_congr (.refl _) fun properties properties' hok hok' => ?_
    obtain rfl : properties = properties' := Except.ok.inj (hok.symm.trans hok')
    refine Talk.need_congr hprovider fun _ _ _ _ => ?_
    simp only [hrequest, hsend]
  | delete =>
    exact Talk.need_congr hprovider fun _ _ _ _ => hrequest _ _ _ _
  | checkCreate | checkUpdate =>
    refine Talk.need_congr hprovider fun _ _ _ _ => ?_
    simp only [hrequest, houtputs]
  | checkDelete =>
    exact Talk.need_congr hprovider fun _ _ _ _ => hrequest _ _ _ _
  | checkExist =>
    show (if schema.needsRemoteId then _ else _) = (if schema.needsRemoteId then _ else _)
    split
    · exact Talk.need_congr hprovider fun _ _ _ _ => hrequest _ _ _ _
    · rfl
  | markDeletable | filter | rescmp => rfl

end Staged

variable {types : Registry W} {types' : Registry W'}

theorem Instruction.talk_eq
    (h : ∀ typeId, (types.get? typeId).map Kind.face = (types'.get? typeId).map Kind.face)
    (rom : Rom) (i : Instruction) (m : Memory) : i.talk rom types' m = i.talk rom types m := by
  have hsay : i.say rom types' m = i.say rom types m := by
    cases i with
    | resource op =>
      rw [say, say]
      unfold Staged.ofMemory Registry.resolve
      cases m.requireStr op.name "resource_name" with
      | error f => rfl
      | ok name =>
        cases m.requireStr op.name "resource_desc" with
        | error f => rfl
        | ok typeId =>
          have hface := h typeId
          simp only [bind, Except.bind]
          cases hkind : types.get? typeId with
          | none =>
            rw [hkind, Option.map_none, eq_comm, Option.map_eq_none_iff] at hface
            rw [hface]
            rfl
          | some kind =>
            rw [hkind, Option.map_some, eq_comm, Option.map_eq_some_iff] at hface
            obtain ⟨kind', hkind', hface⟩ := hface
            rw [hkind']
            obtain ⟨schema, q⟩ := kind
            obtain ⟨schema', q'⟩ := kind'
            obtain ⟨hschema, hsome⟩ := Prod.mk.inj hface
            obtain rfl : schema' = schema := hschema
            exact Staged.talk_eq hsome rom m
    | _ => rfl
  unfold talk
  rw [hsay]

end

/-! ### Repeated checks in a log -/

theorem getLast?_mergePolls_concat (os : List Operation) (o : Operation) :
    (mergePolls (os ++ [o])).getLast? = some o := by
  rw [mergePolls_concat]
  split
  · next h => exact h.1
  · exact List.getLast?_concat

/-- A check that is repeated at once leaves no trace. -/
theorem mergePolls_repeat (os : List Operation) {o : Operation} (h : o.isCheck = true) :
    mergePolls (os ++ [o] ++ [o]) = mergePolls (os ++ [o]) := by
  rw [mergePolls_concat (os ++ [o]), if_pos ⟨getLast?_mergePolls_concat os o, h⟩]

theorem mergePolls_logged {os os' : List Operation} (h : mergePolls os' = mergePolls os)
    (i : Instruction) (m : Memory) :
    mergePolls (os' ++ Run.logged i m) = mergePolls (os ++ Run.logged i m) := by
  cases i with
  | resource op => rw [Run.logged_resource, mergePolls_concat, mergePolls_concat, h]
  | _ => simpa [Run.logged] using h

/-! ### Steps that stay -/

namespace Run

section

variable {W : Type} {p : Program} {types : Registry W} {r : Run W} {i : Instruction}

theorem inner_of_stay {m : Memory} {w : W} (h : (execute p types i m w).flow = .ok .stay) :
    i.inner = true := by
  obtain ⟨op, rfl⟩ := op_of_stay h
  rfl

theorem memory_execute_of_stay {m : Memory} {w : W}
    (h : (execute p types i m w).flow = .ok .stay) : (execute p types i m w).memory = m := by
  have hinner := inner_of_stay h
  rw [execute_eq_hold types hinner] at h ⊢
  rcases (i.regular_talk p.tables.rom types m).ends types w with ⟨hstay, -⟩ | ⟨hfirm, -⟩
  · simp only [hstay, Memory.applyAll_nil]
  · exact absurd (Upshot.stay_of_flow h) hfirm.moves

/-- **A step that stays leaves the memory as it was, and is logged as a check.** -/
theorem step_of_stay (hrunning : r.ended p = false)
    (hi : p.instructions[r.memory.programCounter]? = some i)
    (h : (execute p types i r.memory r.world).flow = .ok .stay) :
    (r.step p types).memory = r.memory ∧ ∃ o, logged i r.memory = [o] ∧
      (r.step p types).log = r.log ++ [o] ∧ o.isCheck = true := by
  obtain ⟨op, rfl⟩ := op_of_stay h
  have hstep : r.step p types = _ := step_of_instruction hrunning hi
  constructor
  · rw [hstep, settle, h]
    exact memory_execute_of_stay h
  refine ⟨op.record (stagedName r.memory), logged_resource op r.memory, ?_, ?_⟩
  · rw [hstep, log_settle, logged_resource]
  unfold execute at h
  split at h
  · cases h
  · rw [perform] at h
    split at h
    · cases h
    · next s hs =>
      have hop := (Staged.ofMemory_eq_ok.1 hs).1
      have hwaits := ((s.behaves_perform p.tables.rom r.memory r.world).stay h).1
      exact isCheck_of_waits (hop ▸ hwaits) _

/-! ### Laps -/

/-- The exchanges of a run without the polls. -/
def heard (p : Program) (types : Registry W) (r : Run W) (n : Nat) : List (String × Exchange) :=
  (spoken p types r n).filter fun e => !e.2.notYet

theorem heard_succ (p : Program) (types : Registry W) (r : Run W) (n : Nat) :
    heard p types r (n + 1) = heard p types r n ++
      ((exchanges p types (steps p types n r)).filter fun e => !e.notYet).map
        (stagedName (steps p types n r).memory, ·) := by
  unfold heard
  rw [spoken, List.filter_append, List.filter_map]
  rfl

theorem heard_add (p : Program) (types : Registry W) (r : Run W) (n k : Nat) :
    heard p types r (n + k) = heard p types r n ++ heard p types (steps p types n r) k := by
  unfold heard
  rw [spoken_add, List.filter_append]

/-- While an instruction waits, nothing happens but that it is logged and the world goes on. -/
structure Waited (p : Program) (types : Registry W) (r : Run W) (i : Instruction) (k : Nat)
    (v : W) : Prop where
  memory : (steps p types k r).memory = r.memory
  world : (steps p types k r).world = v
  log : mergePolls ((steps p types k r).log ++ logged i r.memory) =
    mergePolls (r.log ++ logged i r.memory)
  heard : heard p types r k = []

variable {call : Call} {next : Except String call.request.Answer → Talk Upshot}

/-- An instruction whose first request is denied waits as often as it is. -/
theorem waited_of_denies (hrunning : r.ended p = false)
    (hi : p.instructions[r.memory.programCounter]? = some i) (hinner : i.inner = true)
    (htalk : i.talk p.tables.rom types r.memory = .ask call next) {k : Nat} {v : W}
    (h : types.Denies call r.world k v) : Waited p types r i k v := by
  induction h with
  | none => exact ⟨rfl, rfl, rfl, rfl⟩
  | @again k v hdenies hnotYet ih =>
    have hrunning' := (ended_congr ih.memory).trans hrunning
    have hi' := hi
    rw [← ih.memory] at hi' htalk
    have hregular := i.regular_talk p.tables.rom types (steps p types k r).memory
    rw [htalk] at hregular
    have hstay := hregular (types.answer call v).1
    rw [if_pos hnotYet] at hstay
    have hheld : (i.talk p.tables.rom types (steps p types k r).memory).hold types
        (steps p types k r).world =
          ⟨⟨.ok .stay, []⟩, [call.answered (types.answer call v).1], (types.answer call v).2⟩ := by
      rw [htalk, ih.world, Talk.hold, hstay]
      rfl
    obtain ⟨hstep, hsaid⟩ := step_of_talk types hrunning' hi' hinner
    have hflow : (execute p types i (steps p types k r).memory (steps p types k r).world).flow =
        .ok .stay := by
      rw [execute_eq_hold types hinner, hheld]
      rfl
    obtain ⟨hmemory, o, hlogged, hlog, hcheck⟩ := step_of_stay hrunning' hi' hflow
    rw [ih.memory] at hlogged
    rw [hheld] at hstep hsaid
    constructor
    · rw [steps_succ, hmemory, ih.memory]
    · rw [steps_succ, hstep]
      rfl
    · rw [steps_succ, hlog, hlogged, mergePolls_repeat _ hcheck, ← hlogged]
      exact ih.log
    · have hpoll : (call.answered (types.answer call v).1).notYet = true := hnotYet
      rw [heard_succ, ih.heard, hsaid]
      simp [hpoll]

theorem exists_denies (hrunning : r.ended p = false)
    (hi : p.instructions[r.memory.programCounter]? = some i) (hinner : i.inner = true)
    (htalk : i.talk p.tables.rom types r.memory = .ask call next) {N : Nat}
    (hended : (steps p types N r).ended p = true) :
    ∃ k < N, ∃ v, types.Denies call r.world k v ∧
      call.request.notYet (types.answer call v).1 = false := by
  by_contra hnever
  -- Otherwise the instruction would still be waiting at the end.
  have hdenied : ∀ k ≤ N, ∃ v, types.Denies call r.world k v := by
    intro k hk
    induction k with
    | zero => exact ⟨_, .none⟩
    | succ k ih =>
      obtain ⟨v, hv⟩ := ih (by omega)
      cases hanswer : call.request.notYet (types.answer call v).1 with
      | true => exact ⟨_, .again hv hanswer⟩
      | false => exact absurd ⟨k, by omega, v, hv, hanswer⟩ hnever
  obtain ⟨v, hv⟩ := hdenied N (Nat.le_refl N)
  rw [ended_congr (waited_of_denies hrunning hi hinner htalk hv).memory, hrunning] at hended
  cases hended

end

section

variable {W W' : Type} {types : Registry W} {types' : Registry W'} {R : W → W' → Prop}

/-- Behind the first answer the same is said, for there are no more polls. -/
theorem hold_of_closes (hdiffer : types.DifferInPolls types' R) {t : Talk Upshot} (h : t.Closes)
    {w : W} {w' : W'} (hw : R w w') :
    (t.hold types' w').result = (t.hold types w).result ∧
      (t.hold types' w').said = (t.hold types w).said ∧
      R (t.hold types w).world (t.hold types' w').world := by
  induction t generalizing w w' with
  | done u => exact ⟨rfl, rfl, hw⟩
  | ask call next ih =>
    obtain ⟨hanswer, hworld⟩ := hdiffer.answers w w' call hw h.1
    obtain ⟨hresult, hsaid, hworlds⟩ := ih (types.answer call w).1 (h.2 _) hworld
    rw [Talk.hold, Talk.hold]
    simp only [hanswer]
    exact ⟨hresult, by rw [hsaid], hworlds⟩

variable {p : Program} {r : Run W} {r' : Run W'}

/-- Some steps of two runs are the same but for polls. -/
structure SameButPolls (p : Program) (types : Registry W) (types' : Registry W')
    (R : W → W' → Prop) (r : Run W) (r' : Run W') (n n' : Nat) : Prop where
  memory : (steps p types' n' r').memory = (steps p types n r).memory
  world : R (steps p types n r).world (steps p types' n' r').world
  log : mergePolls (steps p types' n' r').log = mergePolls (steps p types n r).log
  heard : heard p types' r' n' = heard p types r n

theorem SameButPolls.behind {n n' k k' : Nat}
    (hheard : Run.heard p types' r' n' = Run.heard p types r n)
    (hmore : SameButPolls p types types' R (steps p types n r) (steps p types' n' r') k k') :
    SameButPolls p types types' R r r' (n + k) (n' + k') where
  memory := by
    rw [steps_add, steps_add]
    exact hmore.memory
  world := by
    rw [steps_add, steps_add]
    exact hmore.world
  log := by
    rw [steps_add, steps_add]
    exact hmore.log
  heard := by rw [heard_add, heard_add, hheard, hmore.heard]

theorem SameButPolls.step {i : Instruction} (hmemory : r'.memory = r.memory)
    (hrunning : r.ended p = false) (hi : p.instructions[r.memory.programCounter]? = some i)
    (hlog : mergePolls (r'.log ++ logged i r.memory) = mergePolls (r.log ++ logged i r.memory))
    (hflow : (execute p types' i r.memory r'.world).flow =
      (execute p types i r.memory r.world).flow)
    (hafter : (execute p types' i r.memory r'.world).memory =
      (execute p types i r.memory r.world).memory)
    (hworld : R (execute p types i r.memory r.world).world
      (execute p types' i r.memory r'.world).world)
    (hsaid : exchanges p types' r' = exchanges p types r) :
    SameButPolls p types types' R r r' 1 1 := by
  have hrunning' : r'.ended p = false := (ended_congr hmemory).trans hrunning
  have hi' := hi
  rw [← hmemory] at hi'
  have hstep : r.step p types = _ := step_of_instruction hrunning hi
  have hstep' : r'.step p types' = _ := step_of_instruction hrunning' hi'
  rw [hmemory] at hstep'
  generalize execute p types i r.memory r.world = o at *
  generalize execute p types' i r.memory r'.world = o' at *
  have hone : steps p types 1 r = r.step p types := steps_succ 0 r
  have hone' : steps p types' 1 r' = r'.step p types' := steps_succ 0 r'
  obtain ⟨flow, m, w⟩ := o
  obtain ⟨flow', m', w'⟩ := o'
  dsimp only at hflow hafter hworld
  subst hflow hafter
  constructor
  · rw [hone, hone', hstep, hstep']
    rcases flow' with f | _ | a | _ <;> rfl
  · rw [hone, hone', hstep, hstep']
    rcases flow' with f | _ | a | _ <;> exact hworld
  · rw [hone, hone', hstep, hstep', log_settle, log_settle]
    exact hlog
  · rw [heard_succ, heard_succ]
    show [] ++ _ = [] ++ _
    simp only [steps, hsaid, hmemory]

theorem SameButPolls.talk {i : Instruction} (hmemory : r'.memory = r.memory)
    (hrunning : r.ended p = false) (hi : p.instructions[r.memory.programCounter]? = some i)
    (hinner : i.inner = true)
    (htalk : i.talk p.tables.rom types' r.memory = i.talk p.tables.rom types r.memory)
    (hlog : mergePolls (r'.log ++ logged i r.memory) = mergePolls (r.log ++ logged i r.memory))
    (hresult : ((i.talk p.tables.rom types r.memory).hold types' r'.world).result =
      ((i.talk p.tables.rom types r.memory).hold types r.world).result)
    (hsaid : ((i.talk p.tables.rom types r.memory).hold types' r'.world).said =
      ((i.talk p.tables.rom types r.memory).hold types r.world).said)
    (hworld : R ((i.talk p.tables.rom types r.memory).hold types r.world).world
      ((i.talk p.tables.rom types r.memory).hold types' r'.world).world) :
    SameButPolls p types types' R r r' 1 1 := by
  have hrunning' : r'.ended p = false := (ended_congr hmemory).trans hrunning
  have hi' := hi
  rw [← hmemory] at hi'
  have hexchanges := (step_of_talk types hrunning hi hinner).2
  have hexchanges' := (step_of_talk types' hrunning' hi' hinner).2
  rw [hmemory, htalk] at hexchanges'
  refine .step hmemory hrunning hi hlog ?_ ?_ ?_ ?_
  · rw [execute_eq_hold types hinner, execute_eq_hold types' hinner, htalk]
    simp only [hresult]
  · rw [execute_eq_hold types hinner, execute_eq_hold types' hinner, htalk]
    simp only [hresult]
  · rw [execute_eq_hold types hinner, execute_eq_hold types' hinner, htalk]
    exact hworld
  · rw [hexchanges, hexchanges', hsaid]

/-- An instruction that is denied `k` times against one registry, and as often as may be
against the other, comes to the same in both. -/
theorem SameButPolls.answered {i : Instruction} {call : Call}
    {next : Except String call.request.Answer → Talk Upshot}
    (hdiffer : types.DifferInPolls types' R) (h : SameButPolls p types types' R r r' 0 0)
    (hrunning : r.ended p = false) (hi : p.instructions[r.memory.programCounter]? = some i)
    (hinner : i.inner = true) (htalk : i.talk p.tables.rom types r.memory = .ask call next)
    {k : Nat} {v : W} (hdenies : types.Denies call r.world k v)
    (hv : call.request.notYet (types.answer call v).1 = false) :
    ∃ k', SameButPolls p types types' R r r' (k + 1) (k' + 1) := by
  have hmemory : r'.memory = r.memory := h.memory
  have hlog : mergePolls r'.log = mergePolls r.log := h.log
  obtain ⟨k', v', hdenies', hanswer, hafter⟩ := hdiffer.meets h.world hdenies hv
  have hsame := i.talk_eq hdiffer.faces p.tables.rom r.memory
  have hcloses : (next (types.answer call v).1).Closes := by
    have hregular := i.regular_talk p.tables.rom types r.memory
    rw [htalk] at hregular
    have hnext := hregular (types.answer call v).1
    rwa [hv] at hnext
  obtain ⟨hresult, hsaid, hworlds⟩ := hold_of_closes hdiffer hcloses hafter
  -- Both runs have waited, and stand where they stood.
  have hwaited := waited_of_denies hrunning hi hinner htalk hdenies
  have hwaited' : Waited p types' r' i k' v' := by
    have htalk' : i.talk p.tables.rom types' r'.memory = .ask call next := by
      rw [hmemory, hsame, htalk]
    refine waited_of_denies ((ended_congr hmemory).trans hrunning) ?_ hinner htalk' hdenies'
    rw [hmemory]
    exact hi
  have hstands := hwaited.memory
  have hstands' := hwaited'.memory
  have hmerged' := hwaited'.log
  rw [hmemory] at hstands' hmerged'
  have hrunning₁ := (ended_congr hstands).trans hrunning
  refine ⟨k', .behind (by rw [hwaited.heard, hwaited'.heard]) ?_⟩
  refine .talk (hstands'.trans hstands.symm) hrunning₁ (by rw [hstands]; exact hi) hinner
    (by rw [hstands]; exact hsame) ?_ ?_ ?_ ?_
  · rw [hstands, hmerged', mergePolls_logged hlog, hwaited.log]
  · rw [hstands, htalk, hwaited.world, hwaited'.world, Talk.hold, Talk.hold]
    simp only [hanswer]
    exact hresult
  · rw [hstands, htalk, hwaited.world, hwaited'.world, Talk.hold, Talk.hold]
    simp only [hanswer, hsaid]
  · rw [hstands, htalk, hwaited.world, hwaited'.world, Talk.hold, Talk.hold]
    simp only [hanswer]
    exact hworlds

/-- **The lap of an instruction, with all the times it waits, is the same but for polls.** -/
theorem SameButPolls.lap (hdiffer : types.DifferInPolls types' R)
    (h : SameButPolls p types types' R r r' 0 0) (hrunning : r.ended p = false) {N : Nat}
    (hended : (steps p types N r).ended p = true) :
    ∃ k < N, ∃ k', SameButPolls p types types' R r r' (k + 1) (k' + 1) := by
  have hmemory : r'.memory = r.memory := h.memory
  have hworld : R r.world r'.world := h.world
  have hmerged : mergePolls r'.log = mergePolls r.log := h.log
  have hpos : 0 < N := by
    rcases Nat.eq_zero_or_pos N with rfl | hpos
    · exact absurd (hrunning.symm.trans hended) nofun
    · exact hpos
  obtain ⟨i, hi⟩ := exists_instruction hrunning
  have hlog := mergePolls_logged hmerged i r.memory
  cases hinner : i.inner with
  | false =>
    have hsilent := i.isResourceOp_of_not_inner hinner
    have hrunning' : r'.ended p = false := (ended_congr hmemory).trans hrunning
    have hi' := hi
    rw [← hmemory] at hi'
    have hexecute := execute_silent (p := p) (m := r.memory) types types' hsilent r.world r'.world
    refine ⟨0, hpos, 0, .step hmemory hrunning hi hlog ?_ ?_ ?_ ?_⟩
    · rw [hexecute]
    · rw [hexecute]
    · rw [world_execute hsilent, world_execute hsilent]
      exact hworld
    · rw [exchanges_of_silent hrunning hi hsilent, exchanges_of_silent hrunning' hi' hsilent]
  | true =>
    cases htalk : i.talk p.tables.rom types r.memory with
    | done u =>
      have hsame := i.talk_eq hdiffer.faces p.tables.rom r.memory
      refine ⟨0, hpos, 0, .talk hmemory hrunning hi hinner hsame hlog ?_ ?_ ?_⟩
      · rw [htalk]
        rfl
      · rw [htalk]
        rfl
      · rw [htalk]
        exact hworld
    | ask call next =>
      obtain ⟨k, hk, v, hdenies, hv⟩ := exists_denies hrunning hi hinner htalk hended
      exact ⟨k, hk, h.answered hdiffer hrunning hi hinner htalk hdenies hv⟩

/-- **What ends against one registry ends against the other, and both have done the same but
for polls.**  The induction is on the steps that are left to the first run; a lap takes at least
one of them. -/
theorem SameButPolls.run (hdiffer : types.DifferInPolls types' R)
    (h : SameButPolls p types types' R r r' 0 0) {N : Nat}
    (hended : (steps p types N r).ended p = true) :
    ∃ N', (steps p types' N' r').ended p = true ∧ SameButPolls p types types' R r r' N N' := by
  induction N using Nat.strong_induction_on generalizing r r' with
  | _ N ih =>
    cases hrunning : r.ended p with
    | true =>
      refine ⟨0, (ended_congr h.memory).trans hrunning, ?_⟩
      · have hstays : steps p types N r = r := steps_of_ended hrunning N
        have hsilent : Run.heard p types r N = [] := by
          unfold Run.heard
          rw [spoken_of_ended_le (n := 0) hrunning (Nat.zero_le N)]
          rfl
        exact ⟨by rw [hstays]; exact h.memory, by rw [hstays]; exact h.world,
          by rw [hstays]; exact h.log, by rw [hsilent]; rfl⟩
    | false =>
      obtain ⟨k, hk, k', hlap⟩ := h.lap hdiffer hrunning hended
      obtain ⟨rest, rfl⟩ := Nat.exists_eq_add_of_lt hk
      rw [show k + rest + 1 = k + 1 + rest by omega] at hended ⊢
      rw [steps_add] at hended
      obtain ⟨N', hended', hrest⟩ := ih rest (by omega)
        ⟨hlap.memory, hlap.world, hlap.log, rfl⟩ hended
      refine ⟨k' + 1 + N', ?_, .behind hlap.heard hrest⟩
      rw [steps_add]
      exact hended'

end

/-- Where two runs have ended, it does not matter how long ago. -/
theorem SameButPolls.of_ended {W W' : Type} {p : Program} {types : Registry W}
    {types' : Registry W'} {R : W → W' → Prop} {r : Run W} {r' : Run W'} {n n' N' : Nat}
    (h : SameButPolls p types types' R r r' n N')
    (hended : (steps p types' N' r').ended p = true)
    (hended' : (steps p types' n' r').ended p = true) :
    SameButPolls p types types' R r r' n n' := by
  have hsame : steps p types' n' r' = steps p types' N' r' ∧
      Run.heard p types' r' n' = Run.heard p types' r' N' := by
    unfold Run.heard
    rcases Nat.le_total N' n' with hle | hle
    · rw [steps_of_ended_le hended hle, spoken_of_ended_le hended hle]
      exact ⟨rfl, rfl⟩
    · rw [steps_of_ended_le hended' hle, spoken_of_ended_le hended' hle]
      exact ⟨rfl, rfl⟩
  obtain ⟨hsteps, hheard⟩ := hsame
  exact ⟨by rw [hsteps]; exact h.memory, by rw [hsteps]; exact h.world,
    by rw [hsteps]; exact h.log, by rw [hheard]; exact h.heard⟩

end Run

end Provisioning
