/-
Whose outputs are known.

Only reading and the two checks store outputs, and they store them under the name of a resource
that is created or updated.  Nothing is asked of names for that.  In a body without branches it
is seen from the work of its phase.  The body of an update has branches, but it reads before all
of them: what was read is compared next, and that needs to be undecided, so nothing can have been
excluded by then.

What is tracked and no longer declared is only deleted.  So in no state of a run outputs of it
are known.
-/
import Provisioning.Proofs.Run.Footing

namespace Provisioning

/-! ### Storing outputs -/

/-- Whether the operation may store outputs. -/
def ResourceOp.stores : ResourceOp → Bool
  | .read | .checkCreate | .checkUpdate => true
  | _ => false

section

variable {W : Type} {p : Program} {types : Registry W} {m : Memory} {w : W} {i : Instruction}

theorem outputs_bindStaged {v : Json} : (bindStaged v m w).memory.outputs = m.outputs := by
  unfold bindStaged takeStagedKey
  cases m.temp.get? Memory.stagedKey with
  | none => rfl
  | some key => cases key <;> rfl

/-- What neither loads nor writes tables and is no operation leaves outputs as they are. -/
theorem outputs_execute (hinit : i ≠ .init) (hwrite : ∀ v, i ≠ .memwrite v)
    (hop : i.isResourceOp = false) : (execute p types i m w).memory.outputs = m.outputs := by
  unfold execute
  split
  · rfl
  · cases i with
    | init => exact absurd rfl hinit
    | memwrite v => exact absurd rfl (hwrite v)
    | resource op => cases hop
    | halt | clear | key | compare => rfl
    | value v => exact outputs_bindStaged
    | ret | invert | valueUpdate | assert | call =>
      rw [perform]
      split <;> first | rfl | (split <;> rfl)
    | valueRom address =>
      rw [perform]
      split
      · rfl
      · exact outputs_bindStaged
    | gotoIf target =>
      rw [perform]
      split
      · rfl
      · split
        · rfl
        · split <;> rfl

theorem Staged.outputs_perform (s : Staged W) (rom : Rom) :
    ∀ n ∈ (s.perform rom m w).memory.outputs.keys,
      n ∈ m.outputs.keys ∨ (n = s.name ∧ s.op.stores = true) := by
  have hends := s.behaves_perform rom m w
  generalize s.perform rom m w = o at hends
  intro n hn
  cases hflow : o.flow with
  | error f =>
    obtain ⟨-, temp, hmemory⟩ := hends.fault f hflow
    rw [hmemory] at hn
    exact .inl hn
  | ok flow =>
    cases flow with
    | jump i => exact (hends.jump i hflow).1.elim
    | stay =>
      rw [(hends.stay hflow).2] at hn
      exact .inl hn
    | next =>
      have hdone := hends.next hflow
      unfold Done at hdone
      cases hop : s.op with
      | read =>
        rw [hop] at hdone
        obtain ⟨current, outputs, hmemory, hsame | ⟨fields, hinsert⟩⟩ := hdone
        · rw [hmemory, hsame] at hn
          exact .inl hn
        · rw [hmemory, hinsert] at hn
          exact (Entries.mem_keys_set.1 hn).imp id fun h => ⟨h, rfl⟩
      | checkCreate | checkUpdate =>
        rw [hop] at hdone
        obtain ⟨fields, hmemory⟩ := hdone
        rw [hmemory] at hn
        exact (Entries.mem_keys_set.1 hn).imp id fun h => ⟨h, rfl⟩
      | checkDelete =>
        rw [hop] at hdone
        rw [hdone] at hn
        exact .inl ((Entries.keys_erase_sublist _ _).subset hn)
      | update | delete =>
        rw [hop] at hdone
        rw [hdone] at hn
        exact .inl hn
      | create | checkExist | markDeletable | filter =>
        rw [hop] at hdone
        obtain ⟨_, hmemory⟩ := hdone
        rw [hmemory] at hn
        exact .inl hn
      | rescmp =>
        rw [hop] at hdone
        obtain ⟨_, -, hmemory⟩ := hdone
        rw [hmemory] at hn
        exact .inl hn

end

/-! ### Whose outputs are stored -/

namespace Resource

variable {r : Resource} {createMissing : Bool} {routine : Routine} {K K' : Known}
  {rest : List Instruction} {op : ResourceOp} {name : String}

/-- In the work of a phase, outputs are stored for the resource itself, and only if it is
wanted. -/
theorem own_of_stores {action : Action} {phase : Phase} {d : Option Decision}
    (hop : op.stores = true) (h : op.record name ∈ r.work createMissing action phase d) :
    name = r.name ∧ action ≠ .delete := by
  cases op with
  | read | checkCreate | checkUpdate =>
    cases phase <;> cases action <;> rcases d with _ | _ | _ | _ | _ <;>
      cases createMissing <;> cases hlate : r.schema.deleteAtEnd <;>
      simp_all [work, did, didAside, probing, vacating, ResourceOp.record_inj]
  | _ => cases hop

/-- What an operation does belongs to the work of the phase. -/
theorem Checked.mem_work (hop : op ≠ .rescmp) (hdecided : K.decided ≠ [])
    (h : Checked r createMissing routine (K.did op name) rest) :
    ∃ d, op.record name ∈ r.work createMissing routine.action routine.phase d := by
  obtain ⟨v, hv⟩ := List.exists_mem_of_ne_nil _ hdecided
  rw [← decided_did hop K name] at hv
  obtain ⟨d, -, -, hbegins⟩ := h.begins v hv
  refine ⟨d, hbegins.subset ?_⟩
  rw [Known.records_did]
  exact List.mem_append_right _ List.mem_cons_self

theorem Checked.undecided
    (h : Checked r createMissing routine K (Emit.onResource r .rescmp ++ rest)) :
    K.decided = [none] := by
  rcases h with _ | ⟨h₁, h⟩
  rcases h with _ | ⟨h₂, h⟩
  rcases h with _ | ⟨h₃, h⟩
  rcases h with _ | ⟨h₄, h⟩
  rcases h with _ | ⟨h₅, h⟩
  cases h₁
  cases h₂
  cases h₃
  cases h₄
  cases h₅ with
  | operation _ _ _ _ _ hrescmp => exact (hrescmp rfl).2.2

theorem eq_of_read {before : List Instruction}
    (h : (r.piece createMissing routine).body = before ++ .resource .read :: rest) :
    ∃ rest', rest = Emit.onResource r .rescmp ++ rest' := by
  obtain rfl : routine = .update := update_of_looks (.inr (.inl rfl)) (by rw [h]; simp)
  have hbody : (r.piece createMissing .update).body =
      (.clear :: ((if createMissing then Emit.probe r else []) ++ Emit.load r.name r.typeId)) ++
        .resource .read :: (Emit.onResource r .rescmp ++ (Emit.branch r .recreate .recreate ++
          Emit.branch r .modify .modify ++ [.ret])) := by
    cases createMissing <;> rfl
  rw [hbody] at h
  refine ⟨_, ((List.append_cons_inj_of_notMem ?_ ?_).1 h).2.2.symm⟩
  · cases createMissing <;> simp [Emit.probe, Emit.onResource, Emit.load]
  · simp [Emit.onResource, Emit.load, Emit.branch]

end Resource

namespace Compilation

variable {plan : Plan} {W : Type} {c : Compilation plan} {types : Registry W} {r : Run W}
  {m : Memory} {ra : Resource × Action} {routine : Routine} {before rest : List Instruction}
  {K : Known}

theorem decided_of_stores {op : ResourceOp} (hop : op.stores = true)
    (h : c.InBody ra routine before (.resource op :: rest) K m) {K' : Known}
    (ht : ra.1.Typed plan.createMissing routine K (.resource op) K')
    (hchecked : ra.1.Checked plan.createMissing routine K' rest) : K.decided ≠ [] := by
  cases op with
  | read =>
    obtain ⟨rest', rfl⟩ := Resource.eq_of_read h.body
    cases ht
    have hnone : K.decided = [none] := hchecked.undecided
    rw [hnone]
    exact List.cons_ne_nil _ _
  | checkCreate =>
    refine h.decided (Resource.targets_of_check (r := ra.1) (.inl rfl) ?_)
    rw [h.body]
    exact List.mem_append_right _ List.mem_cons_self
  | checkUpdate =>
    refine h.decided (Resource.targets_of_check (r := ra.1) (.inr rfl) ?_)
    rw [h.body]
    exact List.mem_append_right _ List.mem_cons_self
  | _ => cases hop

theorem declared_of_stores {op : ResourceOp} (hop : op.stores = true)
    (h : c.InBody ra routine before (.resource op :: rest) K m) {K' : Known}
    (ht : ra.1.Typed plan.createMissing routine K (.resource op) K')
    (hchecked : ra.1.Checked plan.createMissing routine K' rest) {s : Staged W}
    (hs : Staged.ofMemory types op m = .ok s) :
    s.name ∈ plan.declaration.resources.keys := by
  have hdecided : K.decided ≠ [] := decided_of_stores hop h ht hchecked
  cases ht with
  | operation _ hname =>
    have hrescmp : op ≠ .rescmp := by
      rintro rfl
      cases hop
    obtain ⟨d, hd⟩ := hchecked.mem_work hrescmp hdecided
    obtain ⟨hown, haction⟩ := Resource.own_of_stores hop hd
    obtain ⟨-, hstaged, -, -⟩ := Staged.ofMemory_eq_ok.1 hs
    rw [h.spells.requireStr hname] at hstaged
    obtain ⟨step, hneeded⟩ := h.needed
    rw [Resource.action_of_mem hneeded] at haction
    rw [← Except.ok.inj hstaged, hown]
    exact Table.mem_keys_of_get? ((c.planned h.planned).declared haction)

/-- Outputs are known of declared resources only. -/
def Stocked (plan : Plan) (m : Memory) : Prop :=
  ∀ n ∈ m.outputs.keys, n ∈ plan.declaration.resources.keys

theorem outputs_settle (log : List Operation) (o : Outcome W) (pc : Nat) :
    (Run.settle log o pc).memory.outputs = o.memory.outputs := by
  unfold Run.settle
  split <;> rfl

/-- What a body writes into tables are identifiers and decisions, and only operations do more
than that. -/
theorem outputs_typed {i : Instruction}
    (h : c.InBody ra routine before (i :: rest) K m) {K' : Known}
    (ht : ra.1.Typed plan.createMissing routine K i K') (hop : i.isResourceOp = false) {w : W} :
    (execute c.program types i m w).memory.outputs = m.outputs := by
  cases ht with
  | operation => cases hop
  | forget _ _ htable hkey =>
    unfold execute
    split
    · rfl
    · rw [perform, Memory.writeStaged, h.spells.requireStr htable, h.spells.requireStr hkey]
      rfl
  | settle d htable hkey =>
    unfold execute
    split
    · rfl
    · rw [perform, Memory.writeStaged, h.spells.requireStr htable, h.spells.requireStr hkey]
      cases d <;> rfl
  | _ => exact outputs_execute (fun h => by cases h) (fun _ h => by cases h) rfl

theorem stocked_step_body (hstocked : Stocked plan r.memory)
    (hrunning : r.ended c.program = false)
    (hbody : c.InBody ra routine before rest K r.memory) :
    Stocked plan (r.step c.program types).memory := by
  intro n hn
  cases hbody.checked with
  | ret =>
    rw [Run.step_of_instruction hrunning (instruction_body hbody), outputs_settle,
      outputs_execute (fun h => by cases h) (fun _ h => by cases h) rfl] at hn
    exact hstocked n hn
  | @step _ K' i rest ht hrest =>
    rw [Run.step_of_instruction hrunning (instruction_body hbody), outputs_settle] at hn
    cases hi : i.isResourceOp with
    | false =>
      rw [outputs_typed hbody ht hi] at hn
      exact hstocked n hn
    | true =>
      cases i with
      | resource op =>
        unfold execute at hn
        split at hn
        · exact hstocked n hn
        · rw [perform] at hn
          split at hn
          · exact hstocked n hn
          · next s hs =>
            rcases s.outputs_perform _ n hn with hold | ⟨rfl, hop⟩
            · exact hstocked n hold
            · rw [(Staged.ofMemory_eq_ok.1 hs).1] at hop
              exact declared_of_stores hop hbody ht hrest hs
      | _ => cases hi

/-- **Every step stores outputs of declared resources only.** -/
theorem stocked_step (h : c.Footing r.memory) (hstocked : Stocked plan r.memory) :
    Stocked plan (r.step c.program types).memory := by
  by_cases hended : r.ended c.program = true
  · rw [Run.step_of_ended hended]
    exact hstocked
  · rw [Bool.not_eq_true] at hended
    cases h.located with
    | body hbody => exact stocked_step_body hstocked hended hbody
    | stopped hstopped =>
      rw [Run.ended, hstopped] at hended
      cases hended
    | driver hcounter hstack hdistinct =>
      obtain ⟨i, hi⟩ := exists_instruction_driver hcounter
      intro n hn
      rw [Run.step_of_instruction hended hi, outputs_settle] at hn
      rcases instruction_driver hcounter hi with rfl | rfl | ⟨label, rfl⟩
      · cases hn
      · rw [outputs_execute (fun h => by cases h) (fun _ h => by cases h) rfl] at hn
        exact hstocked n hn
      · rw [outputs_execute (fun h => by cases h) (fun _ h => by cases h) rfl] at hn
        exact hstocked n hn

/-- **In every state of a run only outputs of declared resources are known.** -/
theorem stocked_steps (c : Compilation plan) (types : Registry W) (w : W) (n : Nat) :
    Stocked plan (Run.steps c.program types n (Run.fresh w)).memory := by
  have hstep (r : Run W) (h : c.Footing r.memory ∧ Stocked plan r.memory) :
      c.Footing (r.step c.program types).memory ∧
        Stocked plan (r.step c.program types).memory :=
    ⟨footing_step h.1, stocked_step h.1 h.2⟩
  exact (Run.steps_induction hstep ⟨c.footing_fresh w, nofun⟩ n).2

end Compilation

end Provisioning
