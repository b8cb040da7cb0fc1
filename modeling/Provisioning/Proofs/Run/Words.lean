/-
All that is done to a resource.

Each phase has its work, which depends on what is decided about the resource, and the phases
come in their order.  So all that is done to a resource, from the first call to the last, is
one word, and at any time what was done begins it: the work of the phases that lie behind is
done in full, and what was done in the present phase begins the work of that phase.

A word has few letters.  `Letter` lists each operation of a word with what comes before it, so
that what is known where an operation comes next is read off by cases on the letter, and only
the cases of that operation are left.

While nothing is decided it is open which word it will be.  A routine that is typed then
still has a decision before it whose word goes on from what was done.
-/
import Provisioning.Proofs.Run.Calls

namespace Provisioning

/-- What stands last in a beginning of a list. -/
theorem concat_isPrefix_cons {α : Type} {l w : List α} {o a : α} :
    l ++ [o] <+: a :: w ↔ (l = [] ∧ o = a) ∨ ∃ l', l = a :: l' ∧ l' ++ [o] <+: w := by
  cases l with
  | nil => simp
  | cons b l => simp [List.cons_prefix_cons, and_assoc]

theorem concat_isPrefix_append {α : Type} {l l₁ l₂ : List α} {o : α} :
    l ++ [o] <+: l₁ ++ l₂ ↔ l ++ [o] <+: l₁ ∨ ∃ l', l = l₁ ++ l' ∧ l' ++ [o] <+: l₂ := by
  constructor
  · intro h
    rcases List.prefix_or_prefix_of_prefix h (List.prefix_append l₁ l₂) with hl | hl
    · exact .inl hl
    · rcases List.prefix_concat_iff.1 hl with rfl | ⟨l', rfl⟩
      · exact .inl List.prefix_rfl
      · rw [List.append_assoc, List.prefix_append_right_inj] at h
        exact .inr ⟨l', rfl, h⟩
  · rintro (h | ⟨l', rfl, h⟩)
    · exact h.trans (List.prefix_append l₁ l₂)
    · rw [List.append_assoc, List.prefix_append_right_inj]
      exact h

namespace Resource

/-! ### Words -/

/-- All that is done to a resource, in order, where `d` is decided. -/
def word (r : Resource) (createMissing : Bool) : Action → Option Decision → List Operation
  | .create, _ => [r.did .create, r.did .checkCreate]
  | .delete, _ => [r.did .delete, r.did .checkDelete]
  | .update, some .missing => r.probing createMissing ++ [r.did .create, r.did .checkCreate]
  | .update, some .recreate =>
    r.probing createMissing ++ [r.did .read, r.did .rescmp] ++
      if r.schema.deleteAtEnd then
        [r.did .markDeletable, r.did .create, r.did .checkCreate, r.didAside .delete,
          r.didAside .checkDelete]
      else [r.did .delete, r.did .checkDelete, r.did .create, r.did .checkCreate]
  | .update, some .modify =>
    r.probing createMissing ++ [r.did .read, r.did .rescmp, r.did .update, r.did .checkUpdate]
  | .update, _ => r.probing createMissing ++ [r.did .read, r.did .rescmp]

theorem flatMap_work (r : Resource) (createMissing : Bool) (action : Action)
    (d : Option Decision) :
    (Phase.all.flatMap fun phase => r.work createMissing action phase d) =
      r.word createMissing action d := by
  show r.work createMissing action .start d ++ (r.work createMissing action .check d ++
    (r.work createMissing action .commit d ++ (r.work createMissing action .finish d ++ []))) = _
  cases action with
  | create => rfl
  | delete => cases hlate : r.schema.deleteAtEnd <;> simp [work, word, hlate]
  | update =>
    rcases d with _ | _ | _ | _ | _ <;> cases hlate : r.schema.deleteAtEnd <;>
      simp [work, word, vacating, hlate]

theorem flatMap_isPrefix (r : Resource) (createMissing : Bool) (action : Action)
    (d : Option Decision) {phases : List Phase} (h : phases <+: Phase.all) :
    (phases.flatMap fun phase => r.work createMissing action phase d) <+:
      r.word createMissing action d := by
  obtain ⟨later, hlater⟩ := h
  rw [← flatMap_work, ← hlater, List.flatMap_append]
  exact List.prefix_append _ _

theorem nodup_word (r : Resource) (createMissing : Bool) (action : Action)
    (d : Option Decision) : (r.word createMissing action d).Nodup := by
  refine List.Nodup.of_map Operation.name ?_
  cases action with
  | create | delete => simp [word, did, ResourceOp.record, ResourceOp.word]
  | update =>
    rcases d with _ | _ | _ | _ | _ <;> cases createMissing <;>
      cases hlate : r.schema.deleteAtEnd <;>
      simp [word, probing, hlate, did, didAside, ResourceOp.record, ResourceOp.word]

/-! ### Verdicts -/

section

variable {α : Type} (r : Resource) (f : ResourceOp → α → α)

/-- The verdict on a resource after an entry of the log: an operation on the resource, under its
own name, changes it as `f` says. -/
def weigh (before : α) (o : Operation) : α :=
  match ResourceOp.all.find? fun op => o = r.did op with
  | some op => f op before
  | none => before

/-- The verdict on a resource once all this was done. -/
def verdict (start : α) (os : List Operation) : α := os.foldl (r.weigh f) start

theorem weigh_record (before : α) (op : ResourceOp) (name : String) :
    r.weigh f before (op.record name) = if name = r.name then f op before else before := by
  by_cases hname : name = r.name
  · cases op <;> simp [weigh, ResourceOp.all, did, ResourceOp.record_inj, hname]
  · simp [weigh, ResourceOp.all, did, ResourceOp.record_inj, hname]

theorem verdict_concat (start : α) (os : List Operation) (op : ResourceOp) (name : String) :
    r.verdict f start (os ++ [op.record name]) =
      if name = r.name then f op (r.verdict f start os) else r.verdict f start os := by
  rw [verdict, List.foldl_append]
  exact r.weigh_record f _ op name

end

/-! ### Letters -/

/-- Reading the object, once it was looked for, and comparing it. -/
def comparing (r : Resource) (createMissing : Bool) : List Operation :=
  r.probing createMissing ++ [r.did .read, r.did .rescmp]

/-- An operation of a word, and what comes before it. -/
inductive Letter (r : Resource) (createMissing : Bool) :
    Action → Option Decision → List Operation → ResourceOp → String → Prop
  | create {d : Option Decision} : Letter r createMissing .create d [] .create r.name
  | checkCreate {d : Option Decision} :
    Letter r createMissing .create d [r.did .create] .checkCreate r.name
  | delete {d : Option Decision} : Letter r createMissing .delete d [] .delete r.name
  | checkDelete {d : Option Decision} :
    Letter r createMissing .delete d [r.did .delete] .checkDelete r.name
  | probe {d : Option Decision} : createMissing = true →
    Letter r createMissing .update d [] .checkExist r.name
  | read {d : Option Decision} : d ≠ some .missing →
    Letter r createMissing .update d (r.probing createMissing) .read r.name
  | compare {d : Option Decision} : d ≠ some .missing →
    Letter r createMissing .update d (r.probing createMissing ++ [r.did .read]) .rescmp r.name
  | createMissing :
    Letter r createMissing .update (some .missing) (r.probing createMissing) .create r.name
  | checkMissing :
    Letter r createMissing .update (some .missing) (r.probing createMissing ++ [r.did .create])
      .checkCreate r.name
  | modify :
    Letter r createMissing .update (some .modify) (r.comparing createMissing) .update r.name
  | checkModify :
    Letter r createMissing .update (some .modify) (r.comparing createMissing ++ [r.did .update])
      .checkUpdate r.name
  | putAside : r.schema.deleteAtEnd = true →
    Letter r createMissing .update (some .recreate) (r.comparing createMissing)
      .markDeletable r.name
  | deleteOld : r.schema.deleteAtEnd = false →
    Letter r createMissing .update (some .recreate) (r.comparing createMissing) .delete r.name
  | checkOld : r.schema.deleteAtEnd = false →
    Letter r createMissing .update (some .recreate)
      (r.comparing createMissing ++ [r.did .delete]) .checkDelete r.name
  | replace :
    Letter r createMissing .update (some .recreate) (r.comparing createMissing ++ r.vacating)
      .create r.name
  | checkReplaced :
    Letter r createMissing .update (some .recreate)
      (r.comparing createMissing ++ r.vacating ++ [r.did .create]) .checkCreate r.name
  | deleteAside : r.schema.deleteAtEnd = true →
    Letter r createMissing .update (some .recreate)
      (r.comparing createMissing ++ r.vacating ++ [r.did .create, r.did .checkCreate])
      .delete (deletable r.name)
  | checkAside : r.schema.deleteAtEnd = true →
    Letter r createMissing .update (some .recreate)
      (r.comparing createMissing ++ r.vacating ++
        [r.did .create, r.did .checkCreate, r.didAside .delete])
      .checkDelete (deletable r.name)

section

variable {r : Resource} {createMissing : Bool} {action : Action} {d : Option Decision}
  {os : List Operation} {op : ResourceOp} {name : String}

theorem mem_probing :
    op.record name ∈ r.probing createMissing ↔
      op = .checkExist ∧ name = r.name ∧ createMissing = true := by
  cases createMissing <;> simp [probing, did, ResourceOp.record_inj]

theorem mem_comparing :
    op.record name ∈ r.comparing createMissing ↔
      name = r.name ∧ (op = .read ∨ op = .rescmp ∨ (op = .checkExist ∧ createMissing = true)) := by
  cases createMissing <;> simp [comparing, probing, did, ResourceOp.record_inj] <;> tauto

theorem letter_of_probing (h : os ++ [op.record name] <+: r.probing createMissing) :
    r.Letter createMissing .update d os op name := by
  cases createMissing with
  | false => simp [probing] at h
  | true =>
    simp [probing, concat_isPrefix_cons, did, ResourceOp.record_inj] at h
    obtain ⟨rfl, rfl, rfl⟩ := h
    exact .probe rfl

theorem letter_of_comparing (hd : d ≠ some .missing)
    (h : os ++ [op.record name] <+: r.comparing createMissing) :
    r.Letter createMissing .update d os op name := by
  rcases concat_isPrefix_append.1 h with hprobe | ⟨os, rfl, hlater⟩
  · exact letter_of_probing hprobe
  · simp [concat_isPrefix_cons, did, ResourceOp.record_inj] at hlater
    rcases hlater with ⟨rfl, rfl, rfl⟩ | ⟨rfl, rfl, rfl⟩
    · rw [List.append_nil]
      exact .read hd
    · exact .compare hd

theorem word_modify (r : Resource) (createMissing : Bool) :
    r.word createMissing .update (some .modify) =
      r.comparing createMissing ++ [r.did .update, r.did .checkUpdate] := by
  simp [word, comparing]

/-- A replacement makes room first, and deletes last what it has put aside. -/
theorem word_recreate (r : Resource) (createMissing : Bool) :
    r.word createMissing .update (some .recreate) =
      r.comparing createMissing ++ r.vacating ++ [r.did .create, r.did .checkCreate] ++
        if r.schema.deleteAtEnd then [r.didAside .delete, r.didAside .checkDelete] else [] := by
  cases hlate : r.schema.deleteAtEnd <;> simp [word, comparing, vacating, hlate]

/-- Room is made by putting the old object aside, or by deleting it at once. -/
theorem letter_of_vacating (h : os ++ [op.record name] <+: r.vacating) :
    r.Letter createMissing .update (some .recreate) (r.comparing createMissing ++ os) op name := by
  cases hlate : r.schema.deleteAtEnd with
  | true =>
    simp [vacating, hlate, concat_isPrefix_cons, did, ResourceOp.record_inj] at h
    obtain ⟨rfl, rfl, rfl⟩ := h
    rw [List.append_nil]
    exact .putAside hlate
  | false =>
    simp [vacating, hlate, concat_isPrefix_cons, did, ResourceOp.record_inj] at h
    rcases h with ⟨rfl, rfl, rfl⟩ | ⟨rfl, rfl, rfl⟩
    · rw [List.append_nil]
      exact .deleteOld hlate
    · exact .checkOld hlate

theorem letter_of_recreate
    (h : os ++ [op.record name] <+: r.word createMissing .update (some .recreate)) :
    r.Letter createMissing .update (some .recreate) os op name := by
  rw [word_recreate, List.append_assoc, List.append_assoc] at h
  rcases concat_isPrefix_append.1 h with hlook | ⟨os, rfl, hcompared⟩
  · exact letter_of_comparing (by simp) hlook
  rcases concat_isPrefix_append.1 hcompared with hvacate | ⟨os, rfl, hvacated⟩
  · exact letter_of_vacating hvacate
  rw [← List.append_assoc]
  rcases concat_isPrefix_append.1 hvacated with hcreate | ⟨os, rfl, hlast⟩
  · simp [concat_isPrefix_cons, did, ResourceOp.record_inj] at hcreate
    rcases hcreate with ⟨rfl, rfl, rfl⟩ | ⟨rfl, rfl, rfl⟩
    · rw [List.append_nil]
      exact .replace
    · exact .checkReplaced
  cases hlate : r.schema.deleteAtEnd with
  | true =>
    simp [hlate, concat_isPrefix_cons, didAside, ResourceOp.record_inj] at hlast
    rcases hlast with ⟨rfl, rfl, rfl⟩ | ⟨rfl, rfl, rfl⟩
    · exact .deleteAside hlate
    · exact .checkAside hlate
  | false => simp [hlate] at hlast

/-- **What stands in a word is one of its letters.** -/
theorem letter_of_isPrefix (h : os ++ [op.record name] <+: r.word createMissing action d) :
    r.Letter createMissing action d os op name := by
  cases action with
  | create =>
    simp [word, concat_isPrefix_cons, did, ResourceOp.record_inj] at h
    rcases h with ⟨rfl, rfl, rfl⟩ | ⟨rfl, rfl, rfl⟩
    · exact .create
    · exact .checkCreate
  | delete =>
    simp [word, concat_isPrefix_cons, did, ResourceOp.record_inj] at h
    rcases h with ⟨rfl, rfl, rfl⟩ | ⟨rfl, rfl, rfl⟩
    · exact .delete
    · exact .checkDelete
  | update =>
    rcases d with _ | _ | _ | _ | _
    · exact letter_of_comparing (by simp) h
    · exact letter_of_comparing (by simp) h
    · rw [word_modify] at h
      rcases concat_isPrefix_append.1 h with hlook | ⟨os, rfl, hlater⟩
      · exact letter_of_comparing (by simp) hlook
      · simp [concat_isPrefix_cons, did, ResourceOp.record_inj] at hlater
        rcases hlater with ⟨rfl, rfl, rfl⟩ | ⟨rfl, rfl, rfl⟩
        · rw [List.append_nil]
          exact .modify
        · exact .checkModify
    · exact letter_of_recreate h
    · rcases concat_isPrefix_append.1 h with hprobe | ⟨os, rfl, hlater⟩
      · exact letter_of_probing hprobe
      · simp [concat_isPrefix_cons, did, ResourceOp.record_inj] at hlater
        rcases hlater with ⟨rfl, rfl, rfl⟩ | ⟨rfl, rfl, rfl⟩
        · rw [List.append_nil]
          exact .createMissing
        · exact .checkMissing

theorem exists_letter (h : op.record name ∈ r.word createMissing action d) :
    ∃ os, r.Letter createMissing action d os op name := by
  obtain ⟨os, rest, hword⟩ := List.append_of_mem h
  refine ⟨os, letter_of_isPrefix ⟨rest, ?_⟩⟩
  rw [hword, List.append_assoc]
  rfl

theorem exists_record_of_mem_word {o : Operation} (h : o ∈ r.word createMissing action d) :
    ∃ (op : ResourceOp) (name : String), o = op.record name := by
  cases action with
  | create | delete =>
    simp [word] at h
    rcases h with rfl | rfl <;> exact ⟨_, _, rfl⟩
  | update =>
    rcases d with _ | _ | _ | _ | _ <;> cases createMissing <;>
      cases hlate : r.schema.deleteAtEnd <;>
      simp [word, probing, hlate] at h <;> casesm* _ ∨ _ <;> subst h <;> exact ⟨_, _, rfl⟩

/-- **What was done of a word was done letter by letter.** -/
@[elab_as_elim]
theorem begun_induction {P : ∀ os, os <+: r.word createMissing action d → Prop}
    (nil : P [] List.nil_prefix)
    (letter : ∀ os (op : ResourceOp) name (h : os ++ [op.record name] <+: _),
      r.Letter createMissing action d os op name → P os ((List.prefix_append _ _).trans h) →
      P (os ++ [op.record name]) h)
    (h : os <+: r.word createMissing action d) : P os h := by
  induction os using List.reverseRecOn with
  | nil => exact nil
  | append_singleton os o ih =>
    obtain ⟨op, name, rfl⟩ :=
      exists_record_of_mem_word (h.subset (List.mem_append_right _ List.mem_cons_self))
    exact letter os op name h (letter_of_isPrefix h) (ih _)

/-- The object is created before anything else was done, or after the probe found nothing, or
when room has been made for a replacement. -/
theorem create_of_isPrefix
    (h : os ++ [ResourceOp.create.record name] <+: r.word createMissing action d) :
    name = r.name ∧ action ≠ .delete ∧ (action = .update →
      (d = some .missing ∧ os = r.probing createMissing) ∨
      (d = some .recreate ∧ (r.did .markDeletable ∈ os ∨ r.did .checkDelete ∈ os))) := by
  cases letter_of_isPrefix h with
  | create => exact ⟨rfl, nofun, nofun⟩
  | createMissing => exact ⟨rfl, nofun, fun _ => .inl ⟨rfl, rfl⟩⟩
  | replace =>
    refine ⟨rfl, nofun, fun _ => .inr ⟨rfl, ?_⟩⟩
    cases hlate : r.schema.deleteAtEnd <;> simp [vacating, hlate]

/-- Only an update puts an object aside, and only one that is still the old one. -/
theorem markDeletable_of_isPrefix
    (h : os ++ [ResourceOp.markDeletable.record name] <+: r.word createMissing action d) :
    name = r.name ∧ action = .update ∧ r.did .create ∉ os := by
  cases letter_of_isPrefix h with
  | putAside => exact ⟨rfl, rfl, by simp [did, mem_comparing]⟩

/-- What is tracked under the name of a resource is only deleted while it is the old object,
and only an update deletes what it has put aside. -/
theorem checkDelete_of_isPrefix
    (h : os ++ [ResourceOp.checkDelete.record name] <+: r.word createMissing action d) :
    (name = r.name ∧ r.did .create ∉ os) ∨ (name = deletable r.name ∧ action = .update) := by
  cases letter_of_isPrefix h with
  | checkDelete => exact .inl ⟨rfl, by simp [did, ResourceOp.record_inj]⟩
  | checkOld => exact .inl ⟨rfl, by simp [did, mem_comparing, ResourceOp.record_inj]⟩
  | checkAside => exact .inr ⟨rfl, rfl⟩

theorem checkExist_of_mem
    (h : ResourceOp.checkExist.record name ∈ r.word createMissing action d) : name = r.name := by
  obtain ⟨os, hletter⟩ := exists_letter h
  cases hletter with
  | probe => rfl

end

/-! ### What is done in which phase -/

section

variable {r : Resource} {createMissing : Bool} {action : Action} {phase : Phase}
  {d : Option Decision} {op : ResourceOp} {name : String}

theorem late_of_mem_work (h : op.record name ∈ r.work createMissing action phase d)
    (hphase : phase ∈ Phase.backward) :
    (op = .delete ∧ phase = .commit) ∨ (op = .checkDelete ∧ phase = .finish) := by
  cases phase with
  | start | check => simp [Phase.backward] at hphase
  | commit | finish =>
    cases action with
    | create => simp [work] at h
    | delete => cases hlate : r.schema.deleteAtEnd <;> simp_all [work, did, ResourceOp.record_inj]
    | update =>
      rcases d with _ | _ | _ | _ | _ <;> cases hlate : r.schema.deleteAtEnd <;>
        simp_all [work, didAside, ResourceOp.record_inj]

theorem commit_of_mem_work (hlate : r.schema.deleteAtEnd = true)
    (h : ResourceOp.delete.record name ∈ r.work createMissing action phase d) :
    phase = .commit ∧ ((name = r.name ∧ action = .delete) ∨
      (name = deletable r.name ∧ action = .update ∧ d = some .recreate)) := by
  cases phase <;> cases action <;> rcases d with _ | _ | _ | _ | _ <;> cases createMissing <;>
    simp_all [work, did, didAside, probing, vacating, ResourceOp.record_inj]

theorem start_of_mem_work
    (h : ResourceOp.create.record name ∈ r.work createMissing action phase d) :
    phase = .start := by
  cases phase <;> cases action <;> rcases d with _ | _ | _ | _ | _ <;>
    cases hlate : r.schema.deleteAtEnd <;>
    simp_all [work, did, didAside, ResourceOp.record_inj]

theorem check_of_mem_work
    (h : ResourceOp.checkCreate.record name ∈ r.work createMissing action phase d) :
    phase = .check := by
  cases phase <;> cases action <;> rcases d with _ | _ | _ | _ | _ <;> cases createMissing <;>
    cases hlate : r.schema.deleteAtEnd <;>
    simp_all [work, did, didAside, probing, vacating, ResourceOp.record_inj]

/-- What is deleted late, and what is put aside, is known to be gone in the finish. -/
theorem finish_of_mem_work
    (h : ResourceOp.checkDelete.record name ∈ r.work createMissing action phase d)
    (hlate : r.schema.deleteAtEnd = true ∨ name = deletable r.name) : phase = .finish := by
  have hne := (ne_deletable r.name).symm
  cases phase <;> cases action <;> rcases d with _ | _ | _ | _ | _ <;> cases createMissing <;>
    cases hschema : r.schema.deleteAtEnd <;>
    simp_all [work, did, didAside, probing, vacating, ResourceOp.record_inj]

end

/-- Only an update asks what is decided. -/
theorem work_congr (r : Resource) (createMissing : Bool) {action : Action} (phase : Phase)
    {d d' : Option Decision} (h : action = .update → d = d') :
    r.work createMissing action phase d = r.work createMissing action phase d' := by
  cases action with
  | create | delete => cases phase <;> rfl
  | update => rw [h rfl]

/-! ### The work of one phase -/

/-- Whatever is decided, `os` begins what the phase of the routine has to do. -/
def Begins (r : Resource) (createMissing : Bool) (routine : Routine) (K : Known)
    (os : List Operation) : Prop :=
  ∀ v ∈ K.decided, ∃ d ∈ settled createMissing routine.action, (v = none ∨ v = d) ∧
    os <+: r.work createMissing routine.action routine.phase d

variable {r : Resource} {createMissing : Bool} {routine : Routine} {K K' : Known}
  {i : Instruction} {rest : List Instruction}

/-- What was done before a branch begins the work for its decision. -/
theorem preceding_isPrefix {target : Routine} {d : Decision} (h : target.Serves routine d) :
    r.preceding createMissing target <+:
      r.work createMissing routine.action routine.phase (some d) := by
  rw [← h.action, ← h.phase]
  have hpresumed := h.presumed createMissing
  cases target with
  | modify =>
    obtain rfl : Decision.modify = d := by simpa [Routine.presumed] using hpresumed
    exact List.prefix_append _ _
  | recreate =>
    obtain rfl : Decision.recreate = d := by simpa [Routine.presumed] using hpresumed
    exact List.prefix_append _ _
  | missingCreate => simp [Routine.presumed] at hpresumed
  | _ => exact List.nil_prefix

/-- An instruction takes nothing back. -/
theorem Typed.records_isPrefix (ht : Typed r createMissing routine K i K') :
    K.records <+: K'.records := by
  cases ht with
  | operation =>
    rw [Known.records_did]
    exact List.prefix_append _ _
  | _ => exact List.prefix_rfl

theorem decided_did {op : ResourceOp} (hop : op ≠ .rescmp) (K : Known) (name : String) :
    (K.did op name).decided = K.decided := by
  cases op with
  | rescmp => exact absurd rfl hop
  | _ => rfl

/-- If what was done after an instruction begins the work, it did so from before. -/
theorem Typed.begins (ht : Typed r createMissing routine K i K')
    (h : r.Begins createMissing routine K' K'.records) :
    r.Begins createMissing routine K K'.records := by
  -- Where something is decided now, nothing was decided before, and any decision will do.
  have hopen : ∀ {d : Decision}, K.decided = [none] → some d ∈ K'.decided →
      r.Begins createMissing routine K K'.records := by
    intro d hnone hmem v hv
    rw [hnone] at hv
    obtain rfl := List.mem_singleton.1 hv
    obtain ⟨d', hd', -, hprefix⟩ := h (some d) hmem
    exact ⟨d', hd', .inl rfl, hprefix⟩
  cases ht with
  | @branch d target _ hserves hsettled hrecords =>
    intro v hv
    by_cases hvd : v = some d
    · refine ⟨some d, hsettled, .inr hvd, ?_⟩
      rw [Known.records_exclude, hrecords]
      exact preceding_isPrefix hserves
    · exact h v (List.mem_filter.2 ⟨hv, by simpa using hvd⟩)
  | settle d _ _ hdecided => exact hopen hdecided (List.mem_singleton.2 rfl)
  | @operation name op _ _ _ _ hrescmp =>
    by_cases hop : op = .rescmp
    · obtain ⟨-, -, hdecided⟩ := hrescmp hop
      subst hop
      exact hopen hdecided (d := .noChange) List.mem_cons_self
    · unfold Begins at h ⊢
      rw [decided_did hop] at h
      exact h
  | _ => exact h

/-- **At every instruction of a typed routine, what was done begins the work of the phase.** -/
theorem Checked.begins (h : Checked r createMissing routine K rest) :
    r.Begins createMissing routine K K.records := by
  induction h with
  | ret hexit =>
    intro v hv
    have hrecords := hexit.records v hv
    exact ⟨v, hexit.decided v hv, .inr rfl, hrecords ▸ List.prefix_rfl⟩
  | step ht _ ih =>
    intro v hv
    obtain ⟨d, hd, hvd, hprefix⟩ := ht.begins ih v hv
    exact ⟨d, hd, hvd, ht.records_isPrefix.trans hprefix⟩

end Resource

namespace Compilation

variable {plan : Plan} {c : Compilation plan} {k : Nat} {ra : Resource × Action}
  {d d' : Option Decision}

/-! ### The phases that lie behind -/

/-- What was done to a resource in the phases that lie behind when `k` calls are made. -/
def finished (c : Compilation plan) (k : Nat) (ra : Resource × Action) (d : Option Decision) :
    List Operation :=
  (c.past k ra.1.name).flatMap fun phase => ra.1.work plan.createMissing ra.2 phase d

theorem finished_succ {phase : Phase} (hk : c.schedule[k]? = some (ra.1.name, phase)) :
    c.finished (k + 1) ra d =
      c.finished k ra d ++ ra.1.work plan.createMissing ra.2 phase d := by
  unfold finished
  rw [past_succ hk, if_pos rfl, List.flatMap_append, List.flatMap_singleton]

theorem finished_succ_of_ne {e : String × Phase} (hk : c.schedule[k]? = some e)
    (hne : e.1 ≠ ra.1.name) : c.finished (k + 1) ra d = c.finished k ra d := by
  unfold finished
  rw [past_succ hk, if_neg hne, List.append_nil]

theorem finished_length (hra : ra ∈ c.actions) :
    c.finished c.schedule.length ra d = ra.1.word plan.createMissing ra.2 d := by
  unfold finished
  rw [past_length (mem_names_of_mem hra)]
  exact ra.1.flatMap_work plan.createMissing ra.2 d

theorem finished_isPrefix (k : Nat) (hra : ra ∈ c.actions) :
    c.finished k ra d <+: ra.1.word plan.createMissing ra.2 d :=
  ra.1.flatMap_isPrefix plan.createMissing ra.2 d (past_isPrefix k (mem_names_of_mem hra))

/-- The work of the phase that is called next goes on from what is finished. -/
theorem finished_append_isPrefix {phase : Phase}
    (hk : c.schedule[k]? = some (ra.1.name, phase)) :
    c.finished k ra d ++ ra.1.work plan.createMissing ra.2 phase d <+:
      ra.1.word plan.createMissing ra.2 d := by
  have hprefix := ra.1.flatMap_isPrefix plan.createMissing ra.2 d (past_append_isPrefix hk)
  rwa [List.flatMap_append, List.flatMap_singleton] at hprefix

/-- What is finished does not depend on a decision that is still to be made. -/
theorem finished_congr (h : c.past k ra.1.name ≠ [] → ra.2 = .update → d = d') :
    c.finished k ra d = c.finished k ra d' := by
  unfold finished
  by_cases hpast : c.past k ra.1.name = []
  · rw [hpast]
    rfl
  · refine List.flatMap_congr ?_
    intro phase _
    exact ra.1.work_congr plan.createMissing phase (h hpast)

end Compilation

end Provisioning
