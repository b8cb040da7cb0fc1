/-
What a routine knows while it runs.

Instructions hand values to each other through scratch, and nothing in the machine says that
the values are there.  The routines are typed here: at each of their instructions it is known
which scratch values are staged and of which shape, what may have been decided about the
resource, and what has been done to it in the phase so far.  A rule says for each instruction
what it needs of this knowledge and what is known afterwards.

A branch is taken because of a decision, so behind the branch the decision is known, and if
the branch is not taken that decision is excluded.  A jump may only be made to a routine that
presumes no more than is known, and a routine may only return when all that its phase has to
do has been done.  Every body that compilation makes is typed in this sense: `checked_body`.
-/
import Provisioning.Proofs.Plan.Placement
import Provisioning.Proofs.Run.Operations

namespace Provisioning

/-! ### What can be known -/

/-- What is known of a scratch value. -/
inductive Shape where
  /-- It is this text. -/
  | text (s : String)
  /-- It is an object. -/
  | object
  /-- It is 0 or 1. -/
  | flag
  /-- It is the word for what was decided about the resource. -/
  | decision
  /-- It is 1 if this was decided about the resource, else 0. -/
  | verdict (d : Decision)

namespace Shape

/-- The values of a shape, where `decided` was decided about the resource. -/
def Admits (decided : Option Decision) : Shape → Json → Prop
  | .text s, v => v = .str s
  | .object, v => ∃ fields, v = .obj fields
  | .flag, v => ∃ b : Bool, v = .int (if b then 1 else 0)
  | .decision, v => ∃ d, decided = some d ∧ v = .str d.text
  | .verdict d, v => v = .int (if decided = some d then 1 else 0)

/-- Whether values keep the shape when something is decided. -/
def stable : Shape → Bool
  | .decision | .verdict _ => false
  | _ => true

theorem admits_of_stable {s : Shape} (h : s.stable = true) {decided decided' : Option Decision}
    {v : Json} (hv : s.Admits decided v) : s.Admits decided' v := by
  cases s with
  | text | object | flag => exact hv
  | decision | verdict => cases h

end Shape

/-- What is known at an instruction of a routine. -/
structure Known where
  /-- The shapes of the scratch values that are certainly there. -/
  scratch : String → Option Shape
  /-- What may have been decided about the resource. -/
  decided : List (Option Decision)
  /-- What was done to the resource in this phase. -/
  records : List Operation

namespace Known

/-- Nothing is known of scratch. -/
def clear (K : Known) : Known := { K with scratch := fun _ => none }

/-- A scratch value was bound. -/
def set (K : Known) (key : String) (s : Shape) : Known :=
  { K with scratch := fun k => if key = k then some s else K.scratch k }

theorem scratch_set (K : Known) (key : String) (s : Shape) : (K.set key s).scratch key = some s :=
  if_pos rfl

/-- A scratch value was taken out. -/
def drop (K : Known) (key : String) : Known :=
  { K with scratch := fun k => if key = k then none else K.scratch k }

/-- One of `ds` was decided. -/
def decide (K : Known) (ds : List (Option Decision)) : Known :=
  { K with scratch := fun k => (K.scratch k).filter Shape.stable, decided := ds }

/-- `d` was not decided. -/
def exclude (K : Known) (d : Decision) : Known :=
  { K with decided := K.decided.filter (· ≠ some d) }

/-- A value of shape `s` was bound to the staged key. -/
def bind (K : Known) (key : String) (s : Shape) : Known := (K.drop Memory.stagedKey).set key s

/-- A name and a type were staged. -/
def load (K : Known) (name typeId : String) : Known :=
  let K := (K.set Memory.stagedKey (.text "resource_name")).bind "resource_name" (.text name)
  (K.set Memory.stagedKey (.text "resource_desc")).bind "resource_desc" (.text typeId)

/-- The operation was done to what is tracked under `name`. -/
def did (K : Known) (op : ResourceOp) (name : String) : Known :=
  let K := { K with records := K.records ++ [op.record name] }
  match op with
  | .read => K.set "current" .object
  | .checkExist => K.set Memory.resultKey .flag
  | .filter => K.set "properties" .object
  | .rescmp => K.decide [some .noChange, some .modify, some .recreate]
  | _ => K

@[simp] theorem records_clear (K : Known) : K.clear.records = K.records := rfl

@[simp] theorem records_set (K : Known) (key : String) (s : Shape) :
    (K.set key s).records = K.records := rfl

@[simp] theorem records_bind (K : Known) (key : String) (s : Shape) :
    (K.bind key s).records = K.records := rfl

@[simp] theorem records_load (K : Known) (name typeId : String) :
    (K.load name typeId).records = K.records := rfl

@[simp] theorem records_decide (K : Known) (ds : List (Option Decision)) :
    (K.decide ds).records = K.records := rfl

@[simp] theorem records_exclude (K : Known) (d : Decision) :
    (K.exclude d).records = K.records := rfl

@[simp] theorem records_did (K : Known) (op : ResourceOp) (name : String) :
    (K.did op name).records = K.records ++ [op.record name] := by
  cases op <;> rfl

/-- A memory is as it is known to be, for the resource called `name`. -/
structure Fits (K : Known) (name : String) (m : Memory) : Prop where
  distinct : m.temp.keys.Nodup
  scratch : ∀ key s, K.scratch key = some s →
    ∃ v, m.temp.get? key = some v ∧ s.Admits (m.decisions.get? name) v
  decided : m.decisions.get? name ∈ K.decided

end Known

/-! ### What routines presume and what they have to do -/

/-- What may be decided about a resource once its start is over. -/
def settled (createMissing : Bool) : Action → List (Option Decision)
  | .update => [some .noChange, some .modify, some .recreate] ++
      if createMissing then [some .missing] else []
  | .create | .delete => [none]

namespace Routine

/-- The action a routine belongs to. -/
def action : Routine → Action
  | .create | .checkCreate | .commitCreate | .finishCreate => .create
  | .delete | .checkDelete | .commitDelete | .finishDelete => .delete
  | _ => .update

/-- The phase in which a routine runs. -/
def phase : Routine → Phase
  | .create | .update | .delete | .modify | .recreate | .missingCreate => .start
  | .checkCreate | .checkUpdate | .checkDelete | .modifyCheck | .recreateCheck
  | .missingCreateCheck => .check
  | .commitCreate | .commitUpdate | .commitDelete | .recreateCommit => .commit
  | .finishCreate | .finishUpdate | .finishDelete | .recreateFinish => .finish

/-- What may have been decided when a routine begins. -/
def presumed (createMissing : Bool) : Routine → List (Option Decision)
  | .checkUpdate | .commitUpdate | .finishUpdate => settled createMissing .update
  | .modify | .modifyCheck => [some .modify]
  | .recreate | .recreateCheck | .recreateCommit | .recreateFinish => [some .recreate]
  | .missingCreateCheck => [some .missing]
  | _ => [none]

/-- The routine does in place of `caller` what is to be done if `d` is decided. -/
structure Serves (routine caller : Routine) (d : Decision) : Prop where
  presumed : ∀ createMissing, routine.presumed createMissing = [some d]
  action : routine.action = caller.action
  phase : routine.phase = caller.phase

end Routine

namespace Resource

/-- The log entry of an operation on the resource. -/
def did (r : Resource) (op : ResourceOp) : Operation := op.record r.name

/-- The log entry of an operation on what the resource has put aside. -/
def didAside (r : Resource) (op : ResourceOp) : Operation := op.record (deletable r.name)

/-- The look whether the object is there. -/
def probing (r : Resource) (createMissing : Bool) : List Operation :=
  if createMissing then [r.did .checkExist] else []

/-- Making room for a replacement. -/
def vacating (r : Resource) : List Operation :=
  if r.schema.deleteAtEnd then [r.did .markDeletable] else [r.did .delete, r.did .checkDelete]

/-- All that a phase does to a resource, given what is decided about it. -/
def work (r : Resource) (createMissing : Bool) :
    Action → Phase → Option Decision → List Operation
  | .create, .start, _ => [r.did .create]
  | .create, .check, _ => [r.did .checkCreate]
  | .create, _, _ => []
  | .delete, .start, _ => if r.schema.deleteAtEnd then [] else [r.did .delete]
  | .delete, .check, _ => if r.schema.deleteAtEnd then [] else [r.did .checkDelete]
  | .delete, .commit, _ => if r.schema.deleteAtEnd then [r.did .delete] else []
  | .delete, .finish, _ => if r.schema.deleteAtEnd then [r.did .checkDelete] else []
  | .update, .start, some .missing => r.probing createMissing ++ [r.did .create]
  | .update, .start, some .recreate =>
    r.probing createMissing ++ [r.did .read, r.did .rescmp] ++ (r.vacating ++ [r.did .create])
  | .update, .start, some .modify =>
    r.probing createMissing ++ [r.did .read, r.did .rescmp] ++ [r.did .update]
  | .update, .start, _ => r.probing createMissing ++ [r.did .read, r.did .rescmp]
  | .update, .check, some .modify => [r.did .checkUpdate]
  | .update, .check, some .recreate | .update, .check, some .missing => [r.did .checkCreate]
  | .update, .check, _ => []
  | .update, .commit, some .recreate =>
    if r.schema.deleteAtEnd then [r.didAside .delete] else []
  | .update, .finish, some .recreate =>
    if r.schema.deleteAtEnd then [r.didAside .checkDelete] else []
  | .update, _, _ => []

/-- What was done in the phase when a routine begins: nothing, unless it is jumped to. -/
def preceding (r : Resource) (createMissing : Bool) : Routine → List Operation
  | .modify | .recreate => r.probing createMissing ++ [r.did .read, r.did .rescmp]
  | .missingCreate => r.probing createMissing
  | _ => []

/-- What is known when a routine begins. -/
def entry (r : Resource) (createMissing : Bool) (routine : Routine) : Known :=
  ⟨fun _ => none, routine.presumed createMissing, r.preceding createMissing routine⟩

/-- What has to be known when a routine returns. -/
structure Exit (r : Resource) (createMissing : Bool) (routine : Routine) (K : Known) :
    Prop where
  /-- The decision is made. -/
  decided : ∀ d ∈ K.decided, d ∈ settled createMissing routine.action
  /-- All that the phase has to do is done. -/
  records : ∀ d ∈ K.decided, K.records = r.work createMissing routine.action routine.phase d

/-! ### Rules -/

section

variable (r : Resource) (createMissing : Bool) (routine : Routine)

/-- What an instruction of a routine needs to be known, and what is known afterwards. -/
inductive Typed : Known → Instruction → Known → Prop
  | clear {K : Known} : Typed K .clear K.clear
  | key {K : Known} (name : String) :
    Typed K (.key name) (K.set Memory.stagedKey (.text name))
  | text {K : Known} {key : String} (s : String) :
    K.scratch Memory.stagedKey = some (.text key) →
    Typed K (.value (.str s)) (K.bind key (.text s))
  /-- Only what is wanted has declared fields. -/
  | fields {K : Known} {key : String} : routine.action ≠ .delete →
    K.scratch Memory.stagedKey = some (.text key) →
    Typed K (.valueRom r.name) (K.bind key .object)
  | decision {K : Known} : none ∉ K.decided →
    Typed K (.valueUpdate r.name) (K.clear.set Memory.resultKey .decision)
  | compare {K : Known} (d : Decision) : K.scratch Memory.resultKey = some .decision →
    Typed K (.compare (.str d.text)) (K.set Memory.resultKey (.verdict d))
  | invert {K : Known} : K.scratch Memory.resultKey = some .flag →
    Typed K .invert (K.set Memory.resultKey .flag)
  /-- A jump because of a test. -/
  | test {K : Known} {target : Routine} : K.scratch Memory.resultKey = some .flag →
    K.decided = target.presumed createMissing → K.records = r.preceding createMissing target →
    Typed K (.gotoIf (.label (target.label r.name))) K
  /-- A jump because of a decision. -/
  | branch {K : Known} {d : Decision} {target : Routine} :
    K.scratch Memory.resultKey = some (.verdict d) →
    target.Serves routine d → some d ∈ settled createMissing routine.action →
    K.records = r.preceding createMissing target →
    Typed K (.gotoIf (.label (target.label r.name))) (K.exclude d)
  /-- The identifier of what is missing is forgotten, before anything takes its place. -/
  | forget {K : Known} : routine = .missingCreate →
    K.records = r.preceding createMissing routine →
    K.scratch "superkey" = some (.text "remote_ids") →
    K.scratch "key" = some (.text r.name) → Typed K (.memwrite .null) K
  /-- A decision is recorded. -/
  | settle {K : Known} (d : Decision) : K.scratch "superkey" = some (.text "update_action") →
    K.scratch "key" = some (.text r.name) → K.decided = [none] →
    Typed K (.memwrite (.str d.text)) (K.decide [some d])
  /-- An operation on the resource, or on what it has put aside. -/
  | operation {K : Known} {name : String} (op : ResourceOp) :
    K.scratch "resource_name" = some (.text name) →
    K.scratch "resource_desc" = some (.text r.typeId) →
    (∀ key ∈ op.objects, K.scratch key = some .object) →
    name = r.name ∨ name = deletable r.name →
    (op = .rescmp → name = r.name ∧ routine.action ≠ .delete ∧ K.decided = [none]) →
    Typed K (.resource op) (K.did op name)

/-- Instructions up to the return of a routine, typed one after the other. -/
inductive Checked : Known → List Instruction → Prop
  | ret {K : Known} : r.Exit createMissing routine K → Checked K [.ret]
  | step {K K' : Known} {i : Instruction} {rest : List Instruction} :
    Typed r createMissing routine K i K' → Checked K' rest → Checked K (i :: rest)

end

/-! ### The pieces of a body -/

section

variable {r : Resource} {createMissing : Bool} {routine : Routine} {K : Known}
  {rest : List Instruction}

theorem checked_bind {key s : String}
    (h : Checked r createMissing routine
      ((K.set Memory.stagedKey (.text key)).bind key (.text s)) rest) :
    Checked r createMissing routine K (.key key :: .value (.str s) :: rest) :=
  .step (.key key) (.step (.text s (K.scratch_set _ _)) h)

theorem checked_load {name : String} (hname : name = r.name ∨ name = deletable r.name)
    {op : ResourceOp} (hobjects : op.objects = [])
    (h : Checked r createMissing routine ((K.load name r.typeId).did op name) rest) :
    Checked r createMissing routine K
      (Emit.load name r.typeId ++ .resource op :: rest) := by
  refine checked_bind (checked_bind (.step (.operation op rfl rfl ?_ hname ?_) h))
  · rw [hobjects]
    nofun
  · rintro rfl
    simp [ResourceOp.objects] at hobjects

theorem checked_onResource {op : ResourceOp} (hobjects : op.objects = [])
    (h : Checked r createMissing routine ((K.load r.name r.typeId).did op r.name) rest) :
    Checked r createMissing routine K (Emit.onResource r op ++ rest) :=
  checked_load (.inl rfl) hobjects h

theorem checked_rescmp (hcurrent : K.scratch "current" = some .object)
    (haction : routine.action ≠ .delete) (hdecided : K.decided = [none])
    (h : Checked r createMissing routine
      ((K.load r.name r.typeId).did .rescmp r.name) rest) :
    Checked r createMissing routine K (Emit.onResource r .rescmp ++ rest) := by
  refine checked_bind (checked_bind (.step (.operation .rescmp rfl rfl ?_ (.inl rfl) ?_) h))
  · intro key hkey
    obtain rfl := List.mem_singleton.1 hkey
    exact hcurrent
  · exact fun _ => ⟨rfl, haction, hdecided⟩

/-- The known scratch when the declared fields of a resource are staged. -/
def withFields (r : Resource) (K : Known) : Known :=
  ((K.load r.name r.typeId).set Memory.stagedKey (.text "properties")).bind "properties" .object

theorem checked_withProperties {op : ResourceOp} (hobjects : op.objects = ["properties"])
    (haction : routine.action ≠ .delete)
    (h : Checked r createMissing routine ((r.withFields K).did op r.name) rest) :
    Checked r createMissing routine K (Emit.withProperties r op ++ rest) := by
  refine checked_bind (checked_bind (.step (.key _) (.step (.fields haction ?_)
    (.step (.operation op rfl rfl ?_ (.inl rfl) ?_) h))))
  · exact Known.scratch_set _ _ _
  · intro key hkey
    rw [hobjects] at hkey
    obtain rfl := List.mem_singleton.1 hkey
    exact Known.scratch_set _ _ _
  · rintro rfl
    simp [ResourceOp.objects] at hobjects

/-- The known scratch when it was tested whether `d` is the decision. -/
def withVerdict (K : Known) (d : Decision) : Known :=
  (K.clear.set Memory.resultKey .decision).set Memory.resultKey (.verdict d)

theorem checked_branch {d : Decision} {target : Routine} (hdecided : none ∉ K.decided)
    (hserves : target.Serves routine d) (hsettled : some d ∈ settled createMissing routine.action)
    (hrecords : K.records = r.preceding createMissing target)
    (h : Checked r createMissing routine ((withVerdict K d).exclude d) rest) :
    Checked r createMissing routine K (Emit.branch r d target ++ rest) :=
  .step (.decision hdecided) (.step (.compare d (Known.scratch_set _ _ _))
    (.step (.branch (Known.scratch_set _ _ _) hserves hsettled hrecords) h))

/-- The known scratch when it is staged where to write. -/
def withPlace (r : Resource) (K : Known) (table : String) : Known :=
  let K := (K.set Memory.stagedKey (.text "superkey")).bind "superkey" (.text table)
  (K.set Memory.stagedKey (.text "key")).bind "key" (.text r.name)

theorem checked_write {table : String} {v : Json} {K' : Known}
    (hwrite : Typed r createMissing routine (r.withPlace K table) (.memwrite v) K')
    (h : Checked r createMissing routine K' rest) :
    Checked r createMissing routine K (Emit.write r table v ++ rest) :=
  checked_bind (checked_bind (.step hwrite h))

/-! ### The bodies -/

theorem exit_of_decided {d : Option Decision} (hdecided : K.decided = [d])
    (hsettled : d ∈ settled createMissing routine.action)
    (hrecords : K.records = r.work createMissing routine.action routine.phase d) :
    r.Exit createMissing routine K where
  decided d' hd' := by
    rw [hdecided] at hd'
    obtain rfl := List.mem_singleton.1 hd'
    exact hsettled
  records d' hd' := by
    rw [hdecided] at hd'
    obtain rfl := List.mem_singleton.1 hd'
    exact hrecords

theorem checked_of_script
    (h : Checked r createMissing routine (r.entry createMissing routine).clear
      (r.script createMissing routine ++ [.ret])) :
    Checked r createMissing routine (r.entry createMissing routine)
      (r.piece createMissing routine).body :=
  .step .clear h

theorem checked_create :
    Checked r createMissing .create (r.entry createMissing .create)
      (r.piece createMissing .create).body :=
  checked_of_script (checked_withProperties rfl nofun
    (.ret (exit_of_decided rfl (List.mem_singleton.2 rfl) rfl)))

theorem checked_modify :
    Checked r createMissing .modify (r.entry createMissing .modify)
      (r.piece createMissing .modify).body :=
  checked_of_script (checked_withProperties rfl nofun
    (.ret (exit_of_decided rfl (by simp [settled, Routine.action]) rfl)))

theorem checked_recreate :
    Checked r createMissing .recreate (r.entry createMissing .recreate)
      (r.piece createMissing .recreate).body := by
  refine checked_of_script ?_
  have hsettled : some Decision.recreate ∈ settled createMissing .update := by simp [settled]
  show Checked _ _ _ _ ((Emit.vacate r ++ Emit.withProperties r .create) ++ [.ret])
  unfold Emit.vacate
  cases hlate : r.schema.deleteAtEnd with
  | true =>
    refine checked_onResource rfl (checked_withProperties rfl nofun
      (.ret (exit_of_decided rfl hsettled ?_)))
    simp [work, vacating, hlate, Routine.action, Routine.phase, withFields, entry, preceding, did]
  | false =>
    refine checked_onResource rfl (checked_onResource rfl (checked_withProperties rfl nofun
      (.ret (exit_of_decided rfl hsettled ?_))))
    simp [work, vacating, hlate, Routine.action, Routine.phase, withFields, entry, preceding, did]

/-- A body without instructions of its own, or with one operation. -/
theorem checked_single (op : ResourceOp) (hobjects : op.objects = []) {name : String}
    (hname : name = r.name ∨ name = deletable r.name) {d : Option Decision}
    (hpresumed : routine.presumed createMissing = [d])
    (hsettled : d ∈ settled createMissing routine.action)
    (hpreceding : r.preceding createMissing routine = [])
    (hscript : (r.script createMissing routine = [] ∧
        r.work createMissing routine.action routine.phase d = []) ∨
      (r.script createMissing routine = Emit.load name r.typeId ++ [.resource op] ∧
        r.work createMissing routine.action routine.phase d = [op.record name])) :
    Checked r createMissing routine (r.entry createMissing routine)
      (r.piece createMissing routine).body := by
  refine checked_of_script ?_
  rcases hscript with ⟨hscript, hwork⟩ | ⟨hscript, hwork⟩
  · rw [hscript]
    exact .ret (exit_of_decided hpresumed hsettled (hpreceding.trans hwork.symm))
  · rw [hscript, List.append_assoc]
    refine checked_load hname hobjects (.ret (exit_of_decided ?_ hsettled ?_))
    · cases op <;> first | exact hpresumed | cases hobjects
    · simp [entry, hpreceding, hwork]

theorem checked_missingCreate :
    Checked r true .missingCreate (r.entry true .missingCreate)
      (r.piece true .missingCreate).body := by
  refine checked_of_script ?_
  refine checked_write (.settle .missing rfl rfl rfl) ?_
  refine checked_write (.forget rfl rfl rfl rfl) ?_
  refine checked_withProperties rfl nofun ?_
  exact .ret (exit_of_decided rfl (by simp [settled, Routine.action]) rfl)

/-- Where neither branch is taken, there is nothing to change. -/
theorem checked_reconcile (hdecided : K.decided = [none])
    (hrecords : K.records = r.probing createMissing) :
    Checked r createMissing .update K (Emit.reconcile r ++ [.ret]) := by
  refine checked_onResource rfl (checked_rescmp rfl nofun hdecided ?_)
  have hrecreate : some Decision.recreate ∈ settled createMissing .update := by simp [settled]
  have hmodify : some Decision.modify ∈ settled createMissing .update := by simp [settled]
  refine checked_branch ?_ ⟨fun _ => rfl, rfl, rfl⟩ hrecreate ?_
    (checked_branch ?_ ⟨fun _ => rfl, rfl, rfl⟩ hmodify ?_ ?_)
  · simp [Known.did, Known.decide]
  · simp [preceding, did, hrecords]
  · simp [Known.exclude, withVerdict, Known.did, Known.decide, Known.clear, Known.set]
  · simp [preceding, did, hrecords, withVerdict]
  refine .ret (exit_of_decided (d := some .noChange) ?_ ?_ ?_)
  · rfl
  · simp [settled, Routine.action]
  · simp [withVerdict, hrecords, work, Routine.action, Routine.phase, did]

theorem checked_update :
    Checked r createMissing .update (r.entry createMissing .update)
      (r.piece createMissing .update).body := by
  refine checked_of_script ?_
  cases createMissing with
  | false => exact checked_reconcile rfl rfl
  | true =>
    show Checked _ _ _ _ (Emit.onResource r .checkExist ++ _)
    refine checked_onResource rfl (.step (.invert rfl) (.step (.test rfl rfl rfl) ?_))
    exact checked_reconcile rfl rfl

/-- Where neither is decided, nothing is left to check. -/
theorem checked_branches (hdecided : K.decided = [some .noChange, some .modify, some .recreate])
    (hrecords : K.records = []) :
    Checked r createMissing .checkUpdate K
      (Emit.branch r .recreate .recreateCheck ++
        (Emit.branch r .modify .modifyCheck ++ [.ret])) := by
  have hrecreate : some Decision.recreate ∈ settled createMissing .update := by simp [settled]
  have hmodify : some Decision.modify ∈ settled createMissing .update := by simp [settled]
  refine checked_branch ?_ ⟨fun _ => rfl, rfl, rfl⟩ hrecreate hrecords
    (checked_branch ?_ ⟨fun _ => rfl, rfl, rfl⟩ hmodify hrecords ?_)
  · simp [hdecided]
  · simp [Known.exclude, withVerdict, Known.clear, Known.set, hdecided]
  · refine .ret (exit_of_decided (d := some .noChange) ?_ ?_ hrecords)
    · simp [Known.exclude, withVerdict, Known.clear, Known.set, hdecided]
    · simp [settled, Routine.action]

theorem checked_checkUpdate :
    Checked r createMissing .checkUpdate (r.entry createMissing .checkUpdate)
      (r.piece createMissing .checkUpdate).body := by
  refine checked_of_script ?_
  cases createMissing with
  | false => exact checked_branches rfl rfl
  | true =>
    show Checked _ _ _ _ (Emit.branch r .missing .missingCreateCheck ++ _)
    refine checked_branch ?_ ⟨fun _ => rfl, rfl, rfl⟩ (by simp [settled, Routine.action]) rfl
      (checked_branches rfl rfl)
    simp [entry, Known.clear, Routine.presumed, settled]

/-- In the later phases only a replacement has work left to do. -/
theorem checked_late (target : Routine)
    (hscript : r.script createMissing routine = Emit.branch r .recreate target)
    (hpresumed : routine.presumed createMissing = settled createMissing .update)
    (haction : routine.action = .update) (hpreceding : r.preceding createMissing routine = [])
    (hserves : target.Serves routine .recreate) (hfree : r.preceding createMissing target = [])
    (hwork : ∀ d ≠ some .recreate, r.work createMissing .update routine.phase d = []) :
    Checked r createMissing routine (r.entry createMissing routine)
      (r.piece createMissing routine).body := by
  have hrecreate : some Decision.recreate ∈ settled createMissing routine.action := by
    rw [haction]
    simp [settled]
  have hdecided : (r.entry createMissing routine).clear.decided = settled createMissing .update :=
    hpresumed
  refine checked_of_script ?_
  rw [hscript]
  refine checked_branch ?_ hserves hrecreate (hpreceding.trans hfree.symm) (.ret ⟨?_, ?_⟩)
  · rw [hdecided]
    cases createMissing <;> simp [settled]
  · intro d hd
    rw [haction]
    exact hdecided ▸ (List.mem_filter.1 hd).1
  · intro d hd
    have hne : d ≠ some .recreate := by simpa using (List.mem_filter.1 hd).2
    rw [haction, hwork d hne]
    exact hpreceding

theorem action_of_mem {action : Action} {e : String × Routine}
    (he : e ∈ routines action createMissing) : e.2.action = action := by
  revert e
  cases action <;> cases createMissing <;> decide

/-- What is missing is only replaced if that was asked for. -/
theorem replaces_of_mem {action : Action} {e : String × Routine}
    (he : e ∈ routines action createMissing)
    (h : e.2 = .missingCreate ∨ e.2 = .missingCreateCheck) : createMissing = true := by
  revert e
  cases action <;> cases createMissing <;> decide

/-- **The body of every routine that a resource needs is typed.** -/
theorem checked_body {action : Action} {e : String × Routine}
    (he : e ∈ routines action createMissing) :
    Checked r createMissing e.2 (r.entry createMissing e.2)
      (r.piece createMissing e.2).body := by
  obtain ⟨key, routine⟩ := e
  have haction := action_of_mem he
  have hreplaces := replaces_of_mem he
  simp only at haction hreplaces ⊢
  subst haction
  cases routine with
  | create => exact checked_create
  | update => exact checked_update
  | checkUpdate => exact checked_checkUpdate
  | modify => exact checked_modify
  | recreate => exact checked_recreate
  | missingCreate =>
    obtain rfl := hreplaces (.inl rfl)
    exact checked_missingCreate
  | commitUpdate =>
    refine checked_late .recreateCommit rfl rfl rfl rfl ⟨fun _ => rfl, rfl, rfl⟩ rfl fun d hd => ?_
    rcases d with _ | _ | _ | _ | _
    all_goals first | rfl | exact absurd rfl hd
  | finishUpdate =>
    refine checked_late .recreateFinish rfl rfl rfl rfl ⟨fun _ => rfl, rfl, rfl⟩ rfl fun d hd => ?_
    rcases d with _ | _ | _ | _ | _
    all_goals first | rfl | exact absurd rfl hd
  | commitCreate | finishCreate =>
    exact checked_single .delete rfl (.inl rfl) rfl (by simp [settled, Routine.action]) rfl
      (.inl ⟨rfl, rfl⟩)
  | checkCreate | recreateCheck =>
    exact checked_single .checkCreate rfl (.inl rfl) rfl (by simp [settled, Routine.action]) rfl
      (.inr ⟨rfl, rfl⟩)
  | modifyCheck =>
    exact checked_single .checkUpdate rfl (.inl rfl) rfl (by simp [settled, Routine.action]) rfl
      (.inr ⟨rfl, rfl⟩)
  | missingCreateCheck =>
    obtain rfl := hreplaces (.inr rfl)
    exact checked_single .checkCreate rfl (.inl rfl) rfl (by simp [settled, Routine.action]) rfl
      (.inr ⟨rfl, rfl⟩)
  | delete | commitDelete =>
    refine checked_single .delete rfl (.inl rfl) rfl (by simp [settled, Routine.action]) rfl ?_
    cases hlate : r.schema.deleteAtEnd <;>
      simp [script, Emit.deleteNow, Emit.deleteLate, Emit.onResource, work, Routine.action,
        Routine.phase, did, hlate]
  | checkDelete | finishDelete =>
    refine checked_single .checkDelete rfl (.inl rfl) rfl (by simp [settled, Routine.action]) rfl ?_
    cases hlate : r.schema.deleteAtEnd <;>
      simp [script, Emit.deleteNow, Emit.deleteLate, Emit.onResource, work, Routine.action,
        Routine.phase, did, hlate]
  | recreateCommit =>
    refine checked_single .delete rfl (.inr rfl) rfl (by simp [settled, Routine.action]) rfl ?_
    cases hlate : r.schema.deleteAtEnd <;>
      simp [script, Emit.deleteLate, work, Routine.action, Routine.phase, didAside, hlate]
  | recreateFinish =>
    refine checked_single .checkDelete rfl (.inr rfl) rfl (by simp [settled, Routine.action]) rfl ?_
    cases hlate : r.schema.deleteAtEnd <;>
      simp [script, Emit.deleteLate, work, Routine.action, Routine.phase, didAside, hlate]

end

end Resource

end Provisioning
