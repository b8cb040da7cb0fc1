/-
What a body leaves alone.

The code that was made for a resource is to deal with that resource only.  What an operation
acts on is a text in scratch, though, staged some instructions before, and control may have come
from the code of another resource where labels are shared.  Every body begins by emptying scratch
and stages its names itself, so wherever control came from, the names in scratch are those that
the body was made with; and the tables are written under no other names.

So a step inside a body touches what is tracked, stored and decided under the name of its
resource, and what is under the name where the resource puts its object aside, and nothing else;
and it speaks of the objects of these two names alone: `isolated_of_steps`.
-/
import Provisioning.Proofs.Run.Origin
import Provisioning.Proofs.Run.Outputs

namespace Provisioning

/-! ### What may be touched -/

/-- A name is the one of a resource, or the one under which the resource puts its object
aside. -/
def OwnedBy (owner name : String) : Prop := name = owner ∨ name = deletable owner

/-- Of the tables only what belongs to a resource has changed, and what was decided only about
the resource itself. -/
structure Memory.Touches (owner : String) (m m' : Memory) : Prop where
  remoteIds : ∀ n, ¬ OwnedBy owner n → m'.remoteIds.get? n = m.remoteIds.get? n
  outputs : ∀ n, ¬ OwnedBy owner n → m'.outputs.get? n = m.outputs.get? n
  decisions : ∀ n ≠ owner, m'.decisions.get? n = m.decisions.get? n
  deleted : m'.deleted = m.deleted ∨ ∃ n, OwnedBy owner n ∧ m'.deleted = m.deleted ++ [n]

namespace Memory

variable {owner : String} {m m' m'' : Memory}

theorem SameTables.touches (h : m.SameTables m') (owner : String) : m.Touches owner m' where
  remoteIds _ _ := by rw [h.remoteIds]
  outputs _ _ := by rw [h.outputs]
  decisions _ _ := by rw [h.decisions]
  deleted := .inl h.deleted

theorem Touches.congr (h : m.Touches owner m') (hsame : m'.SameTables m'') :
    m.Touches owner m'' where
  remoteIds n hn := by rw [hsame.remoteIds, h.remoteIds n hn]
  outputs n hn := by rw [hsame.outputs, h.outputs n hn]
  decisions n hn := by rw [hsame.decisions, h.decisions n hn]
  deleted := by
    rw [hsame.deleted]
    exact h.deleted

theorem sameTables_temp (m : Memory) (temp : Properties) : m.SameTables { m with temp } :=
  ⟨rfl, rfl, rfl, rfl⟩

end Memory

theorem Table.get?_insert_of_not_ownedBy {α : Type} {owner k n : String} (hk : OwnedBy owner k)
    (hn : ¬ OwnedBy owner n) (t : Table α) (v : α) : (t.insert k v).get? n = t.get? n := by
  rw [Table.get?_insert, if_neg]
  rintro rfl
  exact hn hk

theorem Table.get?_erase_of_not_ownedBy {α : Type} {owner k n : String} (hk : OwnedBy owner k)
    (hn : ¬ OwnedBy owner n) (t : Table α) : (t.erase k).get? n = t.get? n := by
  rw [Table.get?_erase, if_neg]
  rintro rfl
  exact hn hk

/-- What is said is about an object of a resource: about the one of the identifier that is
tracked, or, to create one, about none. -/
structure Exchange.Concerns (x : Exchange) (owner typeId : String) (m : Memory) : Prop where
  typeId : x.typeId = typeId
  id : (∃ properties, x.request = .create properties ∧ x.id = none) ∨
    (∀ properties, x.request ≠ .create properties) ∧ ∃ n, OwnedBy owner n ∧ x.id = m.remoteId n

/-- A step touches, speaks of and logs what belongs to a resource, and nothing else. -/
structure Run.Isolated {W : Type} (p : Program) (types : Registry W) (r : Run W)
    (owner typeId : String) : Prop where
  tables : r.memory.Touches owner (r.step p types).memory
  said : ∀ x ∈ exchanges p types r, x.Concerns owner typeId r.memory
  logged : ∃ os, (r.step p types).log = r.log ++ os ∧ ∀ o ∈ os, OwnedBy owner o.resource

/-! ### Operations -/

namespace Staged

variable {W : Type} {s : Staged W} {m m' : Memory} {owner : String}

/-- **What an operation has done to the tables it has done to what it acts on.** -/
theorem Done.touches (h : s.Done m m') (howned : OwnedBy owner s.name)
    (hself : s.op = .markDeletable ∨ s.op = .rescmp → s.name = owner) : m.Touches owner m' := by
  unfold Done at h
  cases hop : s.op with
  | create =>
    rw [hop] at h
    obtain ⟨id, rfl⟩ := h
    exact ⟨fun n hn => Table.get?_insert_of_not_ownedBy howned hn _ _, fun _ _ => rfl,
      fun _ _ => rfl, .inl rfl⟩
  | read =>
    rw [hop] at h
    obtain ⟨current, outputs, rfl, rfl | ⟨fields, rfl⟩⟩ := h
    · exact (m.sameTables_temp _).touches owner
    · exact ⟨fun _ _ => rfl, fun n hn => Table.get?_insert_of_not_ownedBy howned hn _ _,
        fun _ _ => rfl, .inl rfl⟩
  | update | delete =>
    rw [hop] at h
    obtain rfl := h
    exact (Memory.sameTables_temp _ _).touches owner
  | checkCreate | checkUpdate =>
    rw [hop] at h
    obtain ⟨fields, rfl⟩ := h
    exact ⟨fun _ _ => rfl, fun n hn => Table.get?_insert_of_not_ownedBy howned hn _ _,
      fun _ _ => rfl, .inl rfl⟩
  | checkDelete =>
    rw [hop] at h
    obtain rfl := h
    exact ⟨fun n hn => Table.get?_erase_of_not_ownedBy howned hn _,
      fun n hn => Table.get?_erase_of_not_ownedBy howned hn _, fun _ _ => rfl,
      .inr ⟨s.name, howned, rfl⟩⟩
  | checkExist =>
    rw [hop] at h
    obtain ⟨found, rfl⟩ := h
    exact (m.sameTables_temp _).touches owner
  | markDeletable =>
    rw [hop] at h
    obtain ⟨id, rfl⟩ := h
    obtain rfl := hself (.inl hop)
    refine ⟨fun n hn => ?_, fun _ _ => rfl, fun _ _ => rfl, .inl rfl⟩
    rw [Table.get?_insert_of_not_ownedBy (.inr rfl) hn,
      Table.get?_erase_of_not_ownedBy (.inl rfl) hn]
  | filter =>
    rw [hop] at h
    obtain ⟨properties, rfl⟩ := h
    exact (m.sameTables_temp _).touches owner
  | rescmp =>
    rw [hop] at h
    obtain ⟨d, -, rfl⟩ := h
    refine ⟨fun _ _ => rfl, fun _ _ => rfl, fun n hn => ?_, .inl rfl⟩
    rw [Table.get?_insert, if_neg]
    rintro rfl
    exact hn (hself (.inr hop))

end Staged

section

variable {W : Type} {p : Program} {types : Registry W} {m : Memory} {w : W}

theorem execute_of_next {i : Instruction} (h : (execute p types i m w).flow = .ok .next) :
    execute p types i m w = perform p types i m w := by
  unfold execute at h ⊢
  split at h
  · cases h
  · rfl

theorem execute_resource (p : Program) (types : Registry W) (op : ResourceOp) (m : Memory)
    (w : W) :
    (∃ f, execute p types (.resource op) m w = .fault f m w) ∨
      ∃ s, Staged.ofMemory types op m = .ok s ∧
        execute p types (.resource op) m w = s.perform p.tables.rom m w := by
  unfold execute
  split
  · exact .inl ⟨_, rfl⟩
  · rw [perform]
    split
    · exact .inl ⟨_, rfl⟩
    · next s hs => exact .inr ⟨s, hs, rfl⟩

/-! ### Instructions of a body -/

namespace Resource

variable {r : Resource} {createMissing : Bool} {routine : Routine} {K K' : Known}
  {i : Instruction} {rest : List Instruction}

/-- What is staged in a body is what the body was made for. -/
theorem Typed.staged {op : ResourceOp} (ht : Typed r createMissing routine K (.resource op) K')
    (h : K.Spells m) {s : Staged W} (hs : Staged.ofMemory types op m = .ok s) :
    s.op = op ∧ s.typeId = r.typeId ∧ OwnedBy r.name s.name ∧
      K' = K.did op s.name ∧ (op = .rescmp → s.name = r.name) := by
  obtain ⟨hop, hname, htypeId, -⟩ := Staged.ofMemory_eq_ok.1 hs
  cases ht with
  | @operation name _ hscratch hdesc _ howned hrescmp =>
    rw [h.requireStr hscratch] at hname
    rw [h.requireStr hdesc] at htypeId
    obtain rfl := Except.ok.inj hname
    exact ⟨hop, (Except.ok.inj htypeId).symm, howned, rfl, fun hop => (hrescmp hop).1⟩

/-- **An instruction of a body touches what the body was made for, and nothing else.** -/
theorem Typed.touches (ht : Typed r createMissing routine K i K')
    (hchecked : Checked r createMissing routine K' rest)
    (hwrites : ∀ op, op = .create ∨ op = .markDeletable → i = .resource op → K.decided ≠ [])
    (h : K.Spells m) : m.Touches r.name (execute p types i m w).memory := by
  have hkeeps : Keeps p r routine i K' m (execute p types i m w) := ht.keeps hchecked hwrites h
  have hscratch : ∀ {m' : Memory}, (∃ temp, m' = { m with temp }) → m.Touches r.name m' := by
    rintro _ ⟨temp, rfl⟩
    exact (m.sameTables_temp temp).touches r.name
  cases hflow : (execute p types i m w).flow with
  | error f => exact hscratch (hkeeps.fault f hflow).2
  | ok flow =>
    cases flow with
    | jump a => exact hscratch ⟨m.temp, (hkeeps.jump a hflow).2⟩
    | stay => exact hscratch ⟨m.temp, (hkeeps.stay hflow).2⟩
    | next =>
      have hnext : execute p types i m w =
          .next (execute p types i m w).memory (execute p types i m w).world := by
        rw [Outcome.next, ← hflow]
      cases ht with
      | forget _ _ htable hkey =>
        rw [execute_of_next hflow, perform, h.writeStaged_null htable hkey]
        exact ⟨fun n hn => Table.get?_erase_of_not_ownedBy (.inl rfl) hn _, fun _ _ => rfl,
          fun _ _ => rfl, .inl rfl⟩
      | settle d htable hkey =>
        rw [execute_of_next hflow, perform, h.writeStaged_decision htable hkey]
        refine ⟨fun _ _ => rfl, fun _ _ => rfl, fun n hn => ?_, .inl rfl⟩
        exact (Table.get?_insert _ _ _ _).trans (if_neg hn.symm)
      | operation op hname hdesc hobjects howned hrescmp =>
        rcases execute_resource p types op m w with ⟨f, hfault⟩ | ⟨s, hs, hperform⟩
        · rw [hfault] at hflow
          cases hflow
        have ht : Typed r createMissing routine K (.resource op) (K.did op _) :=
          .operation op hname hdesc hobjects howned hrescmp
        obtain ⟨rfl, -, hown, hdid, hself⟩ := ht.staged h hs
        rw [hperform] at hflow ⊢
        refine ((s.behaves_perform p.tables.rom m w).next hflow).touches hown ?_
        rintro (hmark | hcompared)
        · rw [hdid] at hchecked
          exact (hchecked.own (.inr hmark) (hwrites s.op (.inr hmark) rfl)).1
        · exact hself hcompared
      | _ => exact hscratch (temp_of_quiet rfl hnext)

theorem create_of_asks {op : ResourceOp} {request : Request} (h : op.asks request = true) :
    op = .create ↔ ∃ properties, request = .create properties := by
  cases op <;> cases request <;> simp_all [ResourceOp.asks]

/-- **An operation of a body speaks of the objects of its resource, under their type.** -/
theorem Typed.concerns (ht : Typed r createMissing routine K i K') (h : K.Spells m) :
    ∀ x ∈ (execute p types.recorded i m (w, [])).world.2, x.Concerns r.name r.typeId m := by
  intro x hx
  cases hi : i.isResourceOp with
  | false =>
    rw [world_execute hi] at hx
    cases hx
  | true =>
    obtain ⟨op, rfl⟩ : ∃ op, i = .resource op := by
      cases i <;> first | exact ⟨_, rfl⟩ | cases hi
    rcases execute_resource p types.recorded op m (w, []) with ⟨f, hfault⟩ | ⟨s', hs', hperform⟩
    · rw [hfault] at hx
      cases hx
    rw [Staged.ofMemory_recorded] at hs'
    obtain ⟨s, hs, rfl⟩ := map_eq_ok.1 hs'
    obtain ⟨rfl, htypeId, hown, -, -⟩ := ht.staged h hs
    rw [hperform] at hx
    have hspoken := ((s.records_perform p.tables.rom m (w, [])).said x hx).resolve_left nofun
    refine ⟨hspoken.typeId.trans htypeId, ?_⟩
    have hid := hspoken.id
    have hcreate := create_of_asks hspoken.request
    unfold Staged.handle at hid
    split at hid
    · next hop =>
      obtain ⟨properties, hrequest⟩ := hcreate.1 hop
      exact .inl ⟨properties, hrequest, hid⟩
    · next hop =>
      exact .inr ⟨fun properties hrequest => hop (hcreate.2 ⟨properties, hrequest⟩),
        s.name, hown, hid⟩

/-- What an operation of a body is logged as names what the body was made for. -/
theorem Typed.names (ht : Typed r createMissing routine K i K') (h : K.Spells m) :
    ∀ o ∈ Run.logged i m, OwnedBy r.name o.resource := by
  cases ht with
  | operation op hname _ _ howned =>
    intro o ho
    rw [Run.logged_resource, Run.stagedName, h.text _ _ hname] at ho
    obtain rfl := List.mem_singleton.1 ho
    exact howned
  | _ => exact nofun

end Resource

end

/-! ### Steps -/

namespace Run

variable {W : Type} {p : Program} {types : Registry W} {r : Run W}

theorem isolated_of_ended (h : r.ended p = true) (owner typeId : String) :
    r.Isolated p types owner typeId where
  tables := by
    rw [step_of_ended h]
    exact (Memory.sameTables_temp _ r.memory.temp).touches owner
  said := by
    rw [exchanges_of_ended h]
    exact nofun
  logged := ⟨[], by rw [step_of_ended h, List.append_nil], nofun⟩

theorem sameTables_settle (log : List Operation) (o : Outcome W) (pc : Nat) :
    o.memory.SameTables (settle log o pc).memory := by
  unfold settle
  split <;> exact ⟨rfl, rfl, rfl, rfl⟩

theorem isolated_of_instruction {i : Instruction} {owner typeId : String}
    (hrunning : r.ended p = false) (hi : p.instructions[r.memory.programCounter]? = some i)
    (htouches : r.memory.Touches owner (execute p types i r.memory r.world).memory)
    (hsaid : ∀ x ∈ (execute p types.recorded i r.memory (r.world, [])).world.2,
      x.Concerns owner typeId r.memory)
    (hlogged : ∀ o ∈ Run.logged i r.memory, OwnedBy owner o.resource) :
    r.Isolated p types owner typeId where
  tables := by
    rw [step_of_instruction hrunning hi]
    exact htouches.congr (sameTables_settle _ _ _)
  said := by
    rw [exchanges_of_instruction hrunning hi]
    exact hsaid
  logged := ⟨Run.logged i r.memory, by rw [step_of_instruction hrunning hi, log_settle], hlogged⟩

end Run

namespace Compilation

variable {plan : Plan} {c : Compilation plan} {W : Type} {types : Registry W} {r : Run W}

theorem isolated_of_inBody {ra : Resource × Action} {routine : Routine}
    {before rest : List Instruction} {K : Known}
    (h : c.InBody ra routine before rest K r.memory) :
    r.Isolated c.program types ra.1.name ra.1.typeId := by
  cases hended : r.ended c.program with
  | true => exact Run.isolated_of_ended hended _ _
  | false =>
    cases h.checked with
    | ret =>
      refine Run.isolated_of_instruction hended (instruction_body h) ?_ ?_ (List.forall_mem_nil _)
      · rw [execute_eq_perform (by simp [Instruction.requiredKeys]), perform]
        split
        · exact (Memory.sameTables_temp _ r.memory.temp).touches _
        · have hpopped : r.memory.SameTables
              { r.memory with callStack := r.memory.callStack.dropLast } := ⟨rfl, rfl, rfl, rfl⟩
          exact hpopped.touches _
      · rw [world_execute rfl]
        exact List.forall_mem_nil _
    | @step _ K' i rest ht hrest =>
      exact Run.isolated_of_instruction hended (instruction_body h)
        (ht.touches hrest h.decided_of_writes h.spells) (ht.concerns h.spells) (ht.names h.spells)

theorem InBody.place {ra : Resource × Action} {routine : Routine}
    {before rest : List Instruction} {K : Known} {m : Memory}
    (h : c.InBody ra routine before rest K m) {body : Subroutine} {start : Nat}
    (hplaced : (body, start) ∈ c.layout.placed) (hle : start ≤ m.programCounter)
    (hlt : m.programCounter < start + body.size) :
    body = ra.1.piece plan.createMissing routine := by
  obtain ⟨start', hplaced', hcounter⟩ := h.programCounter
  have hsize : before.length < (ra.1.piece plan.createMissing routine).size := by
    rw [← Layout.length_body, h.body, List.length_append]
    have hrest : 0 < rest.length := by cases h.checked <;> exact Nat.succ_pos _
    omega
  have hinside : start' ≤ m.programCounter ∧
      m.programCounter < start' + (ra.1.piece plan.createMissing routine).size := by omega
  exact congrArg Prod.fst (Layout.eq_of_place hplaced hplaced' ⟨hle, hlt⟩ hinside)

theorem isolated_of_placed (h : c.Located r.memory) {body : Subroutine} {start : Nat}
    (hplaced : (body, start) ∈ c.layout.placed) (hle : start ≤ r.memory.programCounter)
    (hlt : r.memory.programCounter < start + body.size) :
    ∃ typeId, plan.typeOf? body.owner = some typeId ∧
      r.Isolated c.program types body.owner typeId := by
  cases h with
  | driver hcounter =>
    have hdriver : c.layout.driver.length ≤ start := Layout.le_of_placedFrom hplaced
    omega
  | body hbody =>
    rw [hbody.place hplaced hle hlt]
    exact ⟨_, typeOf?_of_mem hbody.planned, isolated_of_inBody hbody⟩
  | stopped hstopped =>
    obtain ⟨ra, hra, piece, -, rfl⟩ := exists_piece (Layout.mem_values_of_placed hplaced)
    exact ⟨_, typeOf?_of_mem hra, Run.isolated_of_ended hstopped _ _⟩

end Compilation

/-- **Resources are isolated.**  Whatever the names of a plan, whatever the backends: where a run
of the compiled program stands inside a body, the next step touches, speaks of and logs what
belongs to the resource that the body was made for, and nothing else. -/
theorem isolated_of_steps {plan : Plan} {p : Program} (h : plan.compile = .ok p) :
    ∃ c : Compilation plan, c.program = p ∧
      ∀ {W : Type} (types : Registry W) (w : W) (n : Nat) (body : Subroutine) (start : Nat),
        (body, start) ∈ c.layout.placed →
        start ≤ (Run.steps p types n (Run.fresh w)).memory.programCounter →
        (Run.steps p types n (Run.fresh w)).memory.programCounter < start + body.size →
        ∃ typeId, plan.typeOf? body.owner = some typeId ∧
          (Run.steps p types n (Run.fresh w)).Isolated p types body.owner typeId := by
  obtain ⟨c, rfl⟩ := Compilation.compile_eq_ok.1 h
  refine ⟨c, rfl, ?_⟩
  intro W types w n body start hplaced hle hlt
  exact Compilation.isolated_of_placed (c.footing_steps types w n).located hplaced hle hlt

/-- A provider whose objects have their identifiers as names, and contents that are out of
date. -/
def datedProvider : Provider Unit where
  ask id request w := match request with
    | .read _ => (.ok [("name", id.getD .null), ("contents", .str "old")], w)
    | other => plainProvider.ask id other w

/-- The one type of plain plans, with that provider. -/
def datedTypes : Registry Unit :=
  Table.ofList [("file", ⟨plainSchema false, some datedProvider⟩)]

/-- Two routines share a label here, so the check of `y` is led into the routine that sends the
fields of `check_y`.  What is sent there concerns `check_y` all the same. -/
theorem isolated_of_steps_shared :
    ∃ p, (plainPlan false ["y", "check_y"] ["y", "check_y"] false).compile = .ok p ∧
      p.instructions[3]? = some (.call (Routine.checkUpdate.label "y")) ∧
      (Run.steps p datedTypes 70 (Run.fresh ())).memory.callStack = [3] ∧
      (Run.exchanges p datedTypes (Run.steps p datedTypes 70 (Run.fresh ()))).map
          Exchange.request = [.read ["name"], .update [("contents", .str "new")]] ∧
      (Run.steps p datedTypes 70 (Run.fresh ())).Isolated p datedTypes "check_y" "file" := by
  obtain ⟨p, hp⟩ :
      ∃ p, (plainPlan false ["y", "check_y"] ["y", "check_y"] false).compile = .ok p := ⟨_, rfl⟩
  obtain ⟨c, hc, hisolated⟩ := isolated_of_steps hp
  have hplaced : ∀ l, (plainPlan false ["y", "check_y"] ["y", "check_y"] false).layout = .ok l →
      ∃ e ∈ l.placed, e.1.owner = "check_y" ∧ e.2 ≤ 135 ∧ 135 < e.2 + e.1.size := by
    intro l hl
    cases hl
    decide +kernel
  obtain ⟨⟨body, start⟩, hmem, howner, hle, hlt⟩ := hplaced c.layout c.layout_eq
  have hcounter : (Run.steps p datedTypes 70 (Run.fresh ())).memory.programCounter = 135 := by
    cases hp
    decide +kernel
  obtain ⟨typeId, htype, hrun⟩ := hisolated datedTypes () 70 body start hmem
    (hcounter ▸ hle) (hcounter ▸ hlt)
  dsimp only at howner
  rw [howner] at htype hrun
  obtain rfl : "file" = typeId := Option.some.inj (htype ▸ by decide +kernel)
  exact ⟨p, hp, by cases hp; decide +kernel, by cases hp; decide +kernel,
    by cases hp; decide +kernel, hrun⟩

end Provisioning
