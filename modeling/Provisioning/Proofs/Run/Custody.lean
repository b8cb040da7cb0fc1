/-
No object is forgotten.

An identifier that was tracked when a run began stays in custody: under the name of its
resource, or under the name where the resource puts things aside, until its object is known
to be gone.  And a new identifier, once it is given, stays where it is.

Only three things take an identifier away from the name of a resource without looking at what
they take away: that what is missing is forgotten, that a new identifier is written over it,
and that a deletion is confirmed.  The last one was asked about the identifier that is there,
so the object is gone.  The routine that forgets is only ever entered because the probe, asked
about the identifier that is there, found nothing.  And before a new identifier is written,
the old one was forgotten so, or deleted, or put aside.  What is put aside is only taken away
by a confirmed deletion, as nothing is put aside where something is.
-/
import Provisioning.Proofs.Run.Identifiers

namespace Provisioning

/-- The object with an identifier, tracked under a name when the run began, is known to be gone
after `n` steps. -/
inductive Gone {W : Type} (p : Program) (types : Registry W) (w : W) (n : Nat) (name : String)
    (id : Json) : Prop
  /-- Its deletion was confirmed, under its name or where it was put aside. -/
  | deleted {t : Nat} {typeId name' : String} : t < n → name' = name ∨ name' = deletable name →
    Run.Hears p types (Run.steps p types t (Run.fresh w)) (ResourceOp.checkDelete.record name')
      ⟨typeId, some id, .deleteComplete, .ok true⟩ → Gone p types w n name id
  /-- The probe did not find it. -/
  | missing {t : Nat} {typeId : String} : t < n →
    Run.Hears p types (Run.steps p types t (Run.fresh w)) (ResourceOp.checkExist.record name)
      ⟨typeId, some id, .found, .ok false⟩ → Gone p types w n name id

theorem Gone.mono {W : Type} {p : Program} {types : Registry W} {w : W} {n n' : Nat}
    {name : String} {id : Json} (h : Gone p types w n name id) (hn : n ≤ n') :
    Gone p types w n' name id := by
  cases h with
  | deleted ht hname hhears => exact .deleted (Nat.lt_of_lt_of_le ht hn) hname hhears
  | missing ht hhears => exact .missing (Nat.lt_of_lt_of_le ht hn) hhears

/-- No declared name is the name where another one puts things aside. -/
def Plan.Apart (plan : Plan) : Prop :=
  ∀ n ∈ plan.declaration.resources.keys, ∀ n' ∈ plan.declaration.resources.keys, n ≠ deletable n'

namespace Compilation

variable {plan : Plan} {W : Type} {c : Compilation plan} {types : Registry W} {w : W}

/-- The object is known to be gone, or its identifier is where it was put aside. -/
def Safe (c : Compilation plan) (types : Registry W) (w : W) (n : Nat) (name : String)
    (id : Json) : Prop :=
  (c.after types w n).memory.remoteIds.get? (deletable name) = some id ∨
    Gone c.program types w n name id

/-- The object is tracked, or safe. -/
def Held (c : Compilation plan) (types : Registry W) (w : W) (n : Nat) (name : String)
    (id : Json) : Prop :=
  (c.after types w n).memory.remoteIds.get? name = some id ∨ c.Safe types w n name id

theorem declared_of_action {ra : Resource × Action} (hra : ra ∈ c.actions)
    (h : ra.2 ≠ .delete) : ra.1.name ∈ plan.declaration.resources.keys :=
  Table.mem_keys_of_get? ((c.planned hra).declared h)

/-! ### What the words allow -/

section

variable {r : Run W} {k : Nat} {ra : Resource × Action} {routine : Routine}
  {before rest : List Instruction} {K : Known} {s : Staged W}

/-- What is created is declared, and has not been created before. -/
theorem create_of_faces (hd : c.Distinct)
    (h : c.Faces types k ra routine before rest K s r.memory) (herror : r.memory.error = none)
    (hop : s.op = .create) :
    s.name = ra.1.name ∧ ra.2 ≠ .delete ∧ ra.1.did .create ∉
      c.achieved (.routine k ra routine before (.resource s.op :: rest) K) ra
        (r.memory.decisions.get? ra.1.name) := by
  have hpossible := possible_of_faces hd h herror
  have hnodup := hpossible.nodup
  obtain ⟨d, -, -, hprefix⟩ := hpossible
  rw [hop] at hprefix hnodup ⊢
  obtain ⟨hname, haction, -⟩ := Resource.create_of_isPrefix hprefix
  refine ⟨hname, haction, fun hmem => ?_⟩
  rw [hname] at hnodup
  exact (List.nodup_append.1 hnodup).2.2 _ hmem _ (List.mem_singleton.2 rfl) rfl

/-- What is put aside is the old object of an update. -/
theorem putAside_of_faces (hd : c.Distinct)
    (h : c.Faces types k ra routine before rest K s r.memory) (herror : r.memory.error = none)
    (hop : s.op = .markDeletable) :
    s.name = ra.1.name ∧ ra.2 = .update ∧ ra.1.did .create ∉
      c.achieved (.routine k ra routine before (.resource s.op :: rest) K) ra
        (r.memory.decisions.get? ra.1.name) := by
  obtain ⟨d, -, -, hprefix⟩ := possible_of_faces hd h herror
  rw [hop] at hprefix ⊢
  exact Resource.markDeletable_of_isPrefix hprefix

/-- A deletion is confirmed of the old object, or of what an update has put aside. -/
theorem checkDelete_of_faces (hd : c.Distinct)
    (h : c.Faces types k ra routine before rest K s r.memory) (herror : r.memory.error = none)
    (hop : s.op = .checkDelete) :
    (s.name = ra.1.name ∧ ra.1.did .create ∉
      c.achieved (.routine k ra routine before (.resource s.op :: rest) K) ra
        (r.memory.decisions.get? ra.1.name)) ∨
      (s.name = deletable ra.1.name ∧ ra.2 = .update) := by
  obtain ⟨d, -, -, hprefix⟩ := possible_of_faces hd h herror
  rw [hop] at hprefix ⊢
  exact Resource.checkDelete_of_isPrefix hprefix

theorem checkExist_of_faces (hd : c.Distinct)
    (h : c.Faces types k ra routine before rest K s r.memory) (herror : r.memory.error = none)
    (hop : s.op = .checkExist) : s.name = ra.1.name := by
  obtain ⟨d, -, -, hbegin⟩ := possible_of_faces hd h herror
  have hmem := hbegin.subset (List.mem_append_right _ List.mem_cons_self)
  rw [hop] at hmem
  exact Resource.checkExist_of_mem hmem

theorem update_of_missing {m : Memory} {rest : List Instruction}
    (h : c.InRoutine k ra .missingCreate before rest K m) : ra.2 = .update := by
  obtain ⟨step, hneeded⟩ := h.needed
  exact (Resource.action_of_mem hneeded).symm

theorem achieved_of_start {m : Memory} {rest : List Instruction} {d : Option Decision}
    (h : c.InRoutine k ra routine before rest K m) (hphase : routine.phase = .start) :
    c.achieved (.routine k ra routine before rest K) ra d = K.records := by
  have hpast := (past_eq_nil_iff h.scheduled).2 hphase
  unfold achieved finished
  show (c.past k ra.1.name).flatMap _ ++ (if ra.1.name = ra.1.name then K.records else []) = _
  rw [hpast, if_pos rfl]
  rfl

end

/-! ### What is put aside -/

section

variable {n : Nat} {place place' : Place} {name : String} {id : Json}

theorem hears_of_faces {k : Nat} {ra : Resource × Action} {routine : Routine}
    {before rest : List Instruction} {K : Known} {s : Staged W} (hd : c.Distinct)
    (hfaces : c.Faces types k ra routine before rest K s (c.after types w n).memory)
    (hadvances : c.Advances types (c.after types w n) (c.after types w (n + 1)) place place')
    {e : Exchange} (he : e ∈ Run.exchanges c.program types (c.after types w n)) :
    Run.Hears c.program types (Run.steps c.program types n (Run.fresh w))
      (s.op.record s.name) e :=
  ⟨upcoming_of_faces hfaces (hadvances.not_ended hd), he⟩

theorem tracked_or_gone (hd : c.Distinct) {slot : String}
    (hslot : slot = name ∨ slot = deletable name)
    (hundeclared : ∀ ra ∈ c.actions, ra.2 ≠ .delete → ra.1.name ≠ slot) (hid : id ≠ .null)
    (hplace : place ≠ .start)
    (hadvances : c.Advances types (c.after types w n) (c.after types w (n + 1)) place place')
    (h : (c.after types w n).memory.remoteIds.get? slot = some id) :
    (c.after types w (n + 1)).memory.remoteIds.get? slot = some id ∨
      Gone c.program types w (n + 1) name id := by
  cases hadvances.turns hplace slot with
  | kept hkept => exact .inl (hkept.trans h)
  | forgotten _ hroutine _ howner =>
    have hupdate := update_of_missing hroutine
    exact absurd howner (hundeclared _ hroutine.planned (by rw [hupdate]; nofun))
  | created _ hfaces hop hstaged =>
    obtain ⟨howner, haction, -⟩ := create_of_faces hd hfaces hadvances.running hop
    exact absurd (howner.symm.trans hstaged) (hundeclared _ hfaces.inRoutine.planned haction)
  | deleted _ hfaces hop hstaged hexchanges =>
    rw [Memory.remoteId_of_get? hid h] at hexchanges
    have hhears := hears_of_faces hd hfaces hadvances
      (by rw [hexchanges]; exact List.mem_singleton.2 rfl)
    rw [hop, hstaged] at hhears
    exact .inr (.deleted (Nat.lt_succ_self n) hslot hhears)
  | putAside _ hfaces hop hstaged =>
    obtain ⟨howner, hupdate, -⟩ := putAside_of_faces hd hfaces hadvances.running hop
    exact absurd (howner.symm.trans hstaged)
      (hundeclared _ hfaces.inRoutine.planned (by rw [hupdate]; nofun))
  | received _ _ _ _ hfree =>
    rw [Memory.remoteId_of_get? hid h] at hfree
    cases hfree

theorem Safe.step (hd : c.Distinct) (hapart : plan.Apart)
    (hname : name ∈ plan.declaration.resources.keys) (hid : id ≠ .null) (hplace : place ≠ .start)
    (hadvances : c.Advances types (c.after types w n) (c.after types w (n + 1)) place place')
    (h : c.Safe types w n name id) : c.Safe types w (n + 1) name id := by
  rcases h with haside | hgone
  · exact tracked_or_gone hd (.inr rfl)
      (fun ra hra haction => hapart _ (declared_of_action hra haction) _ hname) hid hplace hadvances
      haside
  · exact .inr (hgone.mono (Nat.le_succ n))

theorem Safe.mono (hd : c.Distinct) (hapart : plan.Apart)
    (hname : name ∈ plan.declaration.resources.keys) (hid : id ≠ .null) {t : Nat} (ht : 0 < t)
    (h : c.Safe types w t name id) (hreaches : c.Reaches types w n place) (hn : t ≤ n) :
    c.Safe types w n name id := by
  induction hreaches with
  | start => exact absurd (Nat.lt_of_lt_of_le ht hn) (Nat.lt_irrefl 0)
  | @step n place place' hreaches hadvances ih =>
    rcases Nat.lt_or_eq_of_le hn with hlt | rfl
    · have hn : t ≤ n := Nat.le_of_lt_succ hlt
      exact (ih hn).step hd hapart hname hid (hreaches.ne_start (Nat.lt_of_lt_of_le ht hn))
        hadvances
    · exact h

end

/-! ### The probe -/

section

variable {n k : Nat} {ra : Resource × Action} {routine : Routine}
  {before rest : List Instruction} {K : Known}

theorem update_of_target {createMissing : Bool}
    (h : Routine.missingCreate ∈ routine.targets createMissing) :
    routine = .update ∧ createMissing = true := by
  revert h
  cases routine <;> cases createMissing <;> decide

theorem forPhase_ne_missing (action : Action) (phase : Phase) :
    Routine.forPhase action phase ≠ .missingCreate := by
  cases action <;> cases phase <;> nofun

theorem before_of_probe {r : Resource}
    (h : (r.piece true .update).body =
      before ++ .gotoIf (.label (Routine.missingCreate.label r.name)) :: rest) :
    before = (.clear :: Emit.load r.name r.typeId) ++ [.resource .checkExist] ++ [.invert] := by
  have hbody : (r.piece true .update).body =
      ((.clear :: Emit.load r.name r.typeId) ++ [.resource .checkExist] ++ [.invert]) ++
        .gotoIf (.label (Routine.missingCreate.label r.name)) :: (Emit.reconcile r ++ [.ret]) := by
    simp [Resource.piece, Subroutine.body, Resource.script, Emit.probe, Emit.onResource]
  rw [hbody] at h
  refine ((List.append_cons_inj_of_notMem ?_ ?_).1 h).1.symm
  · simp [Emit.load]
  · have hrecreate : Routine.recreate.label r.name ≠ Routine.missingCreate.label r.name :=
      fun heq => absurd (Routine.label_left_inj heq) (by decide)
    have hmodify : Routine.modify.label r.name ≠ Routine.missingCreate.label r.name :=
      fun heq => absurd (Routine.label_left_inj heq) (by decide)
    simp [Emit.reconcile, Emit.onResource, Emit.load, Emit.branch, hrecreate.symm, hmodify.symm]

/-- The test behind the probe goes on what the probe has found. -/
theorem result_of_invert {r r' : Run W} {K' : Known}
    (hroutine : c.InRoutine k ra routine before (.invert :: rest) K r.memory)
    (h : c.Executes types r (.routine k ra routine before (.invert :: rest) K)
      (.routine k ra routine (before ++ [.invert]) rest K') r') :
    ∃ b : Bool, r.memory.temp.get? Memory.resultKey = some (.int (if b then 1 else 0)) ∧
      r'.memory.temp.get? Memory.resultKey = some (.int (if !b then 1 else 0)) := by
  obtain ⟨ht, m, hexecute, hmemory⟩ := h.executed
  cases ht with
  | invert hflag =>
    obtain ⟨v, hv, b, rfl⟩ := hroutine.fits.scratch _ _ hflag
    have hinvert : execute c.program types .invert r.memory r.world =
        .next (r.memory.setTest (!b)) r.world := by
      show perform c.program types .invert r.memory r.world = _
      rw [perform, Memory.result_of_get? hv]
      cases b <;> rfl
    obtain rfl : m = r.memory.setTest (!b) := congrArg Outcome.memory (hexecute.symm.trans hinvert)
    refine ⟨b, hv, ?_⟩
    rw [hmemory]
    exact (Entries.get?_set _ _ _ _).trans (if_pos rfl)

theorem hears_of_probe {r r' : Run W} {K' : Known} (hd : c.Distinct)
    (htypes : ∀ t ∈ plan.declaration.catalog.keys, t ∈ types.keys)
    (h : c.Advances types r r' (.routine k ra routine before (.resource .checkExist :: rest) K)
      (.routine k ra routine (before ++ [.resource .checkExist]) rest K'))
    (hresult : r'.memory.temp.get? Memory.resultKey = some (.int 0)) :
    Run.Hears c.program types r (ResourceOp.checkExist.record ra.1.name)
      ⟨ra.1.typeId, r.memory.remoteId ra.1.name, .found, .ok false⟩ := by
  obtain ⟨s, m, hop, hfaces, -, hperformed, hmemory⟩ := h.performed hd htypes
  have hname : s.name = ra.1.name := checkExist_of_faces hd hfaces h.running hop
  have htest : ∀ {b : Bool}, m = r.memory.setTest b → b = false := by
    rintro b rfl
    have hset : r'.memory.temp.get? Memory.resultKey = some (.int (if b then 1 else 0)) := by
      rw [hmemory]
      exact (Entries.get?_set _ _ _ _).trans (if_pos rfl)
    rw [hset] at hresult
    cases b with
    | false => rfl
    | true => exact absurd hresult (by decide)
  have hlogged := upcoming_of_faces hfaces (h.not_ended hd)
  rw [hop, hname] at hlogged
  refine ⟨hlogged, ?_⟩
  rcases hperformed.of_checkExist hop with ⟨p, found, -, -, hm, hexchanges⟩ | ⟨-, hm, -⟩
  · obtain rfl := htest hm
    rw [hexchanges, hname, hfaces.serves.typeId]
    exact List.mem_cons_self
  · exact absurd (htest hm) (by decide)

/-- What jumps to the replacement of a missing object was told that it is missing. -/
theorem Reaches.probed_of_jump (hd : c.Distinct)
    (htypes : ∀ t ∈ plan.declaration.catalog.keys, t ∈ types.keys)
    (h : c.Reaches types w n (.routine k ra routine before
      (.gotoIf (.label (Routine.missingCreate.label ra.1.name)) :: rest) K))
    {a : Nat} {w' : W}
    (hjump : execute c.program types (.gotoIf (.label (Routine.missingCreate.label ra.1.name)))
      (c.after types w n).memory (c.after types w n).world =
        ⟨.ok (.jump a), (c.after types w n).memory, w'⟩) :
    ∃ t, 0 < t ∧ t < n ∧ (∃ p, c.Reaches types w t p) ∧
      Run.Hears c.program types (c.after types w t) (ResourceOp.checkExist.record ra.1.name)
        ⟨ra.1.typeId, (c.after types w t).memory.remoteId ra.1.name, .found, .ok false⟩ := by
  have hroutine : c.InRoutine k ra routine before _ K _ := h.stands.1
  obtain ⟨rfl, hmissing⟩ := update_of_target (target_of_gotoIf hroutine)
  obtain ⟨start, -, hlabel⟩ := label_eq hd hroutine.planned (needed_of_gotoIf hroutine).1
  have hbody := hroutine.body
  rw [hmissing] at hbody
  obtain rfl := before_of_probe hbody
  -- The test stands before the jump, and the probe before the test.
  obtain ⟨t₁, ht₁, K₁, hreached₁, hadvanced₁, heq₁⟩ := h.previous
  obtain ⟨t₂, ht₂, K₂, hreached₂, hadvanced₂, heq₂⟩ := hreached₁.previous
  obtain ⟨b, hresult, hresult'⟩ := result_of_invert hreached₁.stands.1 hadvanced₁.executes
  have hb : b = false := by
    rw [heq₁, Resource.execute_gotoIf hresult' hlabel] at hjump
    cases b with
    | false => rfl
    | true => cases hjump
  subst hb
  refine ⟨t₂, hreached₂.pos nofun, ht₂.trans ht₁, ⟨_, hreached₂⟩, ?_⟩
  exact hears_of_probe hd htypes hadvanced₂ (heq₂ ▸ hresult)

/-- **What replaces a missing object is only entered when the probe, asked about the identifier
that was tracked, has found nothing.** -/
theorem Reaches.probed (hd : c.Distinct)
    (htypes : ∀ t ∈ plan.declaration.catalog.keys, t ∈ types.keys)
    (h : c.Reaches types w n (.routine k ra .missingCreate before rest K)) :
    ∃ t, 0 < t ∧ t < n ∧ (∃ p, c.Reaches types w t p) ∧
      Run.Hears c.program types (c.after types w t) (ResourceOp.checkExist.record ra.1.name)
        ⟨ra.1.typeId, (c.after types w t).memory.remoteId ra.1.name, .found, .ok false⟩ := by
  generalize hplace : Place.routine k ra .missingCreate before rest K = place at h
  induction h generalizing before rest K with
  | start => cases hplace
  | @step n p p' hreaches hadvances ih =>
    subst hplace
    have hexecutes := hadvances.executes
    generalize hplace : Place.routine k ra .missingCreate before rest K = place' at hexecutes
    generalize hafter : c.after types w (n + 1) = r' at hexecutes
    cases hexecutes with
    | init | halt | ret => cases hplace
    | call =>
      injection hplace with _ _ hroutine
      exact absurd hroutine.symm (forPhase_ne_missing _ _)
    | @jump k a ra routine target before rest K w' hroutine _ _ hjump =>
      cases hplace
      obtain ⟨t, hpos, ht, hreached, hhears⟩ := hreaches.probed_of_jump hd htypes hjump
      exact ⟨t, hpos, Nat.lt_succ_of_lt ht, hreached, hhears⟩
    | next | wait =>
      cases hplace
      obtain ⟨t, hpos, ht, hreached, hhears⟩ := ih rfl
      exact ⟨t, hpos, Nat.lt_succ_of_lt ht, hreached, hhears⟩

end

/-! ### What is tracked -/

section

variable {n : Nat} {place : Place} {name : String} {tracked : Tracked}

/-- Before an update creates, its object was found missing, or put aside, or deleted. -/
theorem Reaches.vacated {k : Nat} {ra : Resource × Action} {routine : Routine}
    {before rest : List Instruction} {K : Known} {s : Staged W} (hd : c.Distinct)
    (h : c.Reaches types w n (.routine k ra routine before (.resource s.op :: rest) K))
    (hfaces : c.Faces types k ra routine before rest K s (c.after types w n).memory)
    (hop : s.op = .create) (hupdate : ra.2 = .update) :
    routine = .missingCreate ∨
      ∃ o ∈ c.achieved (.routine k ra routine before (.resource s.op :: rest) K) ra
        ((c.after types w n).memory.decisions.get? ra.1.name),
        o = ra.1.did .markDeletable ∨ o = ra.1.did .checkDelete := by
  obtain ⟨d, -, -, hprefix⟩ := possible_of_faces hd hfaces h.stands.2
  rw [hop] at hprefix
  rcases (Resource.create_of_isPrefix hprefix).2.2 hupdate with ⟨-, hprobing⟩ | ⟨-, hmem | hmem⟩
  · left
    obtain ⟨step, hneeded⟩ := hfaces.inRoutine.needed
    have haction : routine.action = ra.2 := Resource.action_of_mem hneeded
    have hmem : Instruction.resource .create ∈ (ra.1.piece plan.createMissing routine).body := by
      rw [hfaces.inRoutine.body, hop]
      simp
    have hcreates := Resource.creates_of_mem_body hmem
    cases routine with
    | missingCreate => rfl
    | create => rw [hupdate] at haction; cases haction
    | recreate =>
      -- What is replaced because it has changed was read before.
      have hread : ra.1.did .read ∈ K.records :=
        h.preceding_isPrefix.subset (by simp [Resource.preceding])
      have hroutine := hfaces.inRoutine
      rw [hop] at hroutine
      rw [← achieved_of_start hroutine rfl, hprobing] at hread
      unfold Resource.probing at hread
      split at hread <;> simp [Resource.did, ResourceOp.record_inj] at hread
    | _ => cases hcreates
  · rw [hop]
    exact .inr ⟨_, hmem, .inl rfl⟩
  · rw [hop]
    exact .inr ⟨_, hmem, .inr rfl⟩

/-- What makes room keeps the identifier that was there, or has deleted its object. -/
theorem Does.safe {t : Nat} {ra : Resource × Action} {s : Staged W} {id : Json} (hd : c.Distinct)
    (h : c.Does types w t ra s)
    (hs : s.op.record s.name = ra.1.did .markDeletable ∨
      s.op.record s.name = ra.1.did .checkDelete) (hid : id ≠ .null)
    (hslot : (c.after types w t).memory.remoteIds.get? ra.1.name = some id) :
    c.Safe types w (t + 1) ra.1.name id := by
  have hhears := fun e => h.hears (e := e) hd
  cases h with
  | @intro k routine before rest K m hreaches hfaces hperformed hmemory =>
    rcases hs with hs | hs
    · obtain ⟨hop, hname⟩ := ResourceOp.record_inj.1 hs
      left
      obtain rfl := hperformed.of_markDeletable hop
      rw [hmemory]
      show ((_ : Table Json).insert (deletable s.name) _).get? _ = _
      rw [hname, Table.get?_insert, if_pos rfl, hslot]
      rfl
    · obtain ⟨hop, hname⟩ := ResourceOp.record_inj.1 hs
      right
      obtain ⟨-, hexchanges⟩ := hperformed.of_checkDelete hop
      rw [hexchanges, hop, hname, Memory.remoteId_of_get? hid hslot] at hhears
      exact .deleted (Nat.lt_succ_self t) (.inl rfl) (hhears _ List.mem_cons_self)

theorem Reaches.safe_of_missing {id : Json} (hd : c.Distinct)
    (htypes : ∀ t ∈ plan.declaration.catalog.keys, t ∈ types.keys)
    {k : Nat} {ra : Resource × Action} {before rest : List Instruction} {K : Known}
    (h : c.Reaches types w n (.routine k ra .missingCreate before rest K)) (hid : id ≠ .null)
    (hheld : ∀ t, 0 < t → t ≤ n → c.Held types w t ra.1.name id)
    (hmono : ∀ t, 0 < t → t ≤ n + 1 → c.Safe types w t ra.1.name id →
      c.Safe types w (n + 1) ra.1.name id) : c.Safe types w (n + 1) ra.1.name id := by
  obtain ⟨t, ht, htn, -, hhears⟩ := h.probed hd htypes
  rcases hheld t ht htn.le with hslot | hsafe
  · rw [Memory.remoteId_of_get? hid hslot] at hhears
    exact .inr (.missing (htn.trans (Nat.lt_succ_self n)) hhears)
  · exact hmono t ht (htn.le.trans (Nat.le_succ n)) hsafe

theorem Reaches.safe_of_vacated {id : Json} {ra : Resource × Action} {o : Operation}
    (hd : c.Distinct) (h : c.Reaches types w n place) (hra : ra ∈ c.actions)
    (hmem : o ∈ c.achieved place ra ((c.after types w n).memory.decisions.get? ra.1.name))
    (ho : o = ra.1.did .markDeletable ∨ o = ra.1.did .checkDelete) (hid : id ≠ .null)
    (hheld : ∀ t, 0 < t → t ≤ n → c.Held types w t ra.1.name id)
    (hmono : ∀ t, 0 < t → t ≤ n + 1 → c.Safe types w t ra.1.name id →
      c.Safe types w (n + 1) ra.1.name id) : c.Safe types w (n + 1) ra.1.name id := by
  obtain ⟨t, ht, s, hdoes, rfl⟩ := h.does_of_mem_achieved hra hmem
  have hpos : 0 < t := by
    cases hdoes with
    | intro hreached => exact hreached.pos nofun
  rcases hheld t hpos ht.le with hslot | hsafe
  · exact hmono (t + 1) (Nat.succ_pos t) (Nat.succ_le_succ ht.le) (hdoes.safe hd ho hid hslot)
  · exact hmono t hpos (ht.le.trans (Nat.le_succ n)) hsafe

theorem update_of_tracked {ra : Resource × Action} (hra : ra ∈ c.actions)
    (htracked : plan.prior.get? ra.1.name = some tracked) (haction : ra.2 ≠ .delete) :
    ra.2 = .update := by
  have hnew := (c.planned hra).tracked.1
    (Table.contains_iff.2 (Table.mem_keys_of_get? htracked))
  cases h : ra.2 with
  | update => rfl
  | create => exact absurd h hnew
  | delete => exact absurd h haction

/-- The object of a declared resource that was tracked stays in custody. -/
theorem Reaches.held (hd : c.Distinct)
    (htypes : ∀ t ∈ plan.declaration.catalog.keys, t ∈ types.keys) (hapart : plan.Apart)
    (hname : name ∈ plan.declaration.resources.keys) (htracked : plan.prior.get? name = some tracked)
    (hid : tracked.remoteId ≠ .null) (h : c.Reaches types w n place) (hn : 0 < n) :
    c.Held types w n name tracked.remoteId := by
  induction n using Nat.strong_induction_on generalizing place with
  | _ n ih =>
  cases h with
  | start => exact absurd hn (Nat.lt_irrefl 0)
  | @step n p _ hreaches hadvances =>
    rcases Nat.eq_zero_or_pos n with rfl | hpos
    · obtain rfl := hreaches.eq_start
      left
      rw [hadvances.loaded.1, Table.get?_mapValues, htracked]
      rfl
    have hplace := hreaches.ne_start hpos
    have hheld : ∀ t, 0 < t → t ≤ n → c.Held types w t name tracked.remoteId := by
      intro t ht htn
      obtain ⟨_, _, hreached, -⟩ :=
        (Reaches.step hreaches hadvances).earlier (Nat.lt_succ_of_le htn)
      exact ih t (Nat.lt_succ_of_le htn) hreached ht
    have hmono : ∀ t, 0 < t → t ≤ n + 1 → c.Safe types w t name tracked.remoteId →
        c.Safe types w (n + 1) name tracked.remoteId := fun t ht htn hsafe =>
      hsafe.mono hd hapart hname hid ht (.step hreaches hadvances) htn
    rcases hheld n hpos (Nat.le_refl n) with hslot | hsafe
    · cases hadvances.turns hplace name with
      | kept hkept => exact .inl (hkept.trans hslot)
      | forgotten hp hroutine _ howner =>
        subst hp howner
        exact .inr (hreaches.safe_of_missing hd htypes hid hheld hmono)
      | created hp hfaces hop hstaged =>
        subst hp
        obtain ⟨howner, haction, -⟩ := create_of_faces hd hfaces hadvances.running hop
        have hra := hfaces.inRoutine.planned
        obtain rfl := howner.symm.trans hstaged
        have hupdate := update_of_tracked hra htracked haction
        rcases hreaches.vacated hd hfaces hop hupdate with rfl | ⟨o, hmem, ho⟩
        · exact .inr (hreaches.safe_of_missing hd htypes hid hheld hmono)
        · exact .inr (hreaches.safe_of_vacated hd hra hmem ho hid hheld hmono)
      | deleted hp hfaces hop hstaged hexchanges =>
        rw [Memory.remoteId_of_get? hid hslot] at hexchanges
        have hhears := hears_of_faces hd hfaces hadvances
          (by rw [hexchanges]; exact List.mem_singleton.2 rfl)
        rw [hop] at hhears
        exact .inr (.inr (.deleted (Nat.lt_succ_self n) (.inl hstaged) hhears))
      | putAside _ _ _ _ _ _ haside =>
        rw [hslot] at haside
        exact .inr (.inl haside)
      | received _ _ _ _ hfree =>
        rw [Memory.remoteId_of_get? hid hslot] at hfree
        cases hfree
    · exact .inr (hmono n hpos (Nat.le_succ n) hsafe)

theorem Reaches.held_undeclared (hd : c.Distinct)
    (hname : name ∉ plan.declaration.resources.keys)
    (htracked : plan.prior.get? name = some tracked) (hid : tracked.remoteId ≠ .null)
    (h : c.Reaches types w n place) (hn : 0 < n) :
    (c.after types w n).memory.remoteIds.get? name = some tracked.remoteId ∨
      Gone c.program types w n name tracked.remoteId := by
  induction h, hn using Reaches.begun_induction with
  | loaded hadvances =>
    left
    rw [hadvances.loaded.1, Table.get?_mapValues, htracked]
    rfl
  | @step n _ _ hreaches hpos hadvances ih =>
    rcases ih with hslot | hgone
    · exact tracked_or_gone hd (.inl rfl)
        (fun ra hra haction heq => hname (heq ▸ declared_of_action hra haction)) hid
        (hreaches.ne_start hpos) hadvances hslot
    · exact .inr (hgone.mono (Nat.le_succ n))

end

/-! ### What is created -/

section

variable {n : Nat} {place : Place} {id : Json}

/-- An identifier that was given is tracked, and it is known that it was created. -/
structure Created (c : Compilation plan) (name : String) (id : Json) (m : Memory) (place : Place)
    (ra : Resource × Action) : Prop where
  planned : ra ∈ c.actions
  name_eq : ra.1.name = name
  action : ra.2 ≠ .delete
  tracked : m.remoteIds.get? name = some id
  achieved : ra.1.did .create ∈ c.achieved place ra (m.decisions.get? ra.1.name)

theorem advances_of_created (hd : c.Distinct)
    (htypes : ∀ t ∈ plan.declaration.catalog.keys, t ∈ types.keys) {typeId : String}
    {handle : Option Json} {properties : Properties} (h : c.Reaches types w n place)
    (he : ⟨typeId, handle, .create properties, .ok (some id)⟩ ∈
      Run.exchanges c.program types (c.after types w n)) :
    ∃ place', c.Advances types (c.after types w n) (c.after types w (n + 1)) place place' := by
  obtain ⟨hstands, herror⟩ := h.stands
  obtain ⟨k, ra, routine, before, rest, K, s, rfl, hfaces, -⟩ :=
    faces_of_said hd htypes hstands herror he
  rw [after_succ]
  rcases executes hd htypes hstands nofun herror with hcontinues | hstops
  · exact advances_of_continues hd htypes hstands herror hcontinues
  · -- The fault would have come before the identifier.
    rw [exchanges_of_faces hfaces (running_of_stands hd hstands nofun herror)] at he
    have hflow := Staged.next_of_created rfl he
    have hforget := (s.records_perform c.program.tables.rom (c.after types w n).memory
      ((c.after types w n).world, [])).forget
    generalize (c.after types w n).step c.program types = r' at hstops
    cases hstops with
    | fault _ _ _ hexecute =>
      rw [execute_of_faces hfaces] at hexecute
      rw [hexecute] at hforget
      have hfault : Except.ok Flow.next = .error _ :=
        hflow.symm.trans (congrArg Outcome.flow hforget)
      cases hfault

theorem created_of_advances (hd : c.Distinct)
    (htypes : ∀ t ∈ plan.declaration.catalog.keys, t ∈ types.keys) {name typeId : String}
    {handle answer : Option Json} {properties : Properties} {place' : Place}
    (hadvances : c.Advances types (c.after types w n) (c.after types w (n + 1)) place place')
    (h : Run.Hears c.program types (c.after types w n) (ResourceOp.create.record name)
      ⟨typeId, handle, .create properties, .ok answer⟩) :
    ∃ ra, c.Created name (answer.getD .null) (c.after types w (n + 1)).memory place' ra := by
  obtain ⟨k, ra, routine, before, rest, K, s, hplace, -, hspeaks⟩ :=
    faces_of_said hd htypes hadvances.stands hadvances.running h.said
  rw [show s.op = .create from Staged.eq_create_of_asks hspeaks.request] at hplace
  subst hplace
  rcases hadvances.executes.beyond with ⟨K', rfl⟩ | ⟨hwaits, -, -⟩
  · obtain ⟨s, m, hop, hfaces, hmoves, hperformed, hmemory⟩ := hadvances.performed hd htypes
    obtain ⟨howner, haction, -⟩ := create_of_faces hd hfaces hadvances.running hop
    have hlogged := h.logged
    rw [upcoming_of_faces hfaces (hadvances.not_ended hd), hop] at hlogged
    obtain rfl : s.name = name := (ResourceOp.record_inj.1 (List.cons.inj hlogged).1).2
    have hra := hfaces.inRoutine.planned
    refine ⟨ra, hra, howner.symm, haction, ?_, ?_⟩
    · rw [hmemory]
      have hsaid := h.said
      obtain ⟨properties', id', rfl, hexchanges⟩ := hperformed.of_create hop
      rw [hexchanges] at hsaid
      cases List.mem_singleton.1 hsaid
      exact (Table.get?_insert _ _ _ _).trans (if_pos rfl)
    · rw [hadvances.achieved_of_moves hmoves hra, howner]
      simp [Place.owner?, Resource.did]
  · cases hwaits

/-- A step keeps an identifier that was given.  Only an update whose name is put aside under
that of the resource could take it away: if it is a proper identifier, when it finishes. -/
theorem Created.step {ra : Resource × Action} {name : String} {place' : Place} (hd : c.Distinct)
    (hforeign : ∀ rb ∈ c.actions, rb.2 = .update → name = deletable rb.1.name →
      id ≠ .null ∧ place.forward) (hplace : place ≠ .start)
    (hadvances : c.Advances types (c.after types w n) (c.after types w (n + 1)) place place')
    (h : c.Created name id (c.after types w n).memory place ra) :
    c.Created name id (c.after types w (n + 1)).memory place' ra := by
  obtain ⟨hra, rfl, haction, htracked, hachieved⟩ := h
  have hown : ∀ {rb : Resource × Action}, rb ∈ c.actions → rb.1.name = ra.1.name → rb = ra :=
    fun hrb heq => eq_of_name_eq hrb hra heq
  have hslot : (c.after types w n).memory.remoteIds.get? ra.1.name = some id →
      (c.after types w (n + 1)).memory.remoteIds.get? ra.1.name = some id := by
    intro hslot
    cases hadvances.turns hplace ra.1.name with
    | kept hkept => exact hkept.trans hslot
    | forgotten hp hroutine hpreceding howner =>
      obtain rfl := hown hroutine.planned howner
      subst hp
      rw [achieved_of_start hroutine rfl, hpreceding] at hachieved
      simp only [Resource.preceding, Resource.probing] at hachieved
      split at hachieved <;> simp [Resource.did, ResourceOp.record_inj] at hachieved
    | created hp hfaces hop hstaged =>
      obtain ⟨howner, -, hnew⟩ := create_of_faces hd hfaces hadvances.running hop
      obtain rfl := hown hfaces.inRoutine.planned (howner.symm.trans hstaged)
      subst hp
      exact absurd hachieved hnew
    | @deleted k rb routine before rest K s hp hfaces hop hstaged =>
      rcases checkDelete_of_faces hd hfaces hadvances.running hop
        with ⟨howner, hnew⟩ | ⟨haside, hupdate⟩
      · obtain rfl := hown hfaces.inRoutine.planned (howner.symm.trans hstaged)
        subst hp
        exact absurd hachieved hnew
      · obtain ⟨d, -, hwork⟩ := mem_work_of_faces hfaces (hadvances.not_ended hd)
        obtain ⟨-, hforward⟩ :=
          hforeign _ hfaces.inRoutine.planned hupdate (hstaged.symm.trans haside)
        subst hp
        rw [hop] at hwork
        have hphase : routine.phase ∈ Phase.forward := hforward
        rw [Resource.finish_of_mem_work hwork (.inr haside)] at hphase
        exact absurd hphase (by decide)
    | putAside hp hfaces hop hstaged =>
      obtain ⟨howner, -, hnew⟩ := putAside_of_faces hd hfaces hadvances.running hop
      obtain rfl := hown hfaces.inRoutine.planned (howner.symm.trans hstaged)
      subst hp
      exact absurd hachieved hnew
    | received hp hfaces hop hstaged hfree =>
      obtain ⟨howner, hupdate, -⟩ := putAside_of_faces hd hfaces hadvances.running hop
      rw [howner] at hstaged
      obtain ⟨hid, -⟩ := hforeign _ hfaces.inRoutine.planned hupdate hstaged.symm
      rw [Memory.remoteId_of_get? hid hslot] at hfree
      cases hfree
  exact ⟨hra, rfl, haction, hslot htracked, (hadvances.achieved_isPrefix hra).subset hachieved⟩

/-- An identifier that was given stays tracked, as long as no update whose name is put aside
under the name of the resource could take it away. -/
theorem Reaches.keeps (hd : c.Distinct)
    (htypes : ∀ t ∈ plan.declaration.catalog.keys, t ∈ types.keys)
    (h : c.Reaches types w n place) {t : Nat} (ht : t < n) {name typeId : String}
    {handle answer : Option Json} {properties : Properties}
    (hhears : Run.Hears c.program types (c.after types w t) (ResourceOp.create.record name)
      ⟨typeId, handle, .create properties, .ok answer⟩)
    (hforeign : ∀ n' < n, ∀ p, c.Reaches types w n' p → ∀ rb ∈ c.actions, rb.2 = .update →
      name ∈ plan.declaration.resources.keys → name = deletable rb.1.name →
        answer.getD .null ≠ .null ∧ p.forward) :
    ∃ ra, c.Created name (answer.getD .null) (c.after types w n).memory place ra := by
  induction h with
  | start => exact absurd ht (Nat.not_lt_zero t)
  | @step n p _ hreaches hadvances ih =>
    rcases Nat.lt_succ_iff_lt_or_eq.1 ht with hlt | rfl
    · obtain ⟨ra, hcreated⟩ :=
        ih hlt fun n' hn' => hforeign n' (hn'.trans (Nat.lt_succ_self n))
      have hdeclared := declared_of_action hcreated.planned hcreated.action
      rw [hcreated.name_eq] at hdeclared
      refine ⟨ra, hcreated.step hd (fun rb hrb hupdate heq => ?_)
        (hreaches.ne_start (Nat.zero_lt_of_lt hlt)) hadvances⟩
      exact hforeign n (Nat.lt_succ_self n) p hreaches rb hrb hupdate hdeclared heq
    · exact created_of_advances hd htypes hadvances hhears

end

/-- **From the first step of a run on, whatever the backends answer, the identifier of every
object that was tracked is still tracked, or put aside, or its object is known to be gone; and
every identifier that a creation gave is tracked under the name it was created for.** -/
theorem custody_of_steps {p : Program} (h : plan.compile = .ok p) :
    ∃ c : Compilation plan, c.program = p ∧ (c.Distinct → plan.Apart →
      ∀ {W : Type} (types : Registry W), (∀ t ∈ plan.declaration.catalog.keys, t ∈ types.keys) →
        ∀ (w : W) (n : Nat), 0 < n →
          (∀ name tracked, plan.prior.get? name = some tracked → tracked.remoteId ≠ .null →
            (Run.steps p types n (Run.fresh w)).memory.remoteIds.get? name =
                some tracked.remoteId ∨
              (Run.steps p types n (Run.fresh w)).memory.remoteIds.get? (deletable name) =
                some tracked.remoteId ∨
              Gone p types w n name tracked.remoteId) ∧
          ∀ t < n, ∀ name typeId handle properties id,
            Run.Hears p types (Run.steps p types t (Run.fresh w))
              (ResourceOp.create.record name)
              ⟨typeId, handle, .create properties, .ok (some id)⟩ →
            (Run.steps p types n (Run.fresh w)).memory.remoteIds.get? name = some id) := by
  obtain ⟨c, rfl⟩ := compile_eq_ok.1 h
  refine ⟨c, rfl, fun hd hapart W types htypes w n hn => ?_⟩
  obtain ⟨t, htn, ht, ⟨place, hreaches⟩, htables, hlast⟩ :=
    (stage_steps hd htypes w n).last hd hn
  have hids : (Run.steps c.program types n (Run.fresh w)).memory.remoteIds =
      (c.after types w t).memory.remoteIds := htables.remoteIds
  refine ⟨fun name tracked htracked hid => ?_,
    fun t' ht' name typeId handle properties id hhears => ?_⟩
  · rw [hids]
    by_cases hname : name ∈ plan.declaration.resources.keys
    · rcases hreaches.held hd htypes hapart hname htracked hid ht with hslot | haside | hgone
      · exact .inl hslot
      · exact .inr (.inl haside)
      · exact .inr (.inr (hgone.mono htn))
    · rcases hreaches.held_undeclared hd hname htracked hid ht with hslot | hgone
      · exact .inl hslot
      · exact .inr (.inr (hgone.mono htn))
  · obtain ⟨place', hreached⟩ : ∃ place', c.Reaches types w (t' + 1) place' := by
      obtain ⟨k, ra, routine, before, rest, K, s, hreached, -⟩ := faces_of_hears hd htypes hhears
      obtain ⟨place', hadvances⟩ := advances_of_created hd htypes hreached hhears.said
      exact ⟨place', .step hreached hadvances⟩
    have hforeign : ∀ rb ∈ c.actions, rb.2 = .update →
        name ∈ plan.declaration.resources.keys → name ≠ deletable rb.1.name :=
      fun rb hrb hupdate hdeclared =>
        hapart _ hdeclared _ (declared_of_action hrb (by rw [hupdate]; nofun))
    obtain ⟨ra, hcreated⟩ :=
      hreaches.keeps hd htypes (hlast (t' + 1) ht' place' hreached) hhears
        fun _ _ _ _ rb hrb hupdate hdeclared heq =>
          absurd heq (hforeign rb hrb hupdate hdeclared)
    rw [hids]
    exact hcreated.tracked

/-- The old object of an update that replaced it was put aside, and at the end it is gone. -/
theorem custody_of_steps_plain :
    ∃ p, (plainPlan true ["x", "y"] ["y", "z"] true).compile = .ok p ∧
      Gone p (plainTypes true) () 200 "y" (.str "y") := by
  obtain ⟨c, hc, hcustody⟩ :=
    custody_of_steps (rfl : (plainPlan true ["x", "y"] ["y", "z"] true).compile = .ok _)
  have htypes : ∀ t ∈ (plainPlan true ["x", "y"] ["y", "z"] true).declaration.catalog.keys,
      t ∈ (plainTypes true).keys := by decide
  have hapart : (plainPlan true ["x", "y"] ["y", "z"] true).Apart := by
    unfold Plan.Apart
    decide +kernel
  refine ⟨_, rfl, ?_⟩
  obtain ⟨hheld, -⟩ := hcustody c.distinct_plain hapart (plainTypes true) htypes () 200 (by decide)
  rcases hheld "y" ⟨.str "y", "file", []⟩ rfl nofun with hslot | haside | hgone
  · exact absurd hslot (by decide +kernel)
  · exact absurd haside (by decide +kernel)
  · exact hgone

end Compilation

end Provisioning
