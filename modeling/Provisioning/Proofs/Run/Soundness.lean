/-
Typed instructions do not go wrong.

A memory `Fits` what is known at an instruction if the scratch values have the known shapes
and the decision is one of the possible ones.  Executing a typed instruction on such a memory
gives a memory that fits what is known afterwards, or goes to a routine of the same resource
that presumes what the memory has, or waits, or stops with a foreseen fault.  Everything but
scratch, the tables, and the decision about the resource itself is left as it was.

Two things are needed of the program and the registry: the type of the resource is
registered, and the fields of a resource that is wanted can be read.
-/
import Provisioning.Proofs.Run.Typing

namespace Provisioning

/-! ### Memories that fit -/

namespace Known

namespace Fits

variable {K : Known} {name : String} {m : Memory}

/-- Only scratch and decisions count. -/
theorem congr (h : K.Fits name m) {m' : Memory} (htemp : m'.temp = m.temp)
    (hdecisions : m'.decisions = m.decisions) : K.Fits name m' where
  distinct := htemp ▸ h.distinct
  scratch := by
    rw [htemp, hdecisions]
    exact h.scratch
  decided := hdecisions ▸ h.decided

theorem clear (h : K.Fits name m) : K.clear.Fits name { m with temp := [] } where
  distinct := List.nodup_nil
  scratch := nofun
  decided := h.decided

theorem set (h : K.Fits name m) (key : String) (s : Shape) {v : Json}
    (hv : s.Admits (m.decisions.get? name) v) :
    (K.set key s).Fits name (m.setTemp key v) where
  distinct := Entries.nodup_set h.distinct key v
  scratch k s' hs := by
    have hget : (m.setTemp key v).temp.get? k = if key = k then some v else m.temp.get? k :=
      Entries.get?_set m.temp key v k
    rw [hget]
    by_cases hk : key = k
    · have heq : s = s' := by simpa [Known.set, hk] using hs
      rw [if_pos hk]
      exact ⟨v, rfl, heq ▸ hv⟩
    · rw [if_neg hk]
      exact h.scratch k s' (by simpa [Known.set, hk] using hs)
  decided := h.decided

theorem drop (h : K.Fits name m) (key : String) :
    (K.drop key).Fits name { m with temp := m.temp.swapErase key } where
  distinct := Entries.nodup_swapErase h.distinct key
  scratch k s hs := by
    show ∃ v, (m.temp.swapErase key).get? k = some v ∧ _
    rw [Entries.get?_swapErase h.distinct]
    by_cases hk : key = k
    · simp [Known.drop, hk] at hs
    · rw [if_neg hk]
      exact h.scratch k s (by simpa [Known.drop, hk] using hs)
  decided := h.decided

theorem decide (h : K.Fits name m) {ds : List (Option Decision)} {d : Decision}
    (hd : some d ∈ ds) :
    (K.decide ds).Fits name { m with decisions := m.decisions.insert name d } where
  distinct := h.distinct
  scratch key s hs := by
    obtain ⟨hs, hstable⟩ := Option.filter_eq_some_iff.1 hs
    obtain ⟨v, hv, hadmits⟩ := h.scratch key s hs
    exact ⟨v, hv, Shape.admits_of_stable hstable hadmits⟩
  decided := by
    show (m.decisions.insert name d).get? name ∈ ds
    rw [Table.get?_insert, if_pos rfl]
    exact hd

theorem exclude (h : K.Fits name m) {d : Decision} (hd : m.decisions.get? name ≠ some d) :
    (K.exclude d).Fits name m where
  distinct := h.distinct
  scratch := h.scratch
  decided := List.mem_filter.2 ⟨h.decided, by simpa using hd⟩

theorem undecided (h : K.Fits name m) (hd : K.decided = [none]) :
    m.decisions.get? name = none := by
  have hmem := h.decided
  rw [hd] at hmem
  exact List.mem_singleton.1 hmem

theorem record (h : K.Fits name m) (records : List Operation) :
    { K with records }.Fits name m where
  distinct := h.distinct
  scratch := h.scratch
  decided := h.decided

theorem text (h : K.Fits name m) {key s : String} (hs : K.scratch key = some (.text s)) :
    m.temp.get? key = some (.str s) := by
  obtain ⟨v, hv, rfl⟩ := h.scratch key _ hs
  exact hv

theorem requireStr (h : K.Fits name m) {key s : String} (hs : K.scratch key = some (.text s))
    (instruction : String) : m.requireStr instruction key = .ok s := by
  unfold Memory.requireStr Memory.require
  rw [h.text hs]
  rfl

theorem requireObject (h : K.Fits name m) {key : String} (hs : K.scratch key = some .object)
    (instruction : String) : ∃ fields, m.requireObject instruction key = .ok fields := by
  obtain ⟨v, hv, fields, rfl⟩ := h.scratch key _ hs
  refine ⟨fields, ?_⟩
  unfold Memory.requireObject Memory.require
  rw [hv]
  rfl

theorem contains (h : K.Fits name m) {key : String} {s : Shape} (hs : K.scratch key = some s) :
    m.temp.contains key = true := by
  obtain ⟨v, hv, -⟩ := h.scratch key s hs
  unfold Entries.contains
  rw [hv]
  rfl

end Fits

end Known

/-- A routine that begins knows nothing of scratch, only what it presumes. -/
theorem Resource.fits_entry (r : Resource) {createMissing : Bool} {routine : Routine} {m : Memory}
    (hdistinct : m.temp.keys.Nodup)
    (hdecided : m.decisions.get? r.name ∈ routine.presumed createMissing) :
    (r.entry createMissing routine).Fits r.name m where
  distinct := hdistinct
  scratch := nofun
  decided := hdecided

theorem Memory.result_of_get? {m : Memory} {b : Bool}
    (h : m.temp.get? resultKey = some (.int (if b then 1 else 0))) (instruction : String) :
    m.result instruction = .ok (if b then 1 else 0) := by
  unfold Memory.result Memory.require
  rw [h]
  cases b <;> rfl

/-- What an instruction of a routine of `name` leaves as it was. -/
structure Memory.Beside (name : String) (m m' : Memory) : Prop where
  programCounter : m'.programCounter = m.programCounter
  callStack : m'.callStack = m.callStack
  ended : m'.ended = m.ended
  error : m'.error = m.error
  /-- Nothing is decided about other resources. -/
  others : ∀ n ≠ name, m'.decisions.get? n = m.decisions.get? n
  /-- What was decided stays decided. -/
  kept : ∀ d, m.decisions.get? name = some d → m'.decisions.get? name = some d

/-- No decision is changed. -/
theorem Memory.Beside.decision {name : String} {m m' : Memory} (h : m.Beside name m')
    {n : String} {d : Decision} (hd : m.decisions.get? n = some d) :
    m'.decisions.get? n = some d := by
  by_cases hn : n = name
  · subst hn
    exact h.kept d hd
  · rw [h.others n hn]
    exact hd

/-- Scratch and the tables besides the decisions do not count. -/
theorem Memory.beside_of_eq {name : String} {m m' : Memory}
    (hcounter : m'.programCounter = m.programCounter) (hstack : m'.callStack = m.callStack)
    (hended : m'.ended = m.ended) (herror : m'.error = m.error)
    (hdecisions : m'.decisions = m.decisions) : m.Beside name m' :=
  ⟨hcounter, hstack, hended, herror, fun _ _ => by rw [hdecisions], fun _ h => by rwa [hdecisions]⟩

/-- A first decision about a resource. -/
theorem Memory.beside_decide {name : String} {m : Memory} (hnone : m.decisions.get? name = none)
    (d : Decision) :
    m.Beside name { m with decisions := m.decisions.insert name d } where
  programCounter := rfl
  callStack := rfl
  ended := rfl
  error := rfl
  others n hn := by
    show (m.decisions.insert name d).get? n = _
    rw [Table.get?_insert, if_neg (Ne.symm hn)]
  kept d' hd' := by
    rw [hnone] at hd'
    cases hd'

/-- What a program and a registry have to provide for a resource. -/
structure Program.Supports {W : Type} (p : Program) (types : Registry W) (r : Resource)
    (action : Action) : Prop where
  /-- Its type is registered. -/
  registered : ∃ kind, types.get? r.typeId = some kind
  /-- Its fields can be read if it is wanted, unless an output is missing. -/
  stored : action ≠ .delete → ∀ m : Memory,
    (∃ fields, p.tables.rom.resolve m.outputValue r.name = .ok (.obj fields)) ∨
      ∃ f, f.foreseen = true ∧ p.tables.rom.resolve m.outputValue r.name = .error f

/-! ### One instruction -/

section

variable {W : Type} {p : Program} {types : Registry W} {m : Memory} {w : W}

theorem execute_eq_perform {i : Instruction}
    (h : ∀ key ∈ i.requiredKeys, m.temp.contains key = true) :
    execute p types i m w = perform p types i m w := by
  unfold execute
  split
  · next key hkey =>
    have hmissing := List.find?_some hkey
    rw [h key (List.mem_of_find?_eq_some hkey)] at hmissing
    cases hmissing
  · rfl

theorem requiredKeys_resource {op : ResourceOp} {key : String}
    (h : key ∈ (Instruction.resource op).requiredKeys) :
    key = "resource_name" ∨ key = "resource_desc" ∨ key ∈ op.objects := by
  revert h
  cases op <;> simp [Instruction.requiredKeys, ResourceOp.objects]
  all_goals tauto

theorem bindStaged_eq {key : String} (h : m.temp.get? Memory.stagedKey = some (.str key))
    (v : Json) :
    bindStaged v m w =
      .next ({ m with temp := m.temp.swapErase Memory.stagedKey }.setTemp key v) w := by
  unfold bindStaged takeStagedKey
  rw [h]

theorem ofMemory_eq {K : Known} {r : Resource} (hfit : K.Fits r.name m) {name : String}
    (hname : K.scratch "resource_name" = some (.text name))
    (htype : K.scratch "resource_desc" = some (.text r.typeId)) {kind : Kind W}
    (hkind : types.get? r.typeId = some kind) (op : ResourceOp) :
    Staged.ofMemory types op m = .ok ⟨op, name, r.typeId, kind⟩ :=
  Staged.ofMemory_eq_ok.2
    ⟨rfl, hfit.requireStr hname op.name, hfit.requireStr htype op.name, hkind⟩

end

namespace Outcome.Ends

variable {W : Type} {o : Outcome W} {m : Memory} {done done' : Memory → Prop}
  {goes goes' : Nat → Prop} {waits waits' : Prop} {fails fails' : Fault → Prop}

theorem imp (h : o.Ends m done goes waits fails) (hdone : ∀ m', done m' → done' m')
    (hgoes : ∀ i, goes i → goes' i) (hwaits : waits → waits') (hfails : ∀ f, fails f → fails' f) :
    o.Ends m done' goes' waits' fails' where
  next hnext := hdone _ (h.next hnext)
  jump i hjump := (h.jump i hjump).imp_left (hgoes i)
  stay hstay := (h.stay hstay).imp_left hwaits
  fault f hfault := (h.fault f hfault).imp_left (hfails f)

end Outcome.Ends

namespace Known.Fits

variable {W : Type} {K : Known} {r : Resource} {m : Memory}

/-- What an operation has done leaves a memory that fits what is known afterwards. -/
theorem did (h : K.Fits r.name m) {s : Staged W} {m' : Memory} (hdone : s.Done m m')
    (hrescmp : s.op = .rescmp → s.name = r.name ∧ K.decided = [none]) :
    (K.did s.op s.name).Fits r.name m' ∧ m.Beside r.name m' := by
  have hrecord := h.record (K.records ++ [s.op.record s.name])
  unfold Staged.Done at hdone
  cases hop : s.op with
  | create =>
    rw [hop] at hdone hrecord
    obtain ⟨id, rfl⟩ := hdone
    exact ⟨hrecord.congr rfl rfl, Memory.beside_of_eq rfl rfl rfl rfl rfl⟩
  | read =>
    rw [hop] at hdone hrecord
    obtain ⟨current, outputs, rfl, -⟩ := hdone
    exact ⟨(hrecord.set "current" .object ⟨current, rfl⟩).congr rfl rfl,
      Memory.beside_of_eq rfl rfl rfl rfl rfl⟩
  | update | delete =>
    rw [hop] at hdone hrecord
    obtain rfl := hdone
    exact ⟨hrecord, Memory.beside_of_eq rfl rfl rfl rfl rfl⟩
  | checkCreate | checkUpdate =>
    rw [hop] at hdone hrecord
    obtain ⟨fields, rfl⟩ := hdone
    exact ⟨hrecord.congr rfl rfl, Memory.beside_of_eq rfl rfl rfl rfl rfl⟩
  | checkDelete =>
    rw [hop] at hdone hrecord
    obtain rfl := hdone
    exact ⟨hrecord.congr rfl rfl, Memory.beside_of_eq rfl rfl rfl rfl rfl⟩
  | checkExist =>
    rw [hop] at hdone hrecord
    obtain ⟨found, rfl⟩ := hdone
    exact ⟨hrecord.set Memory.resultKey .flag ⟨found, rfl⟩, Memory.beside_of_eq rfl rfl rfl rfl rfl⟩
  | markDeletable =>
    rw [hop] at hdone hrecord
    obtain ⟨id, rfl⟩ := hdone
    exact ⟨hrecord.congr rfl rfl, Memory.beside_of_eq rfl rfl rfl rfl rfl⟩
  | filter =>
    rw [hop] at hdone hrecord
    obtain ⟨properties, rfl⟩ := hdone
    exact ⟨hrecord.set "properties" .object ⟨properties, rfl⟩,
      Memory.beside_of_eq rfl rfl rfl rfl rfl⟩
  | rescmp =>
    rw [hop] at hdone hrecord
    obtain ⟨d, hd, rfl⟩ := hdone
    obtain ⟨hname, hdecided⟩ := hrescmp hop
    rw [hname] at hrecord ⊢
    refine ⟨hrecord.decide ?_, Memory.beside_decide (h.undecided hdecided) d⟩
    cases d with
    | missing => exact absurd rfl hd
    | noChange | modify | recreate => simp

end Known.Fits

/-- An operation whose operands are objects is stopped by the outside, or because the declared
fields cannot be read. -/
theorem Staged.unread_of_fails {W : Type} {s : Staged W} {rom : Rom} {m : Memory}
    (hobjects : ∀ key ∈ s.op.objects, ∃ fields, m.requireObject s.op.name key = .ok fields)
    (hstored : s.op = .rescmp → ∀ v, rom.resolve m.outputValue s.name = .ok v →
      ∃ fields, v = .obj fields)
    {f : Fault} (h : s.Fails rom m f) :
    f.outside = true ∨ (s.op = .rescmp ∧ rom.resolve m.outputValue s.name = .error f) := by
  cases h with
  | outside hf => exact .inl hf
  | operand hkey hf =>
    obtain ⟨fields, hok⟩ := hobjects _ hkey
    rw [hok] at hf
    cases hf
  | unread hop hf => exact .inr ⟨hop, hf⟩
  | noObject hop hv hne =>
    obtain ⟨fields, rfl⟩ := hstored hop _ hv
    exact absurd rfl (hne fields)

/-- Whether an instruction reads declared fields. -/
def Instruction.reads : Instruction → Bool
  | .valueRom _ | .resource .rescmp => true
  | _ => false

namespace Resource

variable {W : Type} {p : Program} {types : Registry W} {m : Memory} {w : W} {r : Resource}
  {createMissing : Bool} {routine : Routine} {K K' : Known} {i : Instruction}

/-- What can stop a typed instruction: the outside, or declared fields that cannot be read. -/
def Foils (p : Program) (r : Resource) (routine : Routine) (i : Instruction) (m : Memory)
    (f : Fault) : Prop :=
  (i.isResourceOp = true ∧ f.outside = true) ∨ (i.reads = true ∧ routine.action ≠ .delete ∧
    p.tables.rom.resolve m.outputValue r.name = .error f)

theorem foreseen_of_foils {f : Fault} (h : Foils p r routine i m f)
    (hsupports : p.Supports types r routine.action) : f.foreseen = true := by
  rcases h with ⟨-, houtside⟩ | ⟨-, haction, herror⟩
  · exact Fault.foreseen_of_outside houtside
  · rcases hsupports.stored haction m with ⟨fields, hok⟩ | ⟨g, hg, hstored⟩
    · rw [hok] at herror
      cases herror
    · rw [hstored] at herror
      cases herror
      exact hg

/-- How a typed instruction ends. -/
def Sound (p : Program) (r : Resource) (createMissing : Bool) (routine : Routine) (K : Known)
    (i : Instruction) (K' : Known) (m : Memory) (o : Outcome W) : Prop :=
  o.Ends m (fun m' => K'.Fits r.name m' ∧ m.Beside r.name m')
    (fun a => ∃ target, i = .gotoIf (.label (target.label r.name)) ∧
      p.label (target.label r.name) = .ok a ∧ (r.entry createMissing target).Fits r.name m ∧
      K.records = r.preceding createMissing target)
    (∃ op, i = .resource op ∧ op.waits = true)
    (Foils p r routine i m)

theorem sound_operation {name : String} (op : ResourceOp)
    (hname : K.scratch "resource_name" = some (.text name))
    (htype : K.scratch "resource_desc" = some (.text r.typeId))
    (hobjects : ∀ key ∈ op.objects, K.scratch key = some .object)
    (hrescmp : op = .rescmp → name = r.name ∧ routine.action ≠ .delete ∧ K.decided = [none])
    (hfit : K.Fits r.name m) (hsupports : p.Supports types r routine.action) :
    Sound p r createMissing routine K (.resource op) (K.did op name) m
      (execute p types (.resource op) m w) := by
  obtain ⟨kind, hkind⟩ := hsupports.registered
  rw [execute_eq_perform]
  · have hstaged := ofMemory_eq hfit hname htype hkind op
    have hperform : perform p types (.resource op) m w =
        Staged.perform ⟨op, name, r.typeId, kind⟩ p.tables.rom m w := by
      simp only [perform, hstaged]
    rw [hperform]
    refine (Staged.behaves_perform _ _ _ _).imp (fun m' hdone => ?_) (fun _ h => h.elim)
      (fun h => ⟨op, rfl, h⟩) (fun f hf => ?_)
    · refine hfit.did hdone ?_
      intro hop
      obtain ⟨hname, -, hdecided⟩ := hrescmp hop
      exact ⟨hname, hdecided⟩
    · have hobject : op = .rescmp →
          ∀ v, p.tables.rom.resolve m.outputValue name = .ok v → ∃ fields, v = .obj fields := by
        intro hop v hv
        obtain ⟨rfl, haction, -⟩ := hrescmp hop
        rcases hsupports.stored haction m with ⟨fields, hok⟩ | ⟨g, -, hstored⟩
        · rw [hok] at hv
          cases hv
          exact ⟨fields, rfl⟩
        · rw [hstored] at hv
          cases hv
      rcases Staged.unread_of_fails (fun key hkey => hfit.requireObject (hobjects key hkey) _)
        hobject hf with houtside | ⟨hop, herror⟩
      · exact .inl ⟨rfl, houtside⟩
      · obtain rfl : op = .rescmp := hop
        obtain ⟨rfl, haction, -⟩ := hrescmp rfl
        exact .inr ⟨rfl, haction, herror⟩
  · intro key hkey
    rcases requiredKeys_resource hkey with rfl | rfl | hkey
    · exact hfit.contains hname
    · exact hfit.contains htype
    · exact hfit.contains (hobjects key hkey)

theorem beside_temp (name : String) (m : Memory) (temp : Properties) :
    m.Beside name { m with temp } :=
  Memory.beside_of_eq rfl rfl rfl rfl rfl

theorem sound_bind {key : String} {s : Shape} {v : Json}
    (hkey : K.scratch Memory.stagedKey = some (.text key)) (hfit : K.Fits r.name m)
    (hv : s.Admits (m.decisions.get? r.name) v) :
    Sound p r createMissing routine K i (K.bind key s) m (bindStaged v m w) := by
  rw [bindStaged_eq (hfit.text hkey)]
  exact Outcome.ends_next ⟨(hfit.drop Memory.stagedKey).set key s hv, beside_temp _ _ _⟩

theorem Decision.text_inj {d d' : Decision} (h : d.text = d'.text) : d = d' := by
  revert h
  cases d <;> cases d' <;> decide

/-- A branch goes where its label leads if the result is 1, and goes on if it is 0. -/
theorem execute_gotoIf {b : Bool}
    (hresult : m.temp.get? Memory.resultKey = some (.int (if b then 1 else 0))) {label : String}
    {a : Nat} (hlabel : p.label label = .ok a) :
    execute p types (.gotoIf (.label label)) m w =
      if b then ⟨.ok (.jump a), m, w⟩ else .next m w := by
  show perform p types (.gotoIf (.label label)) m w = _
  have htarget : p.target (.label label) = .ok a := hlabel
  unfold perform
  rw [Memory.result_of_get? hresult]
  cases b with
  | false => rfl
  | true => simp only [htarget, if_pos]; rfl

theorem sound_test {target : Routine} (hresult : K.scratch Memory.resultKey = some .flag)
    (hdecided : K.decided = target.presumed createMissing)
    (hrecords : K.records = r.preceding createMissing target) (hfit : K.Fits r.name m) {a : Nat}
    (hlabel : p.label (target.label r.name) = .ok a) :
    Sound p r createMissing routine K (.gotoIf (.label (target.label r.name))) K m
      (execute p types (.gotoIf (.label (target.label r.name))) m w) := by
  obtain ⟨v, hv, b, rfl⟩ := hfit.scratch _ _ hresult
  rw [execute_gotoIf hv hlabel]
  cases b with
  | false => exact Outcome.ends_next ⟨hfit, beside_temp _ m m.temp⟩
  | true =>
    have hentry := r.fits_entry hfit.distinct (hdecided ▸ hfit.decided)
    exact Outcome.ends_jump ⟨target, rfl, hlabel, hentry, hrecords⟩

theorem sound_branch {d : Decision} {target : Routine}
    (hresult : K.scratch Memory.resultKey = some (.verdict d)) (hserves : target.Serves routine d)
    (hrecords : K.records = r.preceding createMissing target) (hfit : K.Fits r.name m) {a : Nat}
    (hlabel : p.label (target.label r.name) = .ok a) :
    Sound p r createMissing routine K (.gotoIf (.label (target.label r.name))) (K.exclude d) m
      (execute p types (.gotoIf (.label (target.label r.name))) m w) := by
  obtain ⟨v, hv, rfl⟩ := hfit.scratch _ _ hresult
  by_cases hd : m.decisions.get? r.name = some d
  · rw [if_pos hd] at hv
    rw [execute_gotoIf (b := true) hv hlabel]
    refine Outcome.ends_jump ⟨target, rfl, hlabel, r.fits_entry hfit.distinct ?_, hrecords⟩
    rw [hserves.presumed, hd]
    exact List.mem_singleton.2 rfl
  · rw [if_neg hd] at hv
    rw [execute_gotoIf (b := false) hv hlabel]
    exact Outcome.ends_next ⟨hfit.exclude hd, beside_temp _ m m.temp⟩

/-- What a write of one of the tables amounts to, where the place is staged. -/
theorem execute_memwrite {table key : String} (hfit : K.Fits r.name m)
    (htable : K.scratch "superkey" = some (.text table))
    (hkey : K.scratch "key" = some (.text key)) {v : Json} {m' : Memory}
    (hwrite : m.write table key v = .ok m') :
    execute p types (.memwrite v) m w = .next m' w := by
  rw [execute_eq_perform]
  · have hstaged : m.writeStaged v = .ok m' := by
      unfold Memory.writeStaged
      rw [hfit.requireStr htable, hfit.requireStr hkey]
      exact hwrite
    unfold perform
    simp only [hstaged]
  · intro k hk
    rcases List.mem_pair.1 hk with rfl | rfl
    · exact hfit.contains htable
    · exact hfit.contains hkey

/-- **A typed instruction on a memory that fits ends as it should.** -/
theorem Typed.sound (ht : Typed r createMissing routine K i K') (hfit : K.Fits r.name m)
    (hsupports : p.Supports types r routine.action)
    (hlabel : ∀ target : Routine, i = .gotoIf (.label (target.label r.name)) →
      ∃ a, p.label (target.label r.name) = .ok a) :
    Sound p r createMissing routine K i K' m (execute p types i m w) := by
  cases ht with
  | clear => exact Outcome.ends_next ⟨hfit.clear, beside_temp _ _ _⟩
  | key name => exact Outcome.ends_next ⟨hfit.set _ (.text name) rfl, beside_temp _ _ _⟩
  | text s hkey => exact sound_bind hkey hfit rfl
  | fields haction hkey =>
    show Sound p r createMissing routine K _ _ m (perform p types (.valueRom r.name) m w)
    rw [perform]
    rcases hsupports.stored haction m with ⟨fields, hok⟩ | ⟨f, hf, herror⟩
    · rw [hok]
      exact sound_bind hkey hfit ⟨fields, rfl⟩
    · rw [herror]
      exact Outcome.ends_fault (.inr ⟨rfl, haction, herror⟩) m.temp
  | decision hdecided =>
    show Sound p r createMissing routine K _ _ m (perform p types (.valueUpdate r.name) m w)
    rw [perform]
    cases hd : m.decisions.get? r.name with
    | none => exact absurd (hd ▸ hfit.decided) hdecided
    | some d =>
      exact Outcome.ends_next ⟨hfit.clear.set _ .decision ⟨d, hd, rfl⟩, beside_temp _ _ _⟩
  | compare d hresult =>
    obtain ⟨v, hv, d', hd', rfl⟩ := hfit.scratch _ _ hresult
    refine Outcome.ends_next ⟨hfit.set _ (.verdict d) ?_, beside_temp _ _ _⟩
    rw [hv, hd']
    by_cases hdd : d' = d
    · simp [Shape.Admits, Json.same, hdd]
    · have htext : d'.text ≠ d.text := fun h => hdd (Decision.text_inj h)
      simp [Shape.Admits, Json.same, hdd, htext]
  | invert hresult =>
    obtain ⟨v, hv, b, rfl⟩ := hfit.scratch _ _ hresult
    show Sound p r createMissing routine K _ _ m (perform p types .invert m w)
    rw [perform]
    rw [Memory.result_of_get? hv]
    exact Outcome.ends_next ⟨hfit.set _ .flag ⟨_, rfl⟩, beside_temp _ _ _⟩
  | test hresult hdecided hrecords =>
    obtain ⟨a, ha⟩ := hlabel _ rfl
    exact sound_test hresult hdecided hrecords hfit ha
  | branch hresult hserves _ hrecords =>
    obtain ⟨a, ha⟩ := hlabel _ rfl
    exact sound_branch hresult hserves hrecords hfit ha
  | forget _ _ htable hkey =>
    rw [execute_memwrite hfit htable hkey rfl]
    exact Outcome.ends_next ⟨hfit.congr rfl rfl, Memory.beside_of_eq rfl rfl rfl rfl rfl⟩
  | settle d htable hkey hdecided =>
    have hwrite : m.write "update_action" r.name (.str d.text) =
        .ok { m with decisions := m.decisions.insert r.name d } := by
      cases d <;> rfl
    rw [execute_memwrite hfit htable hkey hwrite]
    exact Outcome.ends_next ⟨hfit.decide (List.mem_singleton.2 rfl),
      Memory.beside_decide (hfit.undecided hdecided) d⟩
  | operation op hname htype hobjects _ hrescmp =>
    exact sound_operation op hname htype hobjects hrescmp hfit hsupports

/-- What an instruction logs is what is known to be done. -/
theorem Typed.records (ht : Typed r createMissing routine K i K') (hfit : K.Fits r.name m) :
    K'.records = K.records ++ Run.logged i m := by
  cases ht with
  | @operation name op hname _ _ _ _ =>
    have hstaged : Run.stagedName m = name := by
      unfold Run.stagedName
      rw [hfit.text hname]
      rfl
    rw [Known.records_did, Run.logged_resource, hstaged]
  | _ => exact (List.append_nil _).symm

end Resource

end Provisioning
