/-
How an operation comes to be done.

An operation that is done got the answers it needs: `Performed` lists, for each operation,
what was asked of whom in which world, what was answered, and what was then changed in the
memory.  It is the one place where the operations are opened down to their requests, and what
it lists as said is what a provider that records has recorded.
-/
import Provisioning.Proofs.Run.Dialogue

namespace Provisioning

namespace Staged

variable {W : Type}

/-- An operation is done, from a memory and a world to a memory and a world, by what is said. -/
inductive Performed (s : Staged W) (rom : Rom) (m : Memory) (w : W) :
    Memory → W → List Exchange → Prop
  | create {properties : Properties} {p : Provider W} {id : Option Json} {w' : W} :
    s.op = .create → m.requireObject s.op.name "properties" = .ok properties →
    (s.kind.schema.needsRemoteId = true → m.remoteId s.name = none ∧ id ≠ none) →
    s.provider = .ok p → p.ask none (.create properties) w = (.ok id, w') →
    Performed s rom m w { m with remoteIds := m.remoteIds.insert s.name (id.getD .null) } w'
      [⟨s.typeId, none, .create properties, .ok id⟩]
  /-- Only fields are read of a type without outputs. -/
  | read {p : Provider W} {found : Properties} {w' : W} :
    s.op = .read → s.kind.schema.outputs = [] → s.provider = .ok p →
    p.ask (m.remoteId s.name) (.read s.kind.schema.readable) w = (.ok found, w') →
    Performed s rom m w (m.setTemp "current" (.obj (currentFields s.kind.schema.readable found)))
      w' [⟨s.typeId, m.remoteId s.name, .read s.kind.schema.readable, .ok found⟩]
  | readOutputs {p : Provider W} {found fields : Properties} {w₁ w' : W} :
    s.op = .read → s.kind.schema.outputs ≠ [] → s.provider = .ok p →
    p.ask (m.remoteId s.name) (.read s.kind.schema.readable) w = (.ok found, w₁) →
    p.ask (m.remoteId s.name) .outputs w₁ = (.ok fields, w') →
    Performed s rom m w
      { m.setTemp "current" (.obj (currentFields s.kind.schema.readable found)) with
        outputs := m.outputs.insert s.name fields } w'
      [⟨s.typeId, m.remoteId s.name, .read s.kind.schema.readable, .ok found⟩,
        ⟨s.typeId, m.remoteId s.name, .outputs, .ok fields⟩]
  | update {properties : Properties} {p : Provider W} {w' : W} :
    s.op = .update → m.requireObject s.op.name "properties" = .ok properties →
    s.provider = .ok p →
    p.ask (m.remoteId s.name) (.update (s.mutableOnly properties)) w = (.ok (), w') →
    Performed s rom m w m w'
      [⟨s.typeId, m.remoteId s.name, .update (s.mutableOnly properties), .ok ()⟩]
  /-- If immutable fields are staged they are read first. -/
  | updateRead {properties : Properties} {p : Provider W} {fields : List String}
    {found : Properties} {w₁ w' : W} :
    s.op = .update → m.requireObject s.op.name "properties" = .ok properties →
    s.provider = .ok p → p.ask (m.remoteId s.name) (.read fields) w = (.ok found, w₁) →
    p.ask (m.remoteId s.name) (.update (s.mutableOnly properties)) w₁ = (.ok (), w') →
    Performed s rom m w m w'
      [⟨s.typeId, m.remoteId s.name, .read fields, .ok found⟩,
        ⟨s.typeId, m.remoteId s.name, .update (s.mutableOnly properties), .ok ()⟩]
  | delete {p : Provider W} {w' : W} : s.op = .delete → s.provider = .ok p →
    p.ask (m.remoteId s.name) .delete w = (.ok (), w') →
    Performed s rom m w m w' [⟨s.typeId, m.remoteId s.name, .delete, .ok ()⟩]
  | checkChange {c : Change} {p : Provider W} {fields : Properties} {w₁ w' : W} :
    s.op = .check c → s.provider = .ok p →
    p.ask (m.remoteId s.name) (.complete c) w = (.ok true, w₁) →
    p.ask (m.remoteId s.name) .outputs w₁ = (.ok fields, w') →
    Performed s rom m w { m with outputs := m.outputs.insert s.name fields } w'
      [⟨s.typeId, m.remoteId s.name, .complete c, .ok true⟩,
        ⟨s.typeId, m.remoteId s.name, .outputs, .ok fields⟩]
  | checkDelete {p : Provider W} {w' : W} : s.op = .checkDelete → s.provider = .ok p →
    p.ask (m.remoteId s.name) .deleteComplete w = (.ok true, w') →
    Performed s rom m w (confirmDeleted m s.name) w'
      [⟨s.typeId, m.remoteId s.name, .deleteComplete, .ok true⟩]
  | checkExist {p : Provider W} {found : Bool} {w' : W} :
    s.op = .checkExist → s.kind.schema.needsRemoteId = true → s.provider = .ok p →
    p.ask (m.remoteId s.name) .found w = (.ok found, w') →
    Performed s rom m w (m.setTest found) w' [⟨s.typeId, m.remoteId s.name, .found, .ok found⟩]
  /-- What has no identifier is taken to be there. -/
  | presume : s.op = .checkExist → s.kind.schema.needsRemoteId = false →
    Performed s rom m w (m.setTest true) w []
  | markDeletable {id : Json} : s.op = .markDeletable → m.remoteId (deletable s.name) = none →
    (m.remoteIds.get? s.name).getD .null = id →
    Performed s rom m w
      { m with remoteIds := (m.remoteIds.erase s.name).insert (deletable s.name) id } w []
  | filter {current desired : Properties} : s.op = .filter →
    Performed s rom m w
      (m.setTemp "properties" (.obj (updatable s.kind.schema current desired))) w []
  | rescmp {d : Decision} : s.op = .rescmp → s.decide rom m = .ok d →
    Performed s rom m w { m with decisions := m.decisions.insert s.name d } w []

variable {s : Staged W} {rom : Rom} {m : Memory} {w : W}
  {o : Outcome (W × List Exchange)} {p' : Provider (W × List Exchange)}

theorem exists_provider (h : s.recorded.provider = .ok p') :
    ∃ p, s.provider = .ok p ∧ p' = p.recorded s.typeId := by
  rw [provider_recorded] at h
  obtain ⟨p, hp, rfl⟩ := map_eq_ok.1 h
  exact ⟨p, hp, rfl⟩

/-- What is recorded as answered was answered. -/
theorem answered {p : Provider W} {id : Option Json} {r : Request} {a : r.Answer}
    {w w' : W × List Exchange}
    (h : s.recorded.ask (p.recorded s.typeId) id r w = (.ok a, w')) :
    ∃ w₁, p.ask id r w.1 = (.ok a, w₁) ∧ w' = (w₁, w.2 ++ [⟨s.typeId, id, r, .ok a⟩]) := by
  unfold ask Provider.recorded at h
  dsimp only at h
  rcases hask : p.ask id r w.1 with ⟨_ | b, w₁⟩
  · rw [hask] at h
    cases h
  · rw [hask] at h
    cases h
    exact ⟨w₁, rfl, rfl⟩

theorem prepareCreate_eq_ok {x : Properties × Provider W} (h : s.prepareCreate m = .ok x) :
    m.requireObject s.op.name "properties" = .ok x.1 ∧ s.provider = .ok x.2 ∧
      (s.kind.schema.needsRemoteId = true → m.remoteId s.name = none) := by
  obtain ⟨properties, hproperties, h⟩ := bind_eq_ok.1 h
  split at h
  · cases h
  · next hfree =>
    obtain ⟨p, hp, h⟩ := bind_eq_ok.1 h
    cases h
    refine ⟨hproperties, hp, fun hneeds => ?_⟩
    simpa [hneeds] using hfree

/-! ### One operation after the other -/

theorem performed_create (hop : s.op = .create) (ho : s.recorded.create m (w, []) = o)
    (h : o.flow = .ok .next) : s.Performed rom m w o.memory o.world.1 o.world.2 := by
  unfold create at ho
  split at ho
  · subst ho
    cases h
  · next properties p' hprepare =>
    obtain ⟨hproperties, hprovider, hfree⟩ := prepareCreate_eq_ok hprepare
    obtain ⟨p, hp, rfl⟩ := exists_provider hprovider
    split at ho
    · subst ho
      cases h
    · next id w' hask =>
      obtain ⟨w₁, hcreate, rfl⟩ := answered hask
      dsimp only at ho
      split at ho
      · subst ho
        cases h
      · next hgiven =>
        subst ho
        refine .create hop hproperties (fun hneeds => ⟨hfree hneeds, ?_⟩) hp hcreate
        rintro rfl
        exact hgiven (by simpa using hneeds)

theorem performed_read (hop : s.op = .read) (ho : s.recorded.read m (w, []) = o)
    (h : o.flow = .ok .next) : s.Performed rom m w o.memory o.world.1 o.world.2 := by
  unfold read at ho
  split at ho
  · subst ho
    cases h
  · next p' hprovider =>
    obtain ⟨p, hp, rfl⟩ := exists_provider hprovider
    split at ho
    · next hnone =>
      dsimp only at ho
      split at ho
      · subst ho
        cases h
      · next found w' hask =>
        obtain ⟨w₁, hread, rfl⟩ := answered hask
        subst ho
        exact .read hop (List.isEmpty_iff.1 hnone) hp hread
    · next hsome =>
      dsimp only at ho
      split at ho
      · subst ho
        cases h
      · next found w' hask =>
        obtain ⟨w₁, hread, rfl⟩ := answered hask
        split at ho
        · subst ho
          cases h
        · next fields w' hask =>
          obtain ⟨w₂, houtputs, rfl⟩ := answered hask
          subst ho
          exact .readOutputs hop (fun hnil => hsome (List.isEmpty_iff.2 hnil)) hp hread houtputs

theorem next_of_sendUpdate {p : Provider W} {properties : Properties} {w : W × List Exchange}
    (ho : s.recorded.sendUpdate (p.recorded s.typeId) properties m w = o)
    (h : o.flow = .ok .next) :
    ∃ w', p.ask (m.remoteId s.name) (.update (s.mutableOnly properties)) w.1 = (.ok (), w') ∧
      o = .next m (w', w.2 ++ [⟨s.typeId, m.remoteId s.name,
        .update (s.mutableOnly properties), .ok ()⟩]) := by
  unfold sendUpdate at ho
  split at ho
  · subst ho
    cases h
  · next u w' hask =>
    obtain ⟨w₁, hupdate, rfl⟩ := answered hask
    exact ⟨w₁, hupdate, ho.symm⟩

theorem performed_update (hop : s.op = .update) (ho : s.recorded.update m (w, []) = o)
    (h : o.flow = .ok .next) : s.Performed rom m w o.memory o.world.1 o.world.2 := by
  unfold update at ho
  split at ho
  · subst ho
    cases h
  · next properties p' hstaged =>
    obtain ⟨_, hproperties, hstaged⟩ := bind_eq_ok.1 hstaged
    obtain ⟨_, hprovider, hstaged⟩ := bind_eq_ok.1 hstaged
    cases hstaged
    obtain ⟨p, hp, rfl⟩ := exists_provider hprovider
    split at ho
    · obtain ⟨w', hupdate, rfl⟩ := next_of_sendUpdate ho h
      exact .update hop hproperties hp hupdate
    · split at ho
      · subst ho
        cases h
      · next current w' hask =>
        obtain ⟨w₁, hread, rfl⟩ := answered hask
        split at ho
        · obtain ⟨w', hupdate, rfl⟩ := next_of_sendUpdate ho h
          exact .updateRead hop hproperties hp hread hupdate
        · subst ho
          cases h

theorem performed_delete (hop : s.op = .delete) (ho : s.recorded.delete m (w, []) = o)
    (h : o.flow = .ok .next) : s.Performed rom m w o.memory o.world.1 o.world.2 := by
  unfold delete at ho
  split at ho
  · subst ho
    cases h
  · next p' hprovider =>
    obtain ⟨p, hp, rfl⟩ := exists_provider hprovider
    split at ho
    · subst ho
      cases h
    · next u w' hask =>
      obtain ⟨w₁, hdelete, rfl⟩ := answered hask
      subst ho
      exact .delete hop hp hdelete

/-- Outputs are stored once they are given. -/
theorem next_of_storeOutputs {p : Provider W} {w : W × List Exchange}
    (ho : s.recorded.storeOutputs (p.recorded s.typeId) m w = o) (h : o.flow = .ok .next) :
    ∃ fields w', p.ask (m.remoteId s.name) .outputs w.1 = (.ok fields, w') ∧
      o = .next { m with outputs := m.outputs.insert s.name fields }
        (w', w.2 ++ [⟨s.typeId, m.remoteId s.name, .outputs, .ok fields⟩]) := by
  unfold storeOutputs at ho
  split at ho
  · subst ho
    cases h
  · next fields w' hask =>
    obtain ⟨w₁, houtputs, rfl⟩ := answered hask
    exact ⟨fields, w₁, houtputs, ho.symm⟩

theorem performed_checkChange {c : Change} (hop : s.op = .check c)
    (ho : s.recorded.checkChange c m (w, []) = o) (h : o.flow = .ok .next) :
    s.Performed rom m w o.memory o.world.1 o.world.2 := by
  unfold checkChange at ho
  split at ho
  · subst ho
    cases h
  · next p' hprovider =>
    obtain ⟨p, hp, rfl⟩ := exists_provider hprovider
    split at ho
    · subst ho
      cases h
    · next complete w' hask =>
      obtain ⟨w₁, hcomplete, rfl⟩ := answered hask
      dsimp only at ho
      split at ho
      · next htrue =>
        obtain rfl : complete = true := htrue
        obtain ⟨fields, w', houtputs, rfl⟩ := next_of_storeOutputs ho h
        exact .checkChange hop hp hcomplete houtputs
      · subst ho
        cases h

theorem performed_checkDelete (hop : s.op = .checkDelete)
    (ho : s.recorded.checkDelete m (w, []) = o) (h : o.flow = .ok .next) :
    s.Performed rom m w o.memory o.world.1 o.world.2 := by
  unfold checkDelete at ho
  split at ho
  · subst ho
    cases h
  · next p' hprovider =>
    obtain ⟨p, hp, rfl⟩ := exists_provider hprovider
    split at ho
    · subst ho
      cases h
    · next complete w' hask =>
      obtain ⟨w₁, hcomplete, rfl⟩ := answered hask
      dsimp only at ho
      split at ho
      · next htrue =>
        obtain rfl : complete = true := htrue
        subst ho
        exact .checkDelete hop hp hcomplete
      · subst ho
        cases h

theorem performed_checkExist (hop : s.op = .checkExist)
    (ho : s.recorded.checkExist m (w, []) = o) (h : o.flow = .ok .next) :
    s.Performed rom m w o.memory o.world.1 o.world.2 := by
  unfold checkExist at ho
  split at ho
  · next hneeds =>
    split at ho
    · subst ho
      cases h
    · next p' hprovider =>
      obtain ⟨p, hp, rfl⟩ := exists_provider hprovider
      split at ho
      · subst ho
        cases h
      · next found w' hask =>
        obtain ⟨w₁, hfound, rfl⟩ := answered hask
        subst ho
        exact .checkExist hop hneeds hp hfound
  · next hneeds =>
    subst ho
    exact .presume hop (Bool.eq_false_iff.2 hneeds)

theorem performed_markDeletable (hop : s.op = .markDeletable)
    (ho : s.recorded.markDeletable m (w, []) = o) (h : o.flow = .ok .next) :
    s.Performed rom m w o.memory o.world.1 o.world.2 := by
  unfold markDeletable at ho
  dsimp only at ho
  split at ho
  · subst ho
    cases h
  · next hfree =>
    subst ho
    exact .markDeletable hop (by simpa using hfree) rfl

theorem performed_filter (hop : s.op = .filter) (ho : s.recorded.filter m (w, []) = o)
    (h : o.flow = .ok .next) : s.Performed rom m w o.memory o.world.1 o.world.2 := by
  unfold filter at ho
  split at ho
  · subst ho
    cases h
  · subst ho
    exact .filter hop

theorem performed_rescmp (hop : s.op = .rescmp) (ho : s.recorded.rescmp rom m (w, []) = o)
    (h : o.flow = .ok .next) : s.Performed rom m w o.memory o.world.1 o.world.2 := by
  unfold rescmp at ho
  split at ho
  · subst ho
    cases h
  · next d hdecide =>
    subst ho
    exact .rescmp hop hdecide

/-- **An operation that is done got the answers it needs, and they are recorded.** -/
theorem performed (ho : s.recorded.perform rom m (w, []) = o) (h : o.flow = .ok .next) :
    s.Performed rom m w o.memory o.world.1 o.world.2 := by
  unfold perform at ho
  rw [op_recorded] at ho
  split at ho
  · next hop => exact performed_create hop ho h
  · next hop => exact performed_read hop ho h
  · next hop => exact performed_update hop ho h
  · next hop => exact performed_delete hop ho h
  · next hop => exact performed_checkChange (c := .create) hop ho h
  · next hop => exact performed_checkChange (c := .update) hop ho h
  · next hop => exact performed_checkDelete hop ho h
  · next hop => exact performed_checkExist hop ho h
  · next hop => exact performed_markDeletable hop ho h
  · next hop => exact performed_filter hop ho h
  · next hop => exact performed_rescmp hop ho h

/-- Nothing is said but what the operation may say. -/
theorem may_say (ho : s.recorded.perform rom m (w, []) = o) {e : Exchange} (he : e ∈ o.world.2) :
    s.Says m e := by
  subst ho
  exact ((s.records_perform rom m (w, [])).said e he).resolve_left (List.not_mem_nil)

theorem eq_create_of_asks {op : ResourceOp} {properties : Properties}
    (h : op.asks (.create properties) = true) : op = .create := by
  cases op <;> first | rfl | cases h

/-- A creation that gave an identifier is done. -/
theorem next_of_created {t : String} {i : Option Json} {properties : Properties} {id : Json}
    (ho : s.recorded.perform rom m (w, []) = o)
    (h : ⟨t, i, .create properties, .ok (some id)⟩ ∈ o.world.2) : o.flow = .ok .next := by
  have hop : s.op = .create := eq_create_of_asks (may_say ho h).request
  unfold perform at ho
  rw [op_recorded, hop] at ho
  dsimp only at ho
  unfold create at ho
  split at ho
  · subst ho
    cases h
  · next properties' p' hprepare =>
    obtain ⟨-, hprovider, -⟩ := prepareCreate_eq_ok hprepare
    obtain ⟨p, -, rfl⟩ := exists_provider hprovider
    split at ho
    · next f w' hask =>
      -- What was refused is recorded as refused.
      subst ho
      unfold ask Provider.recorded at hask
      dsimp only at hask
      rcases hanswer : p.ask none (.create properties') w with ⟨reason | id', w₁⟩
      · rw [hanswer] at hask
        cases hask
        cases List.mem_singleton.1 h
      · rw [hanswer] at hask
        cases hask
    · next id' w' hask =>
      obtain ⟨w₁, -, rfl⟩ := answered hask
      dsimp only at ho
      split at ho
      · next hnone =>
        subst ho
        cases List.mem_singleton.1 h
        simp at hnone
      · subst ho
        rfl

/-- What is decided is what the comparison gives. -/
theorem decide_eq_ok {d : Decision} (h : s.decide rom m = .ok d) :
    ∃ fields current, rom.resolve m.outputValue s.name = .ok (.obj fields) ∧
      m.requireObject s.op.name "current" = .ok current ∧
      compare s.kind.schema current fields = d := by
  obtain ⟨v, hv, h⟩ := bind_eq_ok.1 h
  cases v with
  | obj fields =>
    obtain ⟨desired, hdesired, h⟩ := bind_eq_ok.1 h
    obtain rfl : fields = desired := Except.ok.inj hdesired
    obtain ⟨current, hcurrent, h⟩ := bind_eq_ok.1 h
    exact ⟨fields, current, hv, hcurrent, Except.ok.inj h⟩
  | null | bool | num | str | arr => cases h

/-! ### What each operation has done -/

section

variable {m' : Memory} {w' : W} {es : List Exchange}

/-- A creation that is done has tracked what the provider has given. -/
theorem Performed.of_create (h : s.Performed rom m w m' w' es) (hop : s.op = .create) :
    ∃ properties id, m' = { m with remoteIds := m.remoteIds.insert s.name (id.getD .null) } ∧
      es = [⟨s.typeId, none, .create properties, .ok id⟩] := by
  cases h with
  | create => exact ⟨_, _, rfl, rfl⟩
  | read hop' | readOutputs hop' | update hop' | updateRead hop' | delete hop' | checkChange hop'
  | checkDelete hop' | checkExist hop' | presume hop' | markDeletable hop'
  | filter hop' | rescmp hop' =>
    simp [hop, ResourceOp.eq_check_iff] at hop'

/-- A change that is checked was confirmed. -/
theorem Performed.of_check {c : Change} (h : s.Performed rom m w m' w' es)
    (hop : s.op = .check c) :
    ∃ fields, m' = { m with outputs := m.outputs.insert s.name fields } ∧
      es = [⟨s.typeId, m.remoteId s.name, .complete c, .ok true⟩,
        ⟨s.typeId, m.remoteId s.name, .outputs, .ok fields⟩] := by
  cases h with
  | checkChange hop' =>
    obtain rfl := ResourceOp.check_inj (hop.symm.trans hop')
    exact ⟨_, rfl, rfl⟩
  | create hop' | read hop' | readOutputs hop' | update hop' | updateRead hop' | delete hop'
  | checkDelete hop' | checkExist hop' | presume hop' | markDeletable hop'
  | filter hop' | rescmp hop' =>
    rw [hop] at hop'
    cases c <;> cases hop'

/-- A deletion that is checked was confirmed. -/
theorem Performed.of_checkDelete (h : s.Performed rom m w m' w' es) (hop : s.op = .checkDelete) :
    m' = confirmDeleted m s.name ∧
      es = [⟨s.typeId, m.remoteId s.name, .deleteComplete, .ok true⟩] := by
  cases h with
  | checkDelete => exact ⟨rfl, rfl⟩
  | create hop' | read hop' | readOutputs hop' | update hop' | updateRead hop' | delete hop'
  | checkChange hop' | checkExist hop' | presume hop' | markDeletable hop'
  | filter hop' | rescmp hop' =>
    simp [hop, ResourceOp.eq_check_iff] at hop'

/-- A probe that is done was told whether the object is there, or needed not to ask. -/
theorem Performed.of_checkExist (h : s.Performed rom m w m' w' es) (hop : s.op = .checkExist) :
    (∃ (p : Provider W) (found : Bool), s.provider = .ok p ∧
      p.ask (m.remoteId s.name) .found w = (.ok found, w') ∧ m' = m.setTest found ∧
      es = [⟨s.typeId, m.remoteId s.name, .found, .ok found⟩]) ∨
    (s.kind.schema.needsRemoteId = false ∧ m' = m.setTest true ∧ es = []) := by
  cases h with
  | checkExist _ _ hp hask => exact .inl ⟨_, _, hp, hask, rfl, rfl⟩
  | presume _ hneeds => exact .inr ⟨hneeds, rfl, rfl⟩
  | create hop' | read hop' | readOutputs hop' | update hop' | updateRead hop' | delete hop'
  | checkChange hop' | checkDelete hop' | markDeletable hop' | filter hop'
  | rescmp hop' =>
    simp [hop, ResourceOp.eq_check_iff] at hop'

/-- What is put aside is tracked under the other name instead. -/
theorem Performed.of_markDeletable (h : s.Performed rom m w m' w' es)
    (hop : s.op = .markDeletable) :
    m' = { m with
      remoteIds := (m.remoteIds.erase s.name).insert (deletable s.name)
        ((m.remoteIds.get? s.name).getD .null) } := by
  cases h with
  | markDeletable _ _ hid => rw [hid]
  | create hop' | read hop' | readOutputs hop' | update hop' | updateRead hop' | delete hop'
  | checkChange hop' | checkDelete hop' | checkExist hop' | presume hop'
  | filter hop' | rescmp hop' =>
    simp [hop, ResourceOp.eq_check_iff] at hop'

/-- A comparison that is done has recorded what it gives. -/
theorem Performed.decided (h : s.Performed rom m w m' w' es) (hop : s.op = .rescmp) :
    ∃ d, s.decide rom m = .ok d ∧ m' = { m with decisions := m.decisions.insert s.name d } ∧
      w' = w := by
  cases h with
  | rescmp _ hdecide => exact ⟨_, hdecide, rfl, rfl⟩
  | create hop' | read hop' | readOutputs hop' | update hop' | updateRead hop' | delete hop'
  | checkChange hop' | checkDelete hop' | checkExist hop' | presume hop'
  | markDeletable hop' | filter hop' =>
    simp [hop, ResourceOp.eq_check_iff] at hop'

end

end Staged

end Provisioning
