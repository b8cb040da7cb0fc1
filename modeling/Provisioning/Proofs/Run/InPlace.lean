/-
Changes in place.

What has to happen to an object and what is sent to it are computed in four places: the decision,
the list of immutable fields that would change, the fields that an update may send, and the fields
that the update instruction takes from what is staged.  A field may be listed more than once, and
as mutable and immutable at the same time, so it is not by their form that the four agree.  They
agree because each of them asks of a field only whether it is bound and whether it differs.

Whatever the lists, sending what may be sent leaves nothing to be done; and where the decision is
to change the object in place, the update instruction sends just that: `reconciles`.
-/
import Provisioning.Proofs.Reconcile
import Provisioning.Proofs.Run.Dialogue

namespace Provisioning

/-! ### Fields that are picked -/

namespace Entries

variable {α : Type}

/-- Entries with distinct names that bind the same names to the same values are the same
entries. -/
theorem perm_of_get? {es fs : Entries α} (hes : es.keys.Nodup) (hfs : fs.keys.Nodup)
    (h : ∀ k, es.get? k = fs.get? k) : es.Perm fs := by
  refine (List.perm_ext_iff_of_nodup (List.Nodup.of_map _ hes) (List.Nodup.of_map _ hfs)).2 ?_
  rintro ⟨k, v⟩
  rw [← get?_eq_some_iff hes, ← get?_eq_some_iff hfs, h k]

end Entries

theorem pick_cons (desired : Properties) (f : String) (fields : List String)
    (result : Properties) :
    pick desired (f :: fields) result = pick desired fields (match desired.get? f with
      | some v => result.set f v
      | none => result) := rfl

theorem get?_pick (desired : Properties) (fields : List String) (result : Properties)
    (f : String) : (pick desired fields result).get? f =
      if f ∈ fields then (desired.get? f).or (result.get? f) else result.get? f := by
  induction fields generalizing result with
  | nil => rfl
  | cons g rest ih =>
    rw [pick_cons, ih]
    cases hg : desired.get? g with
    | none =>
      by_cases hf : f = g
      · subst hf
        simp [hg]
      · simp [hf]
    | some v =>
      simp only [Entries.get?_set]
      by_cases hf : f = g
      · subst hf
        simp [hg]
      · simp [hf, Ne.symm hf]

theorem nodup_pick (desired : Properties) (fields : List String) {result : Properties}
    (h : result.keys.Nodup) : (pick desired fields result).keys.Nodup := by
  induction fields generalizing result with
  | nil => exact h
  | cons g rest ih =>
    rw [pick_cons]
    refine ih ?_
    split
    · exact Entries.nodup_set h _ _
    · exact h

/-! ### Fields that differ -/

section

variable {s : Schema} {current desired : Properties} {f : String}

theorem differs_eq_false : differs current desired f = false ↔
    ∀ want, desired.get? f = some want →
      ((current.get? f).getD .null).same want = true := by
  unfold differs
  cases desired.get? f <;> simp

theorem not_differs_of_unbound (h : desired.get? f = none) : differs current desired f = false :=
  differs_eq_false.2 fun _ hwant => absurd (hwant.symm.trans h) nofun

theorem changedImmutable_eq_nil : changedImmutable s current desired = [] ↔
    ∀ f ∈ s.immutableFields, differs current desired f = false := by
  unfold changedImmutable
  simp [List.filter_eq_nil_iff]

theorem mem_changedImmutable : f ∈ changedImmutable s current desired ↔
    f ∈ s.immutableFields ∧ differs current desired f = true := List.mem_filter

theorem compare_eq_recreate :
    compare s current desired = .recreate ↔ changedImmutable s current desired ≠ [] := by
  have hany : s.immutableFields.any (differs current desired) = true ↔
      changedImmutable s current desired ≠ [] := by
    unfold changedImmutable
    rw [Ne, List.filter_eq_nil_iff, List.any_eq_true]
    simp
  rw [← hany, compare]
  split
  · next h => simp [h]
  · next h => split <;> simp [h]

theorem compare_eq_noChange_iff :
    compare s current desired = .noChange ↔
      ∀ f, s.settable f = true → differs current desired f = false := by
  have hnone : (∀ f, s.settable f = true → differs current desired f = false) ↔
      s.immutableFields.any (differs current desired) = false ∧
        s.mutableFields.any (differs current desired) = false := by
    simp only [← Schema.mem_readable, Schema.readable, List.forall_mem_append, List.any_eq_false,
      Bool.not_eq_true]
  rw [hnone, compare]
  cases s.immutableFields.any (differs current desired) <;>
    cases s.mutableFields.any (differs current desired) <;> simp

theorem get?_updatable : (updatable s current desired).get? f =
    if f ∈ s.mutableFields ∨ f ∈ changedImmutable s current desired then desired.get? f
    else none := by
  unfold updatable
  rw [get?_pick, get?_pick]
  by_cases hm : f ∈ s.mutableFields <;> by_cases hi : f ∈ changedImmutable s current desired <;>
    simp [hm, hi]

theorem nodup_updatable (s : Schema) (current desired : Properties) :
    (updatable s current desired).keys.Nodup :=
  nodup_pick _ _ (nodup_pick _ _ List.nodup_nil)

theorem not_differs_of_get? (hsound : ∀ e ∈ desired, e.2.Sound)
    (h : current.get? f = desired.get? f) : differs current desired f = false := by
  refine differs_eq_false.2 fun want hwant => ?_
  rw [h, hwant]
  exact hsound _ (Entries.mem_of_get? hwant)

theorem differs_congr {current' : Properties}
    (h : (current'.get? f).getD .null = (current.get? f).getD .null) :
    differs current' desired f = differs current desired f := by
  unfold differs
  rw [h]

/-- **With what may be sent laid over an object, nothing has to happen to it.** -/
theorem compare_overlay (hsound : ∀ e ∈ desired, e.2.Sound) :
    compare s (Entries.overlay current (updatable s current desired)) desired = .noChange := by
  refine compare_eq_noChange_iff.2 fun f hf => ?_
  have hget := Entries.get?_overlay current (nodup_updatable s current desired) f
  rw [get?_updatable] at hget
  by_cases hsent : f ∈ s.mutableFields ∨ f ∈ changedImmutable s current desired
  · rw [if_pos hsent] at hget
    cases hwant : desired.get? f with
    | none => exact not_differs_of_unbound hwant
    | some want =>
      refine not_differs_of_get? hsound ?_
      rw [hget, hwant]
      rfl
  · rw [if_neg hsent, Option.none_or] at hget
    rw [not_or, mem_changedImmutable, not_and, Bool.not_eq_true] at hsent
    have hsame := hsent.2 ((List.mem_append.1 (Schema.mem_readable.2 hf)).resolve_right hsent.1)
    exact (differs_congr (by rw [hget])).trans hsame

/-- Where no immutable field changes, only what is mutable may be sent. -/
theorem updatable_perm (hnames : desired.keys.Nodup)
    (h : changedImmutable s current desired = []) :
    List.Perm (desired.filter fun e => s.mutableFields.contains e.1)
      (updatable s current desired) := by
  have hkeys : Entries.keys (desired.filter fun e => s.mutableFields.contains e.1) |>.Nodup :=
    hnames.sublist (List.filter_sublist.map Prod.fst)
  refine Entries.perm_of_get? hkeys (nodup_updatable s current desired) fun f => ?_
  rw [Entries.get?_filter, get?_updatable, h]
  simp

end

/-! ### The update instruction -/

/-- An update is staged: a name, a type that has a provider, and what is wanted. -/
structure Memory.StagesUpdate {W : Type} (m : Memory) (types : Registry W) (s : Schema)
    (q : Provider W) (name typeId : String) (desired : Properties) : Prop where
  named : m.temp.get? "resource_name" = some (.str name)
  typed : m.temp.get? "resource_desc" = some (.str typeId)
  wanted : m.temp.get? "properties" = some (.obj desired)
  registered : types.get? typeId = some ⟨s, some q⟩

/-- Asked for fields, the provider gives values equal to those in `current`; what is absent counts
as `null`. -/
def Provider.Gives {W : Type} (q : Provider W) (id : Option Json) (fields : List String)
    (current : Properties) (w : W) : Prop :=
  ∃ found w', q.ask id (.read fields) w = (.ok found, w') ∧
    ∀ f ∈ fields, ((found.get? f).getD .null).same ((current.get? f).getD .null) = true

/-- What is left behind by an update in place: before `sent` was sent nothing was done but to read,
and the update is done, or its refusal is the fault. -/
def Outcome.UpdatesWith {W : Type} (o : Outcome (W × List Exchange)) (name typeId : String)
    (id : Option Json) (sent : Properties) : Prop :=
  ∃ reading, ∃ answer : Except String Unit,
    o.world.2 = reading ++ [⟨typeId, id, .update sent, answer⟩] ∧
    (∀ x ∈ reading, ∃ fields, x.request = .read fields) ∧
    o.flow = match answer with
      | .ok _ => .ok .next
      | .error reason => .error (.backend "update" name reason)

section

variable {W : Type} {s : Schema} {current desired : Properties} {p : Program}
  {types : Registry W} {q : Provider W} {m : Memory} {w : W} {name typeId : String}

theorem Memory.StagesUpdate.ofMemory (h : m.StagesUpdate types s q name typeId desired) :
    Staged.ofMemory types .update m = .ok ⟨.update, name, typeId, ⟨s, some q⟩⟩ := by
  unfold Staged.ofMemory Memory.requireStr Memory.require Registry.resolve
  rw [h.named, h.typed]
  simp only [bind, Except.bind, pure, Except.pure, h.registered]

theorem Memory.StagesUpdate.execute_eq (h : m.StagesUpdate types s q name typeId desired)
    (world : W × List Exchange) :
    execute p types.recorded (.resource .update) m world =
      (Staged.recorded ⟨.update, name, typeId, ⟨s, some q⟩⟩).update m world := by
  have hkeys : ∀ key ∈ (Instruction.resource .update).requiredKeys,
      m.temp.contains key = true := by
    simp [Instruction.requiredKeys, Entries.contains, h.named, h.typed, h.wanted]
  rw [execute_eq_perform hkeys, perform, Staged.ofMemory_recorded, h.ofMemory]
  rfl

theorem Provider.ask_recorded_eq {id : Option Json} {r : Request} {answer : Except String r.Answer}
    {w' : W} (h : q.ask id r w = (answer, w')) (said : List Exchange) :
    (q.recorded typeId).ask id r (w, said) = (answer, w', said ++ [⟨typeId, id, r, answer⟩]) := by
  unfold Provider.recorded
  dsimp only
  rw [h]

/-- What is sent is what is mutable of what was staged. -/
theorem Staged.updatesWith_sendUpdate (s : Staged W) (hop : s.op = .update) {said : List Exchange}
    (hsaid : ∀ x ∈ said, ∃ fields, x.request = .read fields) (properties : Properties) :
    (s.recorded.sendUpdate (q.recorded s.typeId) properties m (w, said)).UpdatesWith s.name
      s.typeId (m.remoteId s.name) (s.mutableOnly properties) := by
  obtain ⟨⟨answer, w'⟩, hask⟩ : ∃ answered, q.ask (m.remoteId s.name)
      (.update (s.mutableOnly properties)) w = answered := ⟨_, rfl⟩
  refine ⟨said, answer, ?_, hsaid, ?_⟩ <;> unfold sendUpdate ask <;>
    rw [mutableOnly_recorded, name_recorded, Provider.ask_recorded_eq hask, op_recorded, hop] <;>
    cases answer <;> rfl

/-- What is staged is sent, once the immutable fields that are bound are known not to change. -/
theorem Staged.update_of_unchanged {s : Staged W} {properties : Properties}
    (hproperties : m.requireObject s.op.name "properties" = .ok properties)
    (hprovider : s.provider = .ok q)
    (hfixed : s.kind.schema.immutableFields.filter properties.contains ≠ [] → ∃ found w',
      q.ask (m.remoteId s.name)
          (.read (s.kind.schema.immutableFields.filter properties.contains)) w =
        (.ok found, w') ∧ changedImmutable s.kind.schema found properties = []) :
    ∃ w', s.update m w = s.sendUpdate q properties m w' ∧
      (w' = w ∨ ∃ fields, (q.ask (m.remoteId s.name) (.read fields) w).2 = w') := by
  unfold update
  rw [hproperties, hprovider]
  simp only [bind, Except.bind, pure, Except.pure]
  split
  · exact ⟨w, rfl, .inl rfl⟩
  · next hne =>
    obtain ⟨found, w', hask, hnone⟩ := hfixed hne
    refine ⟨w', ?_, .inr ⟨_, congrArg Prod.snd hask⟩⟩
    unfold ask
    rw [hask]
    dsimp only
    rw [hnone]

/-- **An update in place sends what is mutable of what is wanted.** -/
theorem Memory.StagesUpdate.updatesWith (h : m.StagesUpdate types s q name typeId desired)
    (hgives : s.immutableFields.filter desired.contains ≠ [] →
      q.Gives (m.remoteId name) (s.immutableFields.filter desired.contains) current w)
    (hnone : changedImmutable s current desired = []) :
    (execute p types.recorded (.resource .update) m (w, [])).UpdatesWith name typeId
      (m.remoteId name) (desired.filter fun e => s.mutableFields.contains e.1) := by
  obtain ⟨staged, hstaged⟩ : ∃ staged : Staged W, staged = ⟨.update, name, typeId, ⟨s, some q⟩⟩ :=
    ⟨_, rfl⟩
  have hproperties : m.requireObject staged.recorded.op.name "properties" = .ok desired := by
    unfold Memory.requireObject Memory.require
    rw [h.wanted]
    rfl
  have hprovider : staged.recorded.provider = .ok (q.recorded typeId) := by
    rw [hstaged]
    rfl
  obtain ⟨⟨w', said⟩, hupdate, hsaid⟩ :=
    Staged.update_of_unchanged (w := (w, [])) hproperties hprovider fun hfixed => by
      rw [hstaged] at hfixed ⊢
      obtain ⟨found, w', hask, hfound⟩ := hgives hfixed
      refine ⟨found, _, Provider.ask_recorded_eq hask [], changedImmutable_eq_nil.2 fun f hf => ?_⟩
      cases hwant : desired.get? f with
      | none => exact not_differs_of_unbound hwant
      | some want =>
        have hbound : f ∈ s.immutableFields.filter desired.contains :=
          List.mem_filter.2 ⟨hf, by simp [Entries.contains, hwant]⟩
        have hwanted := differs_eq_false.1 (changedImmutable_eq_nil.1 hnone f hf)
        exact differs_eq_false.2 fun v hv => Json.same_trans _ _ _ (hfound f hbound) (hwanted v hv)
  have hreading : ∀ x ∈ said, ∃ fields, x.request = .read fields := by
    rcases hsaid with hsaid | ⟨fields, hsaid⟩
    · rw [(Prod.mk.inj hsaid).2]
      exact nofun
    · obtain rfl : [_] = said := congrArg Prod.snd hsaid
      intro x hx
      obtain rfl := List.mem_singleton.1 hx
      exact ⟨fields, rfl⟩
  rw [h.execute_eq, ← hstaged, hupdate]
  have hsent := staged.updatesWith_sendUpdate (q := q) (m := m) (w := w') (by rw [hstaged]) hreading
    desired
  subst hstaged
  exact hsent

end

/-! ### How it all agrees -/

/-- What is decided about an object and what is sent to it agree. -/
structure Schema.Reconciles (s : Schema) (current desired : Properties) : Prop where
  /-- A new object is called for exactly if some immutable field would change. -/
  recreate : compare s current desired = .recreate ↔ changedImmutable s current desired ≠ []
  /-- Nothing has to happen exactly if every bound field that can be set is as it is wanted;
  what is absent counts as `null`. -/
  noChange : compare s current desired = .noChange ↔
    ∀ f, s.settable f = true → ∀ want, desired.get? f = some want →
      ((current.get? f).getD .null).same want = true
  /-- With what may be sent laid over the object, nothing has to happen to it. -/
  settles : compare s (Entries.overlay current (updatable s current desired)) desired = .noChange
  /-- If the object is to be changed in place, the update instruction finds no immutable field
  changed and sends what may be sent, which leaves nothing to be done. -/
  modify : compare s current desired = .modify →
    ∀ {W : Type} (p : Program) (types : Registry W) (q : Provider W) (m : Memory) (w : W)
      (name typeId : String), m.StagesUpdate types s q name typeId desired →
      (s.immutableFields.filter desired.contains ≠ [] →
        q.Gives (m.remoteId name) (s.immutableFields.filter desired.contains) current w) →
      (∀ fields, (execute p types (.resource .update) m w).flow ≠
        .error (.immutableFieldChanged name fields)) ∧
      ∃ sent, (execute p types.recorded (.resource .update) m (w, [])).UpdatesWith name typeId
          (m.remoteId name) sent ∧
        sent.Perm (updatable s current desired) ∧
        compare s (Entries.overlay current sent) desired = .noChange

theorem compare_congr {s : Schema} {current current' desired : Properties}
    (h : ∀ f, current'.get? f = current.get? f) :
    compare s current' desired = compare s current desired := by
  have hdiffers : differs current' desired = differs current desired :=
    funext fun f => differs_congr (by rw [h f])
  rw [compare, compare, hdiffers]

theorem Outcome.UpdatesWith.flow_ne {W : Type} {o : Outcome (W × List Exchange)}
    {name typeId : String} {id : Option Json} {sent : Properties}
    (h : o.UpdatesWith name typeId id sent) (fields : List String) :
    o.flow ≠ .error (.immutableFieldChanged name fields) := by
  obtain ⟨reading, answer, -, -, hflow⟩ := h
  rw [hflow]
  cases answer <;> exact nofun

/-- **What is decided about an object and what is sent to it agree, and converge.**  This holds
for any lists of fields, with repetitions and overlaps; that the wanted fields have distinct names
and that their values are equal to themselves is all that is asked of them. -/
theorem reconciles (s : Schema) (current : Properties) {desired : Properties}
    (hnames : desired.keys.Nodup) (hsound : ∀ e ∈ desired, e.2.Sound) :
    s.Reconciles current desired where
  recreate := compare_eq_recreate
  noChange := by simp only [compare_eq_noChange_iff, differs_eq_false]
  settles := compare_overlay hsound
  modify := by
    intro hmodify W p types q m w name typeId hstaged hgives
    have hnone : changedImmutable s current desired = [] := by
      by_contra hchanged
      rw [compare_eq_recreate.2 hchanged] at hmodify
      cases hmodify
    have hupdates := hstaged.updatesWith (p := p) hgives hnone
    have hperm := updatable_perm hnames hnone
    have hkeys := nodup_updatable s current desired
    have hsame : ∀ f, Entries.get? (Entries.overlay current
          (desired.filter fun e => s.mutableFields.contains e.1)) f =
        Entries.get? (Entries.overlay current (updatable s current desired)) f := by
      intro f
      rw [Entries.get?_overlay _ hkeys,
        Entries.get?_overlay _ ((hperm.map Prod.fst).nodup_iff.2 hkeys),
        ← Entries.get?_perm hkeys hperm.symm f]
    refine ⟨fun fields => ?_, _, hupdates, hperm, ?_⟩
    · rw [← show _ = (execute p types (.resource .update) m w).flow from
        congrArg Outcome.flow (forget_execute (.resource .update) (w, []))]
      exact hupdates.flow_ne fields
    · rw [compare_congr hsame]
      exact compare_overlay hsound

/-- A provider that reads the same fields of every object. -/
def constantProvider (found : Properties) : Provider Unit where
  ask id request w := match request with
    | .read _ => (.ok found, w)
    | other => plainProvider.ask id other w

/-- One field is mutable and immutable here, and fields are listed twice.  The owner is wanted as
`null`, which it is where it is absent; so only the contents are out of date, and what is sent are
the two fields that are listed as mutable. -/
theorem reconciles_overlapping :
    let s : Schema := ⟨["contents", "contents", "name"], ["name", "owner", "owner"], [], [], true,
      false⟩
    let current : Properties := [("name", .str "a"), ("contents", .str "old")]
    let desired : Properties := [("owner", .null), ("contents", .str "new"), ("name", .str "a")]
    let types : Registry Unit :=
      Table.ofList [("file", ⟨s, some (constantProvider [("name", .str "a")])⟩)]
    let m := { Memory.fresh with
      temp := [("resource_name", .str "x"), ("resource_desc", .str "file"),
        ("properties", .obj desired)] }
    s.Reconciles current desired ∧ compare s current desired = .modify ∧
      ∃ sent, (execute Program.empty types.recorded (.resource .update) m ((), [])).UpdatesWith "x"
          "file" none sent ∧
        sent.Perm [("contents", .str "new"), ("name", .str "a")] := by
  intro s current desired types m
  have hsound : ∀ e ∈ desired, e.2.Sound := by
    simp [desired, Json.sound_null, Json.sound_str]
  have h : s.Reconciles current desired := reconciles s current (by decide) hsound
  have hmodify : compare s current desired = .modify := by decide +kernel
  obtain ⟨-, sent, hsent, hperm, -⟩ := h.modify hmodify Program.empty types
    (constantProvider [("name", .str "a")]) m () "x" "file" ⟨rfl, rfl, rfl, rfl⟩
    fun _ => ⟨_, _, rfl, by decide +kernel⟩
  exact ⟨h, hmodify, sent, hsent, hperm⟩

end Provisioning
