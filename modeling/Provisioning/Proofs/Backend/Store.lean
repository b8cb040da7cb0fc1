/-
Backends that store objects.

A `Store` tells, for each world, which objects are there and which identifiers were ever given.
A provider keeps the objects of a type if it does what one expects of a store: a creation
stores the given fields under a fresh identifier, together with what the backend adds; an
update writes the given fields over the stored ones; a deletion removes the object; whatever
is read is what is stored, and to look changes nothing.  Any request may be refused, and then
nothing happens.

A provider is obliging if it refuses nothing but what concerns an object that is not there,
and fields that are no values.

What an operation does to the objects follows from what it asked: `unchanged`, `created`,
`updated` and `deleted`.  An operation that is stopped leaves them as they were, and an
obliging provider stops no operation that is `Ready`.
-/
import Provisioning.Proofs.Reconcile
import Provisioning.Proofs.Run.Performed

namespace Provisioning

/-- Whether a request only looks. -/
def Request.looks : Request → Bool
  | .create _ | .update _ | .delete => false
  | .read _ | .outputs | .found | .complete _ | .deleteComplete => true

/-- What is stored in a world. -/
structure Store (W : Type) where
  /-- The fields of the object of a type with an identifier, if it is there. -/
  object : W → String → Json → Option (String → Option Json)
  /-- The identifiers that objects of a type have or had. -/
  given : W → String → Json → Prop

namespace Store

variable {W : Type}

/-- The object that a handle stands for. -/
def held (S : Store W) (w : W) (typeId : String) (id : Option Json) :
    Option (String → Option Json) :=
  id.bind (S.object w typeId)

/-- All objects are as they were. -/
structure Unchanged (S : Store W) (w w' : W) : Prop where
  object : ∀ typeId id, S.object w' typeId id = S.object w typeId id
  given : ∀ typeId id, S.given w typeId id → S.given w' typeId id

/-- The object of a handle is now `object`, and all others are as they were. -/
structure Changes (S : Store W) (w w' : W) (typeId : String) (handle : Option Json)
    (object : Option (String → Option Json)) : Prop where
  changed : S.held w' typeId handle = object
  others : ∀ typeId' id, ¬ (typeId' = typeId ∧ handle = some id) →
    S.object w' typeId' id = S.object w typeId' id
  given : ∀ typeId' id, S.given w typeId' id → S.given w' typeId' id

/-- A provider keeps the objects of a type in the store. -/
structure Keeps (S : Store W) (typeId : String) (schema : Schema) (p : Provider W) : Prop where
  /-- What is stored is equal to itself. -/
  sound : ∀ {w id object f v}, S.object w typeId id = some object → object f = some v → v.Sound
  /-- An identifier is not `null`, and equal to itself. -/
  identifies : ∀ {w id}, S.given w typeId id → id ≠ .null ∧ id.Sound
  /-- A new object has the given fields and what the backend adds, under a fresh identifier. -/
  create : ∀ {properties : Properties} {w w' : W} {id : Option Json},
    p.ask none (.create properties) w = (.ok id, w') →
      ∃ (v : Json) (extra : String → Option Json), id = some v ∧
      ¬ S.given w typeId v ∧ S.given w' typeId v ∧
      S.Changes w w' typeId (some v) (some fun f => (properties.get? f).or (extra f))
  /-- The given fields are written over the stored ones. -/
  update : ∀ {handle : Option Json} {properties : Properties} {w w' : W},
    p.ask handle (.update properties) w = (.ok (), w') →
      S.Changes w w' typeId handle ((S.held w typeId handle).map
        fun object f => (properties.get? f).or (object f))
  delete : ∀ {handle : Option Json} {w w' : W}, p.ask handle .delete w = (.ok (), w') →
    S.Changes w w' typeId handle none
  /-- To look changes nothing. -/
  looks : ∀ (handle : Option Json) (r : Request) (w : W), r.looks = true →
    S.Unchanged w (p.ask handle r w).2
  /-- What is refused is not done. -/
  refused : ∀ {handle : Option Json} {r : Request} {w w' : W} {reason : String},
    p.ask handle r w = (.error reason, w') → S.Unchanged w w'
  /-- Only what is there can be read. -/
  read : ∀ {handle : Option Json} {fields : List String} {w w' : W} {found : Properties},
    p.ask handle (.read fields) w = (.ok found, w') →
      ∃ object, S.held w typeId handle = some object ∧ ∀ f ∈ fields, found.get? f = object f
  outputs : ∀ {handle : Option Json} {w w' : W} {found : Properties}
    {object : String → Option Json}, p.ask handle .outputs w = (.ok found, w') →
      S.held w typeId handle = some object → ∀ f ∈ schema.outputs, found.get? f = object f
  found : ∀ {handle : Option Json} {w w' : W} {b : Bool}, p.ask handle .found w = (.ok b, w') →
    b = (S.held w typeId handle).isSome
  /-- Everything is complete at once. -/
  complete : ∀ {c : Change} {handle : Option Json} {w w' : W} {b : Bool},
    p.ask handle (.complete c) w = (.ok b, w') → b = true
  deleteComplete : ∀ {handle : Option Json} {w w' : W} {b : Bool},
    p.ask handle .deleteComplete w = (.ok b, w') → b = true

/-- What may not be refused: to write values, to read what is there, and anything else. -/
def Allows (S : Store W) (w : W) (typeId : String) (handle : Option Json) : Request → Prop
  | .create properties => ∀ e ∈ properties, e.2.Sound
  | .read _ | .outputs => S.held w typeId handle ≠ none
  | .update properties => S.held w typeId handle ≠ none ∧ ∀ e ∈ properties, e.2.Sound
  | .delete | .found | .complete _ | .deleteComplete => True

/-- A provider only refuses what it may. -/
def Obliges (S : Store W) (typeId : String) (p : Provider W) : Prop :=
  ∀ (handle : Option Json) (r : Request) (w : W), S.Allows w typeId handle r →
    ∃ a w', p.ask handle r w = (.ok a, w')

/-- The objects of every registered type are kept in the store. -/
def Serves (S : Store W) (types : Registry W) : Prop :=
  ∀ typeId kind, types.get? typeId = some kind →
    ∃ p, kind.provider = some p ∧ S.Keeps typeId kind.schema p

/-- Nothing is refused that may not be. -/
def Obliging (S : Store W) (types : Registry W) : Prop :=
  ∀ typeId kind p, types.get? typeId = some kind → kind.provider = some p → S.Obliges typeId p

variable {S : Store W} {w w₁ w' : W} {typeId : String} {handle : Option Json}
  {object : Option (String → Option Json)}

theorem Unchanged.refl (S : Store W) (w : W) : S.Unchanged w w := ⟨fun _ _ => rfl, fun _ _ h => h⟩

theorem Unchanged.trans (h : S.Unchanged w w₁) (h' : S.Unchanged w₁ w') : S.Unchanged w w' where
  object typeId id := (h'.object typeId id).trans (h.object typeId id)
  given typeId id hgiven := h'.given typeId id (h.given typeId id hgiven)

theorem Unchanged.held (h : S.Unchanged w w') (typeId : String) (handle : Option Json) :
    S.held w' typeId handle = S.held w typeId handle := by
  cases handle with
  | none => rfl
  | some id => exact h.object typeId id

theorem Unchanged.changes (h : S.Unchanged w w₁) (h' : S.Changes w₁ w' typeId handle object) :
    S.Changes w w' typeId handle object where
  changed := h'.changed
  others typeId' id hne := (h'.others typeId' id hne).trans (h.object typeId' id)
  given typeId' id hgiven := h'.given typeId' id (h.given typeId' id hgiven)

/-- Other handles stand for the objects they stood for. -/
theorem Changes.held_of_ne (h : S.Changes w w' typeId handle object) {typeId' : String}
    {handle' : Option Json} (hne : ∀ id, handle' = some id → ¬ (typeId' = typeId ∧ handle = some id)) :
    S.held w' typeId' handle' = S.held w typeId' handle' := by
  cases handle' with
  | none => rfl
  | some id => exact h.others typeId' id (hne id rfl)

end Store

/-! ### What operations do to objects -/

/-- Whether an operation changes objects. -/
def ResourceOp.alters : ResourceOp → Bool
  | .create | .update | .delete => true
  | _ => false

namespace Staged

variable {W : Type} {S : Store W} {s : Staged W} {rom : Rom} {m m' : Memory} {w w' : W}
  {es : List Exchange}

/-- What a look leaves is what was there. -/
theorem unchanged_of_ask {p : Provider W} (hkeeps : S.Keeps s.typeId s.kind.schema p)
    {handle : Option Json} {r : Request} {a : Except String r.Answer}
    (h : p.ask handle r w = (a, w')) (hlooks : r.looks = true) : S.Unchanged w w' := by
  have hunchanged := hkeeps.looks handle r w hlooks
  rwa [h] at hunchanged

section

variable (hkeeps : ∀ p, s.provider = .ok p → S.Keeps s.typeId s.kind.schema p)

include hkeeps

/-- Most operations leave all objects as they are. -/
theorem unchanged (h : s.Performed rom m w m' w' es) (hop : s.op.alters = false) :
    S.Unchanged w w' := by
  cases h with
  | create hop' | update hop' | updateRead hop' | delete hop' =>
    rw [hop'] at hop
    cases hop
  | read _ _ hp hask => exact unchanged_of_ask (hkeeps _ hp) hask rfl
  | checkDelete _ hp hask => exact unchanged_of_ask (hkeeps _ hp) hask rfl
  | checkExist _ _ hp hask => exact unchanged_of_ask (hkeeps _ hp) hask rfl
  | readOutputs _ _ hp hread houtputs =>
    exact (unchanged_of_ask (hkeeps _ hp) hread rfl).trans
      (unchanged_of_ask (hkeeps _ hp) houtputs rfl)
  | checkChange _ hp hcomplete houtputs =>
    exact (unchanged_of_ask (hkeeps _ hp) hcomplete rfl).trans
      (unchanged_of_ask (hkeeps _ hp) houtputs rfl)
  | presume | markDeletable | filter | rescmp => exact .refl S w

theorem created (h : s.Performed rom m w m' w' es) (hop : s.op = .create) :
    ∃ (properties : Properties) (v : Json) (extra : String → Option Json),
      m.requireObject s.op.name "properties" = .ok properties ∧
      m' = { m with remoteIds := m.remoteIds.insert s.name v } ∧
      ¬ S.given w s.typeId v ∧ S.given w' s.typeId v ∧
      S.Changes w w' s.typeId (some v) (some fun f => (properties.get? f).or (extra f)) := by
  cases h with
  | @create properties p id w' _ hproperties _ hp hask =>
    obtain ⟨v, extra, rfl, hfresh, hgiven, hchanges⟩ := (hkeeps p hp).create hask
    exact ⟨properties, v, extra, hproperties, rfl, hfresh, hgiven, hchanges⟩
  | read hop' | readOutputs hop' | update hop' | updateRead hop' | delete hop'
  | checkChange hop' | checkDelete hop' | checkExist hop' | presume hop'
  | markDeletable hop' | filter hop' | rescmp hop' => simp [hop, ResourceOp.eq_check_iff] at hop'

theorem updated (h : s.Performed rom m w m' w' es) (hop : s.op = .update) :
    ∃ properties, m.requireObject s.op.name "properties" = .ok properties ∧ m' = m ∧
      S.Changes w w' s.typeId (m.remoteId s.name) ((S.held w s.typeId (m.remoteId s.name)).map
        fun object f => (Entries.get? (s.mutableOnly properties) f).or (object f)) := by
  cases h with
  | @update properties p w' _ hproperties hp hask =>
    exact ⟨properties, hproperties, rfl, (hkeeps p hp).update hask⟩
  | @updateRead properties p fields found w₁ w' _ hproperties hp hread hask =>
    have hunchanged := unchanged_of_ask (hkeeps p hp) hread rfl
    have hchanges := (hkeeps p hp).update hask
    rw [hunchanged.held] at hchanges
    exact ⟨properties, hproperties, rfl, hunchanged.changes hchanges⟩
  | create hop' | read hop' | readOutputs hop' | delete hop' | checkChange hop'
  | checkDelete hop' | checkExist hop' | presume hop' | markDeletable hop'
  | filter hop' | rescmp hop' => simp [hop, ResourceOp.eq_check_iff] at hop'

/-- What is read back is the object. -/
theorem read_back (h : s.Performed rom m w m' w' es) (hop : s.op = .read) :
    ∃ object, S.held w s.typeId (m.remoteId s.name) = some object ∧
      m'.temp.get? "current" = some (.obj (s.kind.schema.current object)) ∧
      m'.remoteIds = m.remoteIds := by
  have hfound : ∀ {p : Provider W} {found : Properties} {w₁ : W}, s.provider = .ok p →
      p.ask (m.remoteId s.name) (.read s.kind.schema.readable) w = (.ok found, w₁) →
      ∃ object, S.held w s.typeId (m.remoteId s.name) = some object ∧
        currentFields s.kind.schema.readable found = s.kind.schema.current object := by
    intro p found w₁ hp hask
    obtain ⟨object, hheld, hagree⟩ := (hkeeps p hp).read hask
    exact ⟨object, hheld, Schema.current_of_read hagree⟩
  cases h with
  | read _ _ hp hask =>
    obtain ⟨object, hheld, hcurrent⟩ := hfound hp hask
    exact ⟨object, hheld, (Entries.get?_set _ _ _ _).trans (by rw [if_pos rfl, hcurrent]), rfl⟩
  | readOutputs _ _ hp hask =>
    obtain ⟨object, hheld, hcurrent⟩ := hfound hp hask
    exact ⟨object, hheld, (Entries.get?_set _ _ _ _).trans (by rw [if_pos rfl, hcurrent]), rfl⟩
  | create hop' | update hop' | updateRead hop' | delete hop' | checkChange hop'
  | checkDelete hop' | checkExist hop' | presume hop' | markDeletable hop'
  | filter hop' | rescmp hop' => simp [hop, ResourceOp.eq_check_iff] at hop'

theorem deleted (h : s.Performed rom m w m' w' es) (hop : s.op = .delete) :
    m' = m ∧ S.Changes w w' s.typeId (m.remoteId s.name) none := by
  cases h with
  | delete _ hp hask => exact ⟨rfl, (hkeeps _ hp).delete hask⟩
  | create hop' | read hop' | readOutputs hop' | update hop' | updateRead hop'
  | checkChange hop' | checkDelete hop' | checkExist hop' | presume hop'
  | markDeletable hop' | filter hop' | rescmp hop' => simp [hop, ResourceOp.eq_check_iff] at hop'

/-! ### Operations that are stopped -/

omit hkeeps in
/-- What is refused with a fault was refused by the provider. -/
theorem refused_of_ask {p : Provider W} {handle : Option Json} {r : Request} {f : Fault}
    (h : s.ask p handle r w = (.error f, w')) :
    ∃ reason, p.ask handle r w = (.error reason, w') := by
  unfold ask at h
  split at h
  · cases h
  · next reason w'' hask =>
    obtain ⟨-, rfl⟩ := Prod.mk.inj h
    exact ⟨reason, hask⟩

omit hkeeps in
/-- What is answered was answered by the provider. -/
theorem answered_of_ask {p : Provider W} {handle : Option Json} {r : Request} {a : r.Answer}
    (h : s.ask p handle r w = (.ok a, w')) : p.ask handle r w = (.ok a, w') := by
  unfold ask at h
  split at h
  · next hask =>
    obtain ⟨ha, rfl⟩ := Prod.mk.inj h
    obtain rfl := Except.ok.inj ha
    exact hask
  · cases h

theorem unchanged_of_refused {p : Provider W} {handle : Option Json} {r : Request} {f : Fault}
    (hp : s.provider = .ok p) (h : s.ask p handle r w = (.error f, w')) : S.Unchanged w w' := by
  obtain ⟨reason, hask⟩ := refused_of_ask h
  exact (hkeeps p hp).refused hask

theorem unchanged_of_look {p : Provider W} {handle : Option Json} {r : Request} {a : r.Answer}
    (hp : s.provider = .ok p) (hlooks : r.looks = true)
    (h : s.ask p handle r w = (.ok a, w')) : S.Unchanged w w' :=
  unchanged_of_ask (hkeeps p hp) (answered_of_ask h) hlooks

theorem unchanged_of_sendUpdate {p : Provider W} {properties : Properties} {f : Fault}
    (hp : s.provider = .ok p) (h : (s.sendUpdate p properties m w).flow = .error f) :
    S.Unchanged w (s.sendUpdate p properties m w).world := by
  revert h
  unfold sendUpdate
  split
  · next hask => exact fun _ => unchanged_of_refused hkeeps hp hask
  · nofun

theorem unchanged_of_storeOutputs {p : Provider W} {f : Fault} (hp : s.provider = .ok p)
    (h : (s.storeOutputs p m w).flow = .error f) :
    S.Unchanged w (s.storeOutputs p m w).world := by
  revert h
  unfold storeOutputs
  split
  · next hask => exact fun _ => unchanged_of_refused hkeeps hp hask
  · nofun

section

variable {f : Fault}

/-- A creation is not stopped once it was granted. -/
theorem unchanged_create (h : (s.create m w).flow = .error f) :
    S.Unchanged w (s.create m w).world := by
  revert h
  unfold create
  split
  · exact fun _ => .refl S w
  · next properties p hprepare =>
    obtain ⟨-, hp, -⟩ := prepareCreate_eq_ok hprepare
    split
    · next hask => exact fun _ => unchanged_of_refused hkeeps hp hask
    · next id w' hask =>
      obtain ⟨v, -, rfl, -⟩ := (hkeeps p hp).create (answered_of_ask hask)
      simp [Outcome.next]

theorem unchanged_read (h : (s.read m w).flow = .error f) : S.Unchanged w (s.read m w).world := by
  revert h
  unfold read
  split
  · exact fun _ => .refl S w
  · next p hp =>
    rcases hread : s.ask p (m.remoteId s.name) (.read s.kind.schema.readable) w with
      ⟨f' | found, w₁⟩
    · simp only [hread]
      exact fun _ => unchanged_of_refused hkeeps hp hread
    · have hfirst := unchanged_of_look hkeeps hp rfl hread
      simp only [hread]
      split
      · nofun
      · split
        · next hask => exact fun _ => hfirst.trans (unchanged_of_refused hkeeps hp hask)
        · nofun

theorem unchanged_update (h : (s.update m w).flow = .error f) :
    S.Unchanged w (s.update m w).world := by
  revert h
  unfold update
  split
  · exact fun _ => .refl S w
  · next properties p hprepare =>
    have hp : s.provider = .ok p := by
      cases hprovider : s.provider <;> cases hproperties : m.requireObject s.op.name "properties" <;>
        simp_all [bind, Except.bind, pure, Except.pure]
    split
    · exact unchanged_of_sendUpdate hkeeps hp
    · split
      · next hask => exact fun _ => unchanged_of_refused hkeeps hp hask
      · next hread =>
        have hfirst := unchanged_of_look hkeeps hp rfl hread
        split
        · exact fun h => hfirst.trans (unchanged_of_sendUpdate hkeeps hp h)
        · exact fun _ => hfirst

theorem unchanged_delete (h : (s.delete m w).flow = .error f) :
    S.Unchanged w (s.delete m w).world := by
  revert h
  unfold delete
  split
  · exact fun _ => .refl S w
  · next p hp =>
    split
    · next hask => exact fun _ => unchanged_of_refused hkeeps hp hask
    · nofun

theorem unchanged_checkChange {c : Change} (h : (s.checkChange c m w).flow = .error f) :
    S.Unchanged w (s.checkChange c m w).world := by
  revert h
  unfold checkChange
  split
  · exact fun _ => .refl S w
  · next p hp =>
    split
    · next hask => exact fun _ => unchanged_of_refused hkeeps hp hask
    · next complete w' hask =>
      have hfirst := unchanged_of_look hkeeps hp rfl hask
      obtain rfl : complete = true := (hkeeps p hp).complete (answered_of_ask hask)
      exact fun h => hfirst.trans (unchanged_of_storeOutputs hkeeps hp h)

theorem unchanged_checkDelete (h : (s.checkDelete m w).flow = .error f) :
    S.Unchanged w (s.checkDelete m w).world := by
  revert h
  unfold checkDelete
  split
  · exact fun _ => .refl S w
  · next p hp =>
    split
    · next hask => exact fun _ => unchanged_of_refused hkeeps hp hask
    · next complete w' hask =>
      obtain rfl : complete = true := (hkeeps p hp).deleteComplete (answered_of_ask hask)
      nofun

theorem unchanged_checkExist (h : (s.checkExist m w).flow = .error f) :
    S.Unchanged w (s.checkExist m w).world := by
  revert h
  unfold checkExist
  split
  · split
    · exact fun _ => .refl S w
    · next p hp =>
      split
      · next hask => exact fun _ => unchanged_of_refused hkeeps hp hask
      · nofun
  · nofun

omit hkeeps in
/-- Some operations only concern the memory. -/
theorem world_of_silent (hop : s.op = .markDeletable ∨ s.op = .filter ∨ s.op = .rescmp) :
    (s.perform rom m w).world = w := by
  unfold perform
  rcases hop with hop | hop | hop <;> rw [hop]
  · unfold markDeletable
    dsimp only
    split <;> rfl
  · unfold filter
    dsimp only
    split <;> rfl
  · unfold rescmp
    dsimp only
    split <;> rfl

/-- **An operation that is stopped leaves all objects as they were.** -/
theorem unchanged_of_fault (h : (s.perform rom m w).flow = .error f) :
    S.Unchanged w (s.perform rom m w).world := by
  cases hop : s.op with
  | markDeletable | filter | rescmp =>
    rw [world_of_silent (by rw [hop]; simp)]
    exact .refl S w
  | create =>
    simp only [perform, hop] at h ⊢
    exact unchanged_create hkeeps h
  | read =>
    simp only [perform, hop] at h ⊢
    exact unchanged_read hkeeps h
  | update =>
    simp only [perform, hop] at h ⊢
    exact unchanged_update hkeeps h
  | delete =>
    simp only [perform, hop] at h ⊢
    exact unchanged_delete hkeeps h
  | checkCreate | checkUpdate =>
    simp only [perform, hop] at h ⊢
    exact unchanged_checkChange hkeeps h
  | checkDelete =>
    simp only [perform, hop] at h ⊢
    exact unchanged_checkDelete hkeeps h
  | checkExist =>
    simp only [perform, hop] at h ⊢
    exact unchanged_checkExist hkeeps h

end

end

/-! ### Operations that are not stopped -/

/-- What an operation needs to be done. -/
inductive Ready (S : Store W) (s : Staged W) (rom : Rom) (m : Memory) (w : W) : Prop
  | create {properties : Properties} : s.op = .create →
    m.requireObject s.op.name "properties" = .ok properties → (∀ e ∈ properties, e.2.Sound) →
    (s.kind.schema.needsRemoteId = true → m.remoteId s.name = none) → Ready S s rom m w
  | look : s.op = .read ∨ s.op = .checkCreate ∨ s.op = .checkUpdate →
    S.held w s.typeId (m.remoteId s.name) ≠ none → Ready S s rom m w
  /-- No immutable field would change. -/
  | update {properties : Properties} {object : String → Option Json} : s.op = .update →
    m.requireObject s.op.name "properties" = .ok properties → (∀ e ∈ properties, e.2.Sound) →
    S.held w s.typeId (m.remoteId s.name) = some object →
    (∀ f ∈ s.kind.schema.immutableFields, ∀ want, properties.get? f = some want →
      ((object f).getD .null).same want = true) → Ready S s rom m w
  | putAside : s.op = .markDeletable → m.remoteId (deletable s.name) = none → Ready S s rom m w
  | compare {d : Decision} : s.op = .rescmp → s.decide rom m = .ok d → Ready S s rom m w
  | always : s.op = .delete ∨ s.op = .checkDelete ∨ s.op = .checkExist → Ready S s rom m w

theorem granted {p : Provider W} (hobliges : S.Obliges s.typeId p) (handle : Option Json)
    (r : Request) (hallows : S.Allows w s.typeId handle r) :
    ∃ a w', s.ask p handle r w = (.ok a, w') := by
  obtain ⟨a, w', hask⟩ := hobliges handle r w hallows
  refine ⟨a, w', ?_⟩
  unfold ask
  rw [hask]

section

variable {p : Provider W} (hp : s.provider = .ok p) (hkeeps : S.Keeps s.typeId s.kind.schema p)
  (hobliges : S.Obliges s.typeId p) {f : Fault}

include hkeeps in
/-- To look leaves the object that is asked about. -/
theorem held_of_look {handle : Option Json} {r : Request} {a : r.Answer} {w₁ : W}
    (hlooks : r.looks = true) (h : s.ask p handle r w = (.ok a, w₁)) :
    S.held w₁ s.typeId (m.remoteId s.name) = S.held w s.typeId (m.remoteId s.name) :=
  (unchanged_of_ask hkeeps (answered_of_ask h) hlooks).held _ _

include hobliges

theorem sendUpdate_ne_fault {properties : Properties}
    (hheld : S.held w s.typeId (m.remoteId s.name) ≠ none) (hsound : ∀ e ∈ properties, e.2.Sound) :
    (s.sendUpdate p properties m w).flow ≠ .error f := by
  obtain ⟨a, w', hask⟩ := granted hobliges (m.remoteId s.name)
    (.update (s.mutableOnly properties))
    ⟨hheld, fun e he => hsound e (List.mem_of_mem_filter he)⟩
  unfold sendUpdate
  rw [hask]
  nofun

theorem storeOutputs_ne_fault (hheld : S.held w s.typeId (m.remoteId s.name) ≠ none) :
    (s.storeOutputs p m w).flow ≠ .error f := by
  obtain ⟨a, w', hask⟩ := granted hobliges (m.remoteId s.name) .outputs hheld
  unfold storeOutputs
  rw [hask]
  nofun

include hp hkeeps

theorem create_ne_fault {properties : Properties}
    (hproperties : m.requireObject s.op.name "properties" = .ok properties)
    (hsound : ∀ e ∈ properties, e.2.Sound)
    (hfree : s.kind.schema.needsRemoteId = true → m.remoteId s.name = none) :
    (s.create m w).flow ≠ .error f := by
  obtain ⟨a, w', hask⟩ := granted (w := w) hobliges none (.create properties) hsound
  have hprepare : s.prepareCreate m = .ok (properties, p) := by
    unfold prepareCreate
    rw [hproperties, hp]
    cases hneeds : s.kind.schema.needsRemoteId with
    | false => rfl
    | true => simp [hfree hneeds, bind, Except.bind, pure, Except.pure]
  obtain ⟨v, -, rfl, -⟩ := hkeeps.create (answered_of_ask hask)
  simp only [Staged.create, hprepare, hask]
  simp [Outcome.next]

theorem read_ne_fault (hheld : S.held w s.typeId (m.remoteId s.name) ≠ none) :
    (s.read m w).flow ≠ .error f := by
  obtain ⟨(found : Properties), w₁, hread⟩ := granted hobliges (m.remoteId s.name)
    (.read s.kind.schema.readable) hheld
  simp only [read, hp, hread]
  split
  · nofun
  · obtain ⟨a, w', hask⟩ := granted (w := w₁) hobliges (m.remoteId s.name) .outputs
      (show S.held w₁ _ _ ≠ none by rw [held_of_look hkeeps rfl hread]; exact hheld)
    simp only [hask]
    nofun

theorem checkChange_ne_fault {c : Change} (hheld : S.held w s.typeId (m.remoteId s.name) ≠ none) :
    (s.checkChange c m w).flow ≠ .error f := by
  obtain ⟨(b : Bool), w₁, hask⟩ := granted (w := w) hobliges (m.remoteId s.name)
    (.complete c) trivial
  obtain rfl : b = true := hkeeps.complete (answered_of_ask hask)
  simp only [checkChange, hp, hask]
  exact storeOutputs_ne_fault hobliges (by rw [held_of_look hkeeps rfl hask]; exact hheld)

theorem update_ne_fault {properties : Properties} {object : String → Option Json}
    (hproperties : m.requireObject s.op.name "properties" = .ok properties)
    (hsound : ∀ e ∈ properties, e.2.Sound)
    (hheld : S.held w s.typeId (m.remoteId s.name) = some object)
    (hsame : ∀ f ∈ s.kind.schema.immutableFields, ∀ want, properties.get? f = some want →
      ((object f).getD .null).same want = true) : (s.update m w).flow ≠ .error f := by
  have hthere : S.held w s.typeId (m.remoteId s.name) ≠ none := by
    rw [hheld]
    nofun
  have hprepare : (do return (← m.requireObject s.op.name "properties", ← s.provider) :
      Except Fault (Properties × Provider W)) = .ok (properties, p) := by
    rw [hproperties, hp]
    rfl
  simp only [Staged.update, hprepare]
  split
  · exact sendUpdate_ne_fault hobliges hthere hsound
  · next fixed _ =>
    obtain ⟨(found : Properties), w₁, hread⟩ := granted hobliges (m.remoteId s.name)
      (.read (s.kind.schema.immutableFields.filter properties.contains)) hthere
    obtain ⟨object', hheld', hagree⟩ := hkeeps.read (answered_of_ask hread)
    obtain rfl : object' = object := Option.some.inj (hheld'.symm.trans hheld)
    have hnone : changedImmutable s.kind.schema found properties = [] := by
      refine List.filter_eq_nil_iff.2 fun field hfield => ?_
      unfold differs
      cases hwant : properties.get? field with
      | none => simp
      | some want =>
        have hfixed : field ∈ s.kind.schema.immutableFields.filter properties.contains :=
          List.mem_filter.2 ⟨hfield, by unfold Entries.contains; rw [hwant]; rfl⟩
        simp [hagree field hfixed, hsame field hfield want hwant]
    simp only [hread, hnone]
    exact sendUpdate_ne_fault hobliges (by rw [held_of_look hkeeps rfl hread]; exact hthere) hsound

/-- **An operation that is ready is not stopped.** -/
theorem Ready.ne_fault (h : s.Ready S rom m w) : (s.perform rom m w).flow ≠ .error f := by
  unfold perform
  cases h with
  | create hop hproperties hsound hfree =>
    rw [hop]
    exact create_ne_fault hp hkeeps hobliges hproperties hsound hfree
  | look hop hheld =>
    rcases hop with hop | hop | hop <;> rw [hop]
    · exact read_ne_fault hp hkeeps hobliges hheld
    · exact checkChange_ne_fault hp hkeeps hobliges hheld
    · exact checkChange_ne_fault hp hkeeps hobliges hheld
  | update hop hproperties hsound hheld hsame =>
    rw [hop]
    exact update_ne_fault hp hkeeps hobliges hproperties hsound hheld hsame
  | putAside hop hfree =>
    rw [hop]
    simp [markDeletable, hfree, Outcome.next]
  | compare hop hdecide =>
    rw [hop]
    simp only [rescmp, hdecide]
    nofun
  | always hop =>
    rcases hop with hop | hop | hop <;> rw [hop]
    · obtain ⟨a, w', hask⟩ := granted (w := w) hobliges (m.remoteId s.name) .delete trivial
      simp only [delete, hp, hask]
      nofun
    · obtain ⟨(b : Bool), w', hask⟩ := granted (w := w) hobliges (m.remoteId s.name)
        .deleteComplete trivial
      obtain rfl : b = true := hkeeps.deleteComplete (answered_of_ask hask)
      simp only [checkDelete, hp, hask]
      nofun
    · obtain ⟨(b : Bool), w', hask⟩ := granted (w := w) hobliges (m.remoteId s.name) .found trivial
      simp only [checkExist, hp, hask]
      split <;> nofun

end

end Staged

end Provisioning
