/-
Where references lead.

A declaration whose references are all taken from its own resources is built one resource at
a time, and each reference is taken from a resource that is there already.  So it is an output
that the type of that resource has, or its identifier, and never one of the resource it stands
in.  Whole resources are no exception: whatever they refer to was taken in the same way before.

What is stored for a resource comes to no other outputs than the ones its fields refer to, so
the resource waits for all of them.
-/
import Provisioning.Proofs.Addresses

namespace Provisioning

/-! ### The outputs of an expression -/

namespace Expr

mutual

/-- The outputs an expression refers to, those in whole resources included. -/
def outputs : Expr → List OutputRef
  | .literal _ => []
  | .array items => outputsItems items
  | .hash fields => outputsFields fields
  | .resource _ _ _ properties => outputsFields properties
  | .output o => [o]

/-- The outputs that items refer to. -/
def outputsItems : List Expr → List OutputRef
  | [] => []
  | e :: es => outputs e ++ outputsItems es

/-- The outputs that fields refer to. -/
def outputsFields : List (String × Expr) → List OutputRef
  | [] => []
  | (_, e) :: es => outputs e ++ outputsFields es

end

theorem mem_outputsItems {items : List Expr} {o : OutputRef} :
    o ∈ outputsItems items ↔ ∃ e ∈ items, o ∈ e.outputs := by
  induction items with
  | nil => simp [outputsItems]
  | cons e rest ih => simp [outputsItems, ih]

theorem mem_outputsFields {fields : List (String × Expr)} {o : OutputRef} :
    o ∈ outputsFields fields ↔ ∃ e ∈ fields, o ∈ e.2.outputs := by
  induction fields with
  | nil => simp [outputsFields]
  | cons e rest ih => simp [outputsFields, ih]

theorem mem_mentionsItems {items : List Expr} {n : String} :
    n ∈ mentionsItems items ↔ ∃ e ∈ items, n ∈ e.mentions := by
  induction items with
  | nil => simp [mentionsItems]
  | cons e rest ih => simp [mentionsItems, ih]

theorem mem_mentionsFields {fields : List (String × Expr)} {n : String} :
    n ∈ mentionsFields fields ↔ ∃ e ∈ fields, n ∈ e.2.mentions := by
  induction fields with
  | nil => simp [mentionsFields]
  | cons e rest ih => simp [mentionsFields, ih]

theorem outputs_of_part {e part : Expr} {path : List String} {o : OutputRef}
    (h : e.Part path part) (ho : o ∈ part.outputs) : o ∈ e.outputs := by
  induction h with
  | whole e => exact ho
  | item hitem _ ih => exact mem_outputsItems.2 ⟨_, List.mem_of_getElem? hitem, ih ho⟩
  | field hfield _ ih => exact mem_outputsFields.2 ⟨_, hfield, ih ho⟩
  | property hfield _ ih => exact mem_outputsFields.2 ⟨_, hfield, ih ho⟩

/-- The resource of an output is mentioned. -/
theorem mentions_of_output {e : Expr} {o : OutputRef} (h : o ∈ e.outputs) :
    o.resource ∈ e.mentions := by
  induction e using induct with
  | literal v => cases h
  | output o' =>
    obtain rfl := List.mem_singleton.1 h
    exact List.mem_cons_self
  | array items ih =>
    obtain ⟨e, he, h⟩ := mem_outputsItems.1 h
    exact mem_mentionsItems.2 ⟨e, he, ih e he h⟩
  | hash fields ih =>
    obtain ⟨e, he, h⟩ := mem_outputsFields.1 h
    exact mem_mentionsFields.2 ⟨e, he, ih e he h⟩
  | resource name typeId schema properties ih =>
    obtain ⟨e, he, h⟩ := mem_outputsFields.1 h
    exact List.mem_cons_of_mem _ (mem_mentionsFields.2 ⟨e, he, ih e he h⟩)

end Expr

/-- A resource waits for all others whose outputs its fields refer to. -/
theorem Resource.waits_of_output {r : Resource} {o : OutputRef}
    (h : o ∈ Expr.outputsFields r.properties) (hne : o.resource ≠ r.name) :
    o.resource ∈ r.waits := by
  unfold waits
  rw [mem_distinct, List.mem_filter]
  obtain ⟨e, he, ho⟩ := Expr.mem_outputsFields.1 h
  exact ⟨Expr.mem_mentionsFields.2 ⟨e, he, Expr.mentions_of_output ho⟩, by simpa using hne⟩

/-! ### The outputs that are stored -/

theorem Rom.outputs_of_flatten {e : Expr} {address a : String} {o : OutputRef}
    (h : (a, .output o) ∈ flatten address e) : o ∈ e.outputs := by
  obtain ⟨path, part, hpart, -, hwhole⟩ := part_of_mem_flatten e h
  obtain rfl := eq_output_of_whole hwhole
  exact Expr.outputs_of_part hpart List.mem_cons_self

/-- What is stored under the addresses of a declared resource was stored for it. -/
theorem Plan.mem_flat_of_get? {plan : Plan} {rom : Rom} (h : plan.rom = .ok rom) {r : Resource}
    (hr : plan.declaration.resources.get? r.name = some r) {a : String} {e : Rom.Entry}
    (ha : a ∈ Entries.keys (Rom.flat r.name r.toExpr)) (he : rom.entries.get? a = some e) :
    (a, e) ∈ Rom.flat r.name r.toExpr := by
  obtain ⟨⟨a, e'⟩, hmem, rfl⟩ := List.mem_map.1 ha
  have hstored : rom.entries.get? a = some e' := by
    rw [Table.get?_eq_some_iff, rom_eq h]
    exact List.mem_flatMap.2 ⟨_, Table.get?_eq_some_iff.1 hr, hmem⟩
  rw [hstored] at he
  obtain rfl := Option.some.inj he
  exact hmem

/-- **Reading a declared resource comes to no outputs but those its fields refer to.** -/
theorem Plan.outputs_of_holds {plan : Plan} {rom : Rom} (h : plan.rom = .ok rom) {r : Resource}
    (hr : plan.declaration.resources.get? r.name = some r) {o : OutputRef}
    (hholds : rom.Holds r.name o) : o ∈ Expr.outputsFields r.properties := by
  obtain ⟨b, hreach, hget⟩ := hholds
  -- References never leave the addresses of the resource.
  have hinside : b ∈ Entries.keys (Rom.flat r.name r.toExpr) := by
    clear hget
    induction hreach with
    | refl => exact Entries.mem_keys_of_get? (Rom.get?_flat_resource r.name r)
    | tail _ hrefers ih =>
      obtain ⟨e, he, hb⟩ := hrefers
      exact (Rom.closed_flat r.name r.toExpr _ (mem_flat_of_get? h hr ih he) _ hb).1
  have hflat := mem_flat_of_get? h hr hinside hget
  exact Rom.outputs_of_flatten (Entries.mem_of_mem_ofList hflat)

/-! ### Declarations that refer to themselves only -/

namespace Declaration

mutual

/-- All references of a raw value are taken from resources of the declaration. -/
def Offers (d : Declaration) : Raw → Prop
  | .json _ => True
  | .list items => OffersItems d items
  | .map fields => OffersFields d fields
  | .resource r => d.get? r.name = some r
  | .output o => ∃ r, d.get? r.name = some r ∧ (r.output o.field = .ok o ∨ r.remoteId = o)

/-- All references of items are taken from resources of the declaration. -/
def OffersItems (d : Declaration) : List Raw → Prop
  | [] => True
  | raw :: rest => Offers d raw ∧ OffersItems d rest

/-- All references of fields are taken from resources of the declaration. -/
def OffersFields (d : Declaration) : List (String × Raw) → Prop
  | [] => True
  | (_, raw) :: rest => Offers d raw ∧ OffersFields d rest

end

theorem offersItems_iff {d : Declaration} {raws : List Raw} :
    d.OffersItems raws ↔ ∀ raw ∈ raws, d.Offers raw := by
  induction raws with
  | nil => simp [OffersItems]
  | cons raw rest ih => simp [OffersItems, ih]

theorem offersFields_iff {d : Declaration} {raws : List (String × Raw)} :
    d.OffersFields raws ↔ ∀ e ∈ raws, d.Offers e.2 := by
  induction raws with
  | nil => simp [OffersFields]
  | cons e rest ih => simp [OffersFields, ih]

/-- Every reference is taken from a resource of the declaration itself. -/
inductive SelfContained : Declaration → Prop
  | empty (catalog : Catalog) : SelfContained (.empty catalog)
  | add {d d' : Declaration} {typeId name : String} {fields : List (String × Raw)}
    {r : Resource} : SelfContained d → d.OffersFields fields →
    d.add typeId name fields = .ok (d', r) → SelfContained d'

/-- An output is one that a declared resource has, or its identifier. -/
def Backs (d : Declaration) (o : OutputRef) : Prop :=
  ∃ r, d.get? o.resource = some r ∧ (o.field = remoteIdField ∨ o.field ∈ r.schema.outputs)

/-- What the declared resources refer to is backed. -/
def Backed (d : Declaration) : Prop :=
  ∀ name r, d.get? name = some r → ∀ o ∈ Expr.outputsFields r.properties,
    d.Backs o ∧ o.resource ≠ name

/-- What the declared resources mention is declared. -/
def Closed (d : Declaration) : Prop :=
  ∀ name r, d.get? name = some r → ∀ n ∈ Expr.mentionsFields r.properties,
    n ∈ d.resources.keys

variable {d d' : Declaration}

theorem get?_name {name : String} {r : Resource} (h : d.get? name = some r) : r.name = name :=
  (d.declared (name, r) (Table.get?_eq_some_iff.1 h)).name_eq

theorem backs_of_output {r : Resource} {o : OutputRef} (hr : d.get? r.name = some r)
    (h : r.output o.field = .ok o ∨ r.remoteId = o) : d.Backs o := by
  rcases h with h | rfl
  · unfold Resource.output at h
    split at h
    · next hmem =>
      have ho : o = ⟨r.name, o.field⟩ := (Except.ok.inj h).symm
      have hname : o.resource = r.name := by rw [ho]
      exact ⟨r, by rw [hname]; exact hr, .inr (by simpa using hmem)⟩
    · cases h
  · exact ⟨r, hr, .inl rfl⟩

/-! ### What is put together from a declaration -/

/-- It holds of text and numbers, of what is taken from the declaration, and of lists and maps of
what it holds of. -/
structure Carries (d : Declaration) (P : Expr → Prop) : Prop where
  text : ∀ s, P (.literal (.str s))
  number : ∀ n, P (.literal (.num n))
  array : ∀ {items : List Expr}, (∀ e ∈ items, P e) → P (.array items)
  hash : ∀ {fields : List (String × Expr)}, (∀ e ∈ fields, P e.2) → P (.hash fields)
  resource : ∀ {r : Resource}, d.get? r.name = some r → P r.toExpr
  output : ∀ {o : OutputRef}, d.Backs o → P (.output o)

section

variable {P : Expr → Prop} (hP : d.Carries P)
include hP

theorem Carries.of_json {v : Json} {e : Expr} (h : v.resolve = .ok e) : P e := by
  induction v using Json.induct generalizing e with
  | null | bool _ => simp [Json.resolve] at h
  | num n =>
    obtain rfl := Except.ok.inj h
    exact hP.number n
  | str s =>
    obtain rfl := Except.ok.inj h
    exact hP.text s
  | arr items ih =>
    obtain ⟨es, hes, h⟩ := bind_eq_ok.1 h
    obtain rfl := Except.ok.inj h
    rw [Json.resolveItems_eq_mapM] at hes
    refine hP.array fun e he => ?_
    obtain ⟨v, hv, hresolve⟩ := source_of_mapM hes he
    exact ih v hv hresolve
  | obj fields ih =>
    obtain ⟨es, hes, h⟩ := bind_eq_ok.1 h
    obtain rfl := Except.ok.inj h
    rw [Json.resolveFields_eq_mapM] at hes
    refine hP.hash fun e he => ?_
    obtain ⟨field, hfield, hresolve⟩ := source_of_mapM_fields hes he
    exact ih field hfield hresolve

/-- **What holds of all that a declaration offers holds of what is put together from it.** -/
theorem Carries.of_raw {raw : Raw} {e : Expr} (hoffers : d.Offers raw)
    (h : raw.resolve = .ok e) : P e := by
  induction raw using Raw.induct generalizing e with
  | json v => exact hP.of_json h
  | resource r =>
    obtain rfl := Except.ok.inj h
    exact hP.resource hoffers
  | output o =>
    obtain rfl := Except.ok.inj h
    obtain ⟨r, hr, ho⟩ := hoffers
    exact hP.output (backs_of_output hr ho)
  | list items ih =>
    obtain ⟨es, hes, h⟩ := bind_eq_ok.1 h
    obtain rfl := Except.ok.inj h
    rw [Raw.resolveItems_eq_mapM] at hes
    refine hP.array fun e he => ?_
    obtain ⟨raw, hraw, hresolve⟩ := source_of_mapM hes he
    exact ih raw hraw (offersItems_iff.1 hoffers raw hraw) hresolve
  | map fields ih =>
    obtain ⟨es, hes, h⟩ := bind_eq_ok.1 h
    obtain rfl := Except.ok.inj h
    rw [Raw.resolveFields_eq_mapM] at hes
    refine hP.hash fun e he => ?_
    obtain ⟨field, hfield, hresolve⟩ := source_of_mapM_fields hes he
    exact ih field hfield (offersFields_iff.1 hoffers field hfield) hresolve

theorem Carries.of_bindFields {name : String} {schema : Schema} {fields : List (String × Raw)}
    {bound result : Entries Expr} (hoffers : d.OffersFields fields)
    (h : bindFields name schema bound fields = .ok result) (hbound : ∀ e ∈ bound, P e.2) :
    ∀ e ∈ result, P e.2 := by
  induction fields generalizing bound with
  | nil =>
    obtain rfl : bound = result := by simpa [bindFields] using h
    exact hbound
  | cons f rest ih =>
    obtain ⟨field, raw⟩ := f
    obtain ⟨hoffered, hrest⟩ := hoffers
    rw [bindFields] at h
    split at h
    · split at h
      · next e he =>
        refine ih hrest h fun entry hentry => ?_
        rcases Entries.mem_set hentry with hold | rfl
        · exact hbound _ hold
        · exact hP.of_raw hoffered he
      · cases h
    · cases h

end

theorem build_eq_ok {typeId name : String} {fields : List (String × Raw)} {r : Resource}
    (h : d.build typeId name fields = .ok r) :
    r.name = name ∧ d.get? name = none ∧
      ∃ schema, bindFields name schema [] fields = .ok r.properties := by
  unfold build at h
  split at h
  · cases h
  · next schema _ =>
    split at h
    · cases h
    · next hfree =>
      split at h
      · cases h
      · next properties hbind =>
        unfold Resource.make at h
        split at h
        · obtain rfl := Except.ok.inj h
          refine ⟨rfl, Entries.get?_eq_none_iff.2 ?_, schema, hbind⟩
          intro hmem
          exact hfree (Table.contains_iff.2 hmem)
        · cases h

/-- What is added comes last, under a new name, with the fields that are bound. -/
theorem add_eq_ok {typeId name : String} {fields : List (String × Raw)} {r : Resource}
    (h : d.add typeId name fields = .ok (d', r)) :
    r.name = name ∧ name ∉ d.resources.keys ∧
      d'.resources.entries = d.resources.entries ++ [(name, r)] ∧
      ∃ schema, bindFields name schema [] fields = .ok r.properties := by
  unfold add at h
  split at h
  · cases h
  · next r' hbuild =>
    obtain ⟨rfl, rfl⟩ := Prod.mk.inj (Except.ok.inj h)
    obtain ⟨hname, hfree, hbind⟩ := build_eq_ok hbuild
    have hnew : name ∉ d.resources.keys := Entries.get?_eq_none_iff.1 hfree
    exact ⟨hname, hnew, Entries.set_of_notMem hnew r', hbind⟩

theorem Carries.of_add {P : Expr → Prop} (hP : d.Carries P) {typeId name : String}
    {fields : List (String × Raw)} {r : Resource} (hoffers : d.OffersFields fields)
    (h : d.add typeId name fields = .ok (d', r)) : ∀ e ∈ r.properties, P e.2 := by
  obtain ⟨-, -, -, schema, hbind⟩ := add_eq_ok h
  exact hP.of_bindFields hoffers hbind nofun

/-! ### What was there before -/

/-- The second declaration begins with the first one. -/
def Within (d d' : Declaration) : Prop := d.resources.entries <+: d'.resources.entries

theorem Within.get? (h : d.Within d') {name : String} {r : Resource}
    (hr : d.get? name = some r) : d'.get? name = some r :=
  Table.get?_eq_some_iff.2 (h.subset (Table.get?_eq_some_iff.1 hr))

theorem Within.keys (h : d.Within d') : d.resources.keys <+: d'.resources.keys :=
  h.map Prod.fst

/-- **A resource of a self-contained declaration is put together from what was declared before
it.**  So what every such declaration carries holds of its fields, where the declaration is the
one that it was added to. -/
theorem SelfContained.before {P : Declaration → Expr → Prop}
    (hcarries : ∀ d, d.SelfContained →
      (∀ name r, d.get? name = some r → ∀ e ∈ r.properties, P d e.2) → d.Carries (P d))
    (hgrows : ∀ d d', d.Within d' → ∀ e, P d e → P d' e) (h : d.SelfContained) {name : String}
    {r : Resource} (hr : d.get? name = some r) :
    ∃ d₀, d₀.Within d ∧ name ∉ d₀.resources.keys ∧ ∀ e ∈ r.properties, P d₀ e.2 := by
  induction h generalizing name r with
  | empty catalog => cases hr
  | @add d d' typeId new fields r' hd hoffers hadd ih =>
    obtain ⟨-, hnew, hentries, -⟩ := add_eq_ok hadd
    have hwithin : d.Within d' := ⟨_, hentries.symm⟩
    have hfields := Table.get?_eq_some_iff.1 hr
    rw [hentries, List.mem_append, List.mem_singleton] at hfields
    rcases hfields with hold | hlast
    · obtain ⟨d₀, hd₀, hfresh, hP⟩ := ih (Table.get?_eq_some_iff.2 hold)
      exact ⟨d₀, hd₀.trans hwithin, hfresh, hP⟩
    · obtain ⟨rfl, rfl⟩ := Prod.mk.inj hlast
      have hsofar : ∀ n s, d.get? n = some s → ∀ e ∈ s.properties, P d e.2 := by
        intro n s hs e he
        obtain ⟨d₀, hd₀, -, hP⟩ := ih hs
        exact hgrows d₀ d hd₀ e.2 (hP e he)
      exact ⟨d, hwithin, hnew, (hcarries d hd hsofar).of_add hoffers hadd⟩

theorem carries_backs (hd : ∀ name r, d.get? name = some r →
    ∀ e ∈ r.properties, ∀ o ∈ e.2.outputs, d.Backs o) :
    d.Carries fun e => ∀ o ∈ e.outputs, d.Backs o where
  text := nofun
  number := nofun
  array hitems o ho := by
    obtain ⟨e, he, ho⟩ := Expr.mem_outputsItems.1 ho
    exact hitems e he o ho
  hash hfields o ho := by
    obtain ⟨e, he, ho⟩ := Expr.mem_outputsFields.1 ho
    exact hfields e he o ho
  resource hr o ho := by
    obtain ⟨e, he, ho⟩ := Expr.mem_outputsFields.1 ho
    exact hd _ _ hr e he o ho
  output hbacks o ho := List.mem_singleton.1 ho ▸ hbacks

/-- **In a self-contained declaration every output that is referred to is backed by another
resource.** -/
theorem SelfContained.backed (h : d.SelfContained) : d.Backed := by
  intro name r hr o ho
  obtain ⟨e, he, ho⟩ := Expr.mem_outputsFields.1 ho
  have hgrows (d d' : Declaration) (hd : d.Within d') (e : Expr)
      (hbacks : ∀ o ∈ e.outputs, d.Backs o) : ∀ o ∈ e.outputs, d'.Backs o := by
    intro o ho
    obtain ⟨r, hr, hfield⟩ := hbacks o ho
    exact ⟨r, hd.get? hr, hfield⟩
  obtain ⟨d₀, hd₀, hfresh, hbacks⟩ :=
    h.before (P := fun d e => ∀ o ∈ e.outputs, d.Backs o) (fun _ _ => carries_backs) hgrows hr
  refine ⟨hgrows d₀ d hd₀ e.2 (hbacks e he) o ho, ?_⟩
  rintro rfl
  obtain ⟨r', hr', -⟩ := hbacks e he o ho
  exact hfresh (Table.mem_keys_of_get? hr')

theorem Closed.carries (hd : d.Closed) :
    d.Carries fun e => ∀ n ∈ e.mentions, n ∈ d.resources.keys where
  text := nofun
  number := nofun
  array hitems n hn := by
    obtain ⟨e, he, hn⟩ := Expr.mem_mentionsItems.1 hn
    exact hitems e he n hn
  hash hfields n hn := by
    obtain ⟨e, he, hn⟩ := Expr.mem_mentionsFields.1 hn
    exact hfields e he n hn
  resource hr n hn := by
    rcases List.mem_cons.1 hn with rfl | hn
    · exact Table.mem_keys_of_get? hr
    · exact hd _ _ hr n hn
  output hbacks n hn := by
    obtain rfl := List.mem_singleton.1 hn
    obtain ⟨r, hr, -⟩ := hbacks
    exact Table.mem_keys_of_get? hr

/-- **Whatever a resource of a self-contained declaration mentions was declared before it.** -/
theorem SelfContained.declared_before (h : d.SelfContained) {name : String} {r : Resource}
    (hr : d.get? name = some r) : ∃ d₀ : Declaration, d₀.Within d ∧ name ∉ d₀.resources.keys ∧
      ∀ n ∈ Expr.mentionsFields r.properties, n ∈ d₀.resources.keys := by
  obtain ⟨d₀, hd₀, hfresh, hbefore⟩ :=
    h.before (P := fun d e => ∀ n ∈ e.mentions, n ∈ d.resources.keys)
      (fun d _ hd => Closed.carries fun name r hr n hn =>
        have ⟨e, he, hn⟩ := Expr.mem_mentionsFields.1 hn
        hd name r hr e he n hn)
      (fun _ _ hd _ hmentions n hn => hd.keys.subset (hmentions n hn)) hr
  refine ⟨d₀, hd₀, hfresh, fun n hn => ?_⟩
  obtain ⟨e, he, hn⟩ := Expr.mem_mentionsFields.1 hn
  exact hbefore e he n hn

/-- **In a self-contained declaration every resource that is mentioned is declared.** -/
theorem SelfContained.closed (h : d.SelfContained) : d.Closed := by
  intro name r hr n hn
  obtain ⟨d₀, hd₀, -, hbefore⟩ := h.declared_before hr
  exact hd₀.keys.subset (hbefore n hn)

end Declaration

end Provisioning
