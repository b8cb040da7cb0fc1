/-
A backend that is a store.

Things stand on a shelf under a type and an identifier, and new ones are numbered.  Nothing
is refused but what cannot be done: to read or change what is not there, and to write a value
that is not equal to itself.  A new thing gets a size beside the fields it is given.

The shelf shows that what is asked of a store can be had: `keeps_provider` and
`obliges_provider`.
-/
import Provisioning.Proofs.Backend.Store
import Provisioning.Proofs.Run.Availability
import Provisioning.Proofs.Declare.Values

namespace Provisioning

/-- The things by type and identifier, and the number of the next one. -/
structure Shelf where
  next : Nat
  things : String → Json → Option Properties

namespace Shelf

/-- Whether all values are equal to themselves. -/
def orderly (ps : Properties) : Bool := ps.all fun e => e.2.same e.2

/-- The fields of a thing whose values are equal to themselves. -/
def orderlyPart (ps : Properties) : Properties := ps.filter fun e => e.2.same e.2

/-- Puts a thing at a place, or takes it away. -/
def place (w : Shelf) (typeId : String) (id : Json) (thing : Option Properties) : Shelf :=
  { w with things := fun t i => if t = typeId ∧ i = id then thing else w.things t i }

/-- The fields of the thing at a handle. -/
def find (w : Shelf) (typeId : String) (handle : Option Json) : Option Properties :=
  (handle.bind (w.things typeId)).map orderlyPart

/-- What a new thing has beside the fields it is given. -/
def added : Properties := [("size", .str "1")]

/-- Provides the things of a type. -/
def provider (typeId : String) : Provider Shelf where
  ask handle r w := match r with
    | .create ps =>
      if orderly ps then
        (.ok (some (.nat w.next)),
          { w.place typeId (.nat w.next) (some (ps ++ added)) with next := w.next + 1 })
      else (.error "not orderly", w)
    | .read _ | .outputs => match w.find typeId handle with
      | some ps => (.ok ps, w)
      | none => (.error "not there", w)
    | .update ps => match handle with
      | none => (.error "not there", w)
      | some id => match w.find typeId (some id) with
        | none => (.error "not there", w)
        | some old =>
          if orderly ps then (.ok (), w.place typeId id (some (ps ++ old)))
          else (.error "not orderly", w)
    | .delete => match handle with
      | some id => (.ok (), w.place typeId id none)
      | none => (.ok (), w)
    | .found => (.ok (w.find typeId handle).isSome, w)
    | .complete _ | .deleteComplete => (.ok true, w)

/-- A shelf as a store.  Whatever is no later number may have been given before. -/
def store : Store Shelf where
  object w typeId id := (w.find typeId (some id)).map Entries.get?
  given w _ id := id ≠ .null ∧ id.Sound ∧ ∀ k ≥ w.next, id ≠ .nat k

variable {w : Shelf} {typeId : String} {id : Json} {thing : Option Properties} {ps : Properties}

theorem orderly_iff : orderly ps = true ↔ ∀ e ∈ ps, e.2.Sound := List.all_eq_true

theorem orderlyPart_of_orderly (h : orderly ps = true) : orderlyPart ps = ps :=
  List.filter_eq_self.2 (orderly_iff.1 h)

theorem orderly_append {qs : Properties} (hp : orderly ps = true) (hq : orderly qs = true) :
    orderly (ps ++ qs) = true := by
  unfold orderly at *
  rw [List.all_append, hp, hq]
  rfl

theorem orderly_orderlyPart (ps : Properties) : orderly (orderlyPart ps) = true :=
  orderly_iff.2 fun _ he => (List.mem_filter.1 he).2

theorem orderly_of_find {handle : Option Json} (h : w.find typeId handle = some ps) :
    orderly ps = true := by
  obtain ⟨qs, -, rfl⟩ := Option.map_eq_some_iff.1 h
  exact orderly_orderlyPart qs

theorem held_eq (w : Shelf) (typeId : String) (handle : Option Json) :
    store.held w typeId handle = (w.find typeId handle).map Entries.get? := by
  cases handle <;> rfl

/-- What is placed in order is found. -/
theorem find_place (horderly : ∀ ps ∈ thing, orderly ps = true) (next : Nat) :
    find { w.place typeId id thing with next } typeId (some id) = thing := by
  show Option.map _ (if typeId = typeId ∧ id = id then thing else _) = thing
  rw [if_pos ⟨rfl, rfl⟩]
  cases thing with
  | none => rfl
  | some ps => exact congrArg some (orderlyPart_of_orderly (horderly ps rfl))

/-- Only what is placed changes. -/
theorem changes_place (horderly : ∀ ps ∈ thing, orderly ps = true) {next : Nat}
    (hnext : w.next ≤ next) :
    store.Changes w { w.place typeId id thing with next } typeId (some id)
      (thing.map Entries.get?) where
  changed := by rw [held_eq, find_place horderly]
  others typeId' id' hne := by
    have hne' : ¬ (typeId' = typeId ∧ id' = id) := fun h => hne ⟨h.1, by rw [h.2]⟩
    show Option.map _ (Option.map _ (if typeId' = typeId ∧ id' = id then thing else _)) = _
    rw [if_neg hne']
    rfl
  given typeId' id' h := ⟨h.1, h.2.1, fun k hk => h.2.2 k (hnext.trans hk)⟩

theorem changes_put (w : Shelf) (typeId : String) (id : Json) (horderly : orderly ps = true)
    {next : Nat} (hnext : w.next ≤ next) :
    store.Changes w { w.place typeId id (some ps) with next } typeId (some id) (some ps.get?) :=
  changes_place (by rintro _ ⟨rfl⟩; exact horderly) hnext

/-! ### The answers of a shelf -/

section

variable {w' : Shelf} {handle : Option Json}

/-- A new thing gets an identifier that no thing had. -/
theorem create_eq_ok {id : Option Json}
    (h : (provider typeId).ask handle (.create ps) w = (.ok id, w')) :
    ∃ v extra, id = some v ∧ ¬ store.given w typeId v ∧ store.given w' typeId v ∧
      store.Changes w w' typeId (some v) (some fun f => (ps.get? f).or (Entries.get? extra f)) := by
  simp only [provider] at h
  split at h
  · next horderly =>
    cases h
    have hadded : orderly (ps ++ added) = true := orderly_append horderly (by decide +kernel)
    have hchanges := changes_put w typeId (.nat w.next) hadded (Nat.le_succ w.next)
    have hfields : (ps ++ added).get? = fun f => (ps.get? f).or (added.get? f) :=
      funext fun f => Entries.get?_append ps added f
    rw [hfields] at hchanges
    refine ⟨.nat w.next, added, rfl, fun hgiven => hgiven.2.2 _ (Nat.le_refl _) rfl,
      ⟨by rintro ⟨⟩, Json.sound_num _, fun k hk heq => ?_⟩, hchanges⟩
    have hk : w.next + 1 ≤ k := hk
    have heq : (w.next : Int) = k := by simpa [Json.nat] using heq
    omega
  · cases h

/-- What is written stands before what was there. -/
theorem update_eq_ok (h : (provider typeId).ask handle (.update ps) w = (.ok (), w')) :
    ∃ old, w.find typeId handle = some old ∧ store.Changes w w' typeId handle
      (some fun f => (ps.get? f).or (Entries.get? old f)) := by
  simp only [provider] at h
  split at h
  · cases h
  · next id =>
    split at h
    · cases h
    · next old hold =>
      split at h
      · next horderly =>
        cases h
        have hwritten := orderly_append horderly (orderly_of_find hold)
        have hchanges := changes_put w typeId id hwritten (Nat.le_refl w.next)
        have hfields : (ps ++ old).get? = fun f => (ps.get? f).or (old.get? f) :=
          funext fun f => Entries.get?_append ps old f
        rw [hfields] at hchanges
        exact ⟨old, hold, hchanges⟩
      · cases h

/-- Nothing changes where one only looks. -/
theorem world_of_looks {r : Request} (h : r.looks = true) :
    ((provider typeId).ask handle r w).2 = w := by
  cases r with
  | create | update | delete => cases h
  | read | outputs => simp only [provider]; split <;> rfl
  | found | complete | deleteComplete => rfl

/-- Nothing changes where something is refused. -/
theorem world_of_refused {r : Request} {reason : String}
    (h : (provider typeId).ask handle r w = (.error reason, w')) : w' = w := by
  cases r with
  | create | read | outputs =>
    simp only [provider] at h
    split at h <;> cases h
    rfl
  | update =>
    simp only [provider] at h
    split at h
    · cases h
      rfl
    · split at h
      · cases h
        rfl
      · split at h <;> cases h
        rfl
  | delete => simp only [provider] at h; split at h <;> cases h
  | found | complete | deleteComplete => cases h

end

/-- **The things on a shelf are kept as in a store.** -/
theorem keeps_provider (typeId : String) (schema : Schema) :
    store.Keeps typeId schema (provider typeId) where
  sound {w id object f v} hobject hv := by
    obtain ⟨ps, hps, rfl⟩ := Option.map_eq_some_iff.1 hobject
    exact orderly_iff.1 (orderly_of_find hps) _ (Entries.mem_of_get? hv)
  identifies h := ⟨h.1, h.2.1⟩
  create h := by
    obtain ⟨v, extra, hid, hfresh, hgiven, hchanges⟩ := create_eq_ok h
    exact ⟨v, _, hid, hfresh, hgiven, hchanges⟩
  update h := by
    obtain ⟨old, hold, hchanges⟩ := update_eq_ok h
    rw [held_eq, hold]
    exact hchanges
  delete {handle w w'} h := by
    simp only [provider] at h
    split at h <;> cases h
    · exact changes_place (fun _ hps => by cases hps) (Nat.le_refl w.next)
    · exact ⟨rfl, fun _ _ _ => rfl, fun _ _ h => h⟩
  looks handle r w hlooks := by
    rw [world_of_looks hlooks]
    exact .refl store w
  refused h := by
    rw [world_of_refused h]
    exact .refl store _
  read {handle fields w w' found} h := by
    simp only [provider] at h
    split at h
    · next ps hps =>
      cases h
      exact ⟨_, by rw [held_eq, hps]; rfl, fun f _ => rfl⟩
    · cases h
  outputs {handle w w' found object} h hobject f _ := by
    simp only [provider] at h
    split at h
    · next ps hps =>
      cases h
      rw [held_eq, hps] at hobject
      cases hobject
      rfl
    · cases h
  found {handle w w' b} h := by
    cases h
    rw [held_eq, Option.isSome_map]
  complete h := by
    cases h
    rfl
  deleteComplete h := by
    cases h
    rfl

/-- **What can be done is not refused.** -/
theorem obliges_provider (typeId : String) : store.Obliges typeId (provider typeId) := by
  have hthere : ∀ {w : Shelf} {handle : Option Json}, store.held w typeId handle ≠ none →
      ∃ ps, w.find typeId handle = some ps := by
    intro w handle h
    rw [held_eq] at h
    exact Option.ne_none_iff_exists'.1 fun hnone => h (by rw [hnone]; rfl)
  intro handle r w hallows
  cases r with
  | create ps =>
    have horderly : orderly ps = true := orderly_iff.2 hallows
    simp only [provider, horderly, if_true]
    exact ⟨_, _, rfl⟩
  | read | outputs =>
    obtain ⟨ps, hps⟩ := hthere hallows
    simp only [provider, hps]
    exact ⟨_, _, rfl⟩
  | update ps =>
    obtain ⟨old, hold⟩ := hthere hallows.1
    have horderly : orderly ps = true := orderly_iff.2 hallows.2
    cases handle with
    | none => cases hold
    | some id =>
      simp only [provider, hold, horderly, if_true]
      exact ⟨_, _, rfl⟩
  | delete => cases handle <;> exact ⟨_, _, rfl⟩
  | found | complete | deleteComplete => exact ⟨_, _, rfl⟩

end Shelf

/-! ### Failing requests -/

/-- A provider to which some requests fail. -/
def Provider.failing {W : Type} (p : Provider W) (fails : Request → Bool) : Provider W where
  ask handle r w := if fails r then (.error "failed", w) else p.ask handle r w

/-- **Where requests fail without effect, objects are kept as before.** -/
theorem Store.Keeps.failing {W : Type} {S : Store W} {typeId : String} {schema : Schema}
    {p : Provider W} (h : S.Keeps typeId schema p) (fails : Request → Bool) :
    S.Keeps typeId schema (p.failing fails) := by
  have hask : ∀ {handle : Option Json} {r : Request} {w w' : W} {a : r.Answer},
      (p.failing fails).ask handle r w = (.ok a, w') → p.ask handle r w = (.ok a, w') := by
    intro handle r w w' a hasked
    simp only [Provider.failing] at hasked
    split at hasked
    · cases hasked
    · exact hasked
  exact {
    sound := h.sound
    identifies := h.identifies
    create := fun hasked => h.create (hask hasked)
    update := fun hasked => h.update (hask hasked)
    delete := fun hasked => h.delete (hask hasked)
    looks := by
      intro handle r w hlooks
      simp only [Provider.failing]
      split
      · exact .refl S w
      · exact h.looks handle r w hlooks
    refused := by
      intro handle r w w' reason hasked
      simp only [Provider.failing] at hasked
      split at hasked
      · cases hasked
        exact .refl S w
      · exact h.refused hasked
    read := fun hasked => h.read (hask hasked)
    outputs := fun hasked => h.outputs (hask hasked)
    found := fun hasked => h.found (hask hasked)
    complete := fun hasked => h.complete (hask hasked)
    deleteComplete := fun hasked => h.deleteComplete (hask hasked) }

namespace Shelf

/-! ### Registries -/

variable {schema : Schema} {typeId : String}

/-- One type, whose things stand on a shelf. -/
def types (schema : Schema) : Registry Shelf :=
  Table.ofList [("file", ⟨schema, some (provider "file")⟩)]

/-- One type, whose things stand on a shelf, and for which some requests fail. -/
def failing (schema : Schema) (fails : Request → Bool) : Registry Shelf :=
  Table.ofList [("file", ⟨schema, some ((provider "file").failing fails)⟩)]

theorem eq_of_single {kind kind' : Kind Shelf}
    (h : (Table.ofList [("file", kind')]).get? typeId = some kind) :
    typeId = "file" ∧ kind = kind' := by
  have hmem := Table.get?_eq_some_iff.1 h
  simpa using Prod.mk.inj (List.mem_singleton.1 hmem)

theorem covers_types (schema : Schema) :
    (types schema).Covers (Table.ofList [("file", schema)]) :=
  covers_single (rfl : (types schema).get? "file" = some ⟨schema, some (provider "file")⟩)

theorem covers_failing (schema : Schema) (fails : Request → Bool) :
    (failing schema fails).Covers (Table.ofList [("file", schema)]) :=
  covers_single (rfl : (failing schema fails).get? "file" =
    some ⟨schema, some ((provider "file").failing fails)⟩)

theorem serves_types (schema : Schema) : store.Serves (types schema) := by
  intro typeId kind hkind
  obtain ⟨rfl, rfl⟩ := eq_of_single hkind
  exact ⟨_, rfl, keeps_provider "file" schema⟩

theorem serves_failing (schema : Schema) (fails : Request → Bool) :
    store.Serves (failing schema fails) := by
  intro typeId kind hkind
  obtain ⟨rfl, rfl⟩ := eq_of_single hkind
  exact ⟨_, rfl, (keeps_provider "file" schema).failing fails⟩

theorem obliging_types (schema : Schema) : store.Obliging (types schema) := by
  intro typeId kind p hkind hp
  obtain ⟨rfl, rfl⟩ := eq_of_single hkind
  cases hp
  exact obliges_provider "file"

end Shelf

end Provisioning
