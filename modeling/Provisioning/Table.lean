/-
Tables that remember the order in which their keys were first written.

Everything this library keeps by name — tracked ids, outputs, labels, resources,
flattened values — is shown to the outside in the order it was written, so the order
is part of the value.  Writing a key again keeps its place and takes the new value;
erasing keeps the order of the rest.

There are two types.  `Entries` is a plain list of pairs, used inside recursive data
such as JSON objects.  `Table` is such a list together with the fact that no key occurs
twice, which every operation below keeps.
-/
namespace Provisioning

/-- Named values in order; a reader finds the first entry of a name. -/
abbrev Entries (α : Type) := List (String × α)

namespace Entries

variable {α β : Type}

/-- The names in order. -/
def keys (es : Entries α) : List String := es.map Prod.fst

/-- The value of the first entry named `k`. -/
def get? : Entries α → String → Option α
  | [], _ => none
  | (k', v) :: rest, k => if k' = k then some v else get? rest k

/-- Whether some entry is named `k`. -/
def contains (es : Entries α) (k : String) : Bool := (es.get? k).isSome

/-- Replaces the value of `k` where it stands, or appends it. -/
def set : Entries α → String → α → Entries α
  | [], k, v => [(k, v)]
  | (k', v') :: rest, k, v => if k' = k then (k, v) :: rest else (k', v') :: set rest k v

/-- Drops the first entry named `k`; the others keep their order. -/
def erase : Entries α → String → Entries α
  | [], _ => []
  | (k', v') :: rest, k => if k' = k then rest else (k', v') :: erase rest k

/-- Drops the entry named `k` and lets the last entry fill its place. -/
def swapErase : Entries α → String → Entries α
  | [], _ => []
  | (k', v') :: rest, k =>
    if k' = k then
      match rest.getLast? with
      | none => []
      | some e => e :: rest.dropLast
    else (k', v') :: swapErase rest k

/-- Writes pairs one after the other: a repeated name keeps its first place and takes the
last value. -/
def ofList (pairs : List (String × α)) : Entries α :=
  pairs.foldl (fun es e => es.set e.1 e.2) []

/-- Overlays `top`: its values win, its new names follow the old ones. -/
def overlay (es top : Entries α) : Entries α :=
  top.foldl (fun es e => es.set e.1 e.2) es

theorem keys_set (es : Entries α) (k : String) (v : α) :
    (es.set k v).keys = if k ∈ es.keys then es.keys else es.keys ++ [k] := by
  induction es with
  | nil => simp [set, keys]
  | cons e rest ih =>
    obtain ⟨k', v'⟩ := e
    by_cases h : k' = k
    · simp [set, keys, h]
    · have h' : ¬ k = k' := fun hk => h hk.symm
      simp only [keys] at ih
      simp only [set, keys, h, if_false, List.map_cons, List.mem_cons, h', false_or, ih]
      by_cases hk : k ∈ rest.map Prod.fst <;> simp [hk]

theorem nodup_set {es : Entries α} (h : es.keys.Nodup) (k : String) (v : α) :
    (es.set k v).keys.Nodup := by
  rw [keys_set]
  split
  · exact h
  · next hk =>
    refine List.nodup_append.2 ⟨h, by simp, ?_⟩
    intro a ha b hb
    obtain rfl : b = k := by simpa using hb
    rintro rfl
    exact hk ha

theorem mem_set {es : Entries α} {k : String} {v : α} {e : String × α}
    (h : e ∈ es.set k v) : e ∈ es ∨ e = (k, v) := by
  induction es with
  | nil => exact .inr (by simpa [set] using h)
  | cons e' rest ih =>
    obtain ⟨k', v'⟩ := e'
    rw [set] at h
    split at h
    · rcases List.mem_cons.1 h with h | h
      · exact .inr h
      · exact .inl (List.mem_cons_of_mem _ h)
    · rcases List.mem_cons.1 h with h | h
      · exact .inl (h ▸ List.mem_cons_self)
      · rcases ih h with h | h
        · exact .inl (List.mem_cons_of_mem _ h)
        · exact .inr h

theorem keys_erase_sublist (es : Entries α) (k : String) :
    (es.erase k).keys.Sublist es.keys := by
  induction es with
  | nil => simp [erase, keys]
  | cons e rest ih =>
    obtain ⟨k', v'⟩ := e
    by_cases h : k' = k
    · simp [erase, keys, h]
    · simpa [erase, keys, h] using ih

theorem nodup_erase {es : Entries α} (h : es.keys.Nodup) (k : String) :
    (es.erase k).keys.Nodup :=
  h.sublist (keys_erase_sublist es k)

theorem nodup_foldl_set (pairs : List (String × α)) {es : Entries α} (h : es.keys.Nodup) :
    (pairs.foldl (fun es e => es.set e.1 e.2) es).keys.Nodup := by
  induction pairs generalizing es with
  | nil => exact h
  | cons e rest ih => exact ih (nodup_set h e.1 e.2)

theorem nodup_ofList (pairs : List (String × α)) : (ofList pairs).keys.Nodup :=
  nodup_foldl_set pairs (by simp [keys])

theorem keys_mapValues (es : Entries α) (f : String → α → β) :
    keys (es.map fun e => (e.1, f e.1 e.2)) = es.keys := by
  simp [keys]

end Entries

/-- Named values in the order their names were first written, no name twice. -/
structure Table (α : Type) where
  /-- The entries in order. -/
  entries : Entries α
  /-- No name occurs twice. -/
  nodup : entries.keys.Nodup
deriving DecidableEq

namespace Table

variable {α β : Type}

/-- The table without entries. -/
def empty : Table α := ⟨[], by simp [Entries.keys]⟩

instance : Inhabited (Table α) := ⟨empty⟩

/-- Writes pairs one after the other. -/
def ofList (pairs : List (String × α)) : Table α :=
  ⟨Entries.ofList pairs, Entries.nodup_ofList pairs⟩

/-- The value under `k`. -/
def get? (t : Table α) (k : String) : Option α := t.entries.get? k

/-- Whether `k` has a value. -/
def contains (t : Table α) (k : String) : Bool := t.entries.contains k

/-- The names in order. -/
def keys (t : Table α) : List String := t.entries.keys

/-- The values in order. -/
def values (t : Table α) : List α := t.entries.map Prod.snd

/-- How many names have a value. -/
def size (t : Table α) : Nat := t.entries.length

/-- Gives `k` the value `v`: in place if it has one, else at the end. -/
def insert (t : Table α) (k : String) (v : α) : Table α :=
  ⟨t.entries.set k v, Entries.nodup_set t.nodup k v⟩

/-- Takes `k` out; the others keep their order. -/
def erase (t : Table α) (k : String) : Table α :=
  ⟨t.entries.erase k, Entries.nodup_erase t.nodup k⟩

/-- Writes all entries of `es` into `t`. -/
def overlay (t : Table α) (es : List (String × α)) : Table α :=
  ⟨t.entries.overlay es, Entries.nodup_foldl_set es t.nodup⟩

/-- The table with every value replaced by its image. -/
def mapValues (t : Table α) (f : String → α → β) : Table β :=
  ⟨t.entries.map fun e => (e.1, f e.1 e.2), by rw [Entries.keys_mapValues]; exact t.nodup⟩

end Table

end Provisioning
