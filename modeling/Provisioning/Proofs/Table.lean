/-
What a table holds.

A table is a list of named values in which no name occurs twice.  Every proof about tables
reads them through `get?`, so what each operation does to `get?` is said once here: writing
changes the value of one name, and erasing takes one name away.

`swapErase` also moves an entry.  With distinct names that cannot be seen through `get?`,
because it leaves a permutation of what `erase` leaves, and a permutation of entries with
distinct names binds the same names to the same values.
-/
import Mathlib.Data.List.Perm.Subperm
import Mathlib.Data.List.Nodup
import Provisioning.Table

namespace Provisioning

namespace Entries

variable {α β : Type}

@[simp] theorem get?_nil (k : String) : get? ([] : Entries α) k = none := rfl

@[simp] theorem keys_nil : keys ([] : Entries α) = [] := rfl

@[simp] theorem keys_cons (e : String × α) (es : Entries α) : keys (e :: es) = e.1 :: es.keys := rfl

theorem get?_cons (k' : String) (v : α) (es : Entries α) (k : String) :
    get? ((k', v) :: es) k = if k' = k then some v else es.get? k := rfl

/-! ### Names and values -/

theorem get?_append (es fs : Entries α) (k : String) :
    get? (es ++ fs) k = (es.get? k).or (fs.get? k) := by
  induction es with
  | nil => rfl
  | cons e rest ih =>
    obtain ⟨k', v⟩ := e
    rw [List.cons_append, get?_cons, get?_cons, ih]
    split <;> rfl

theorem get?_eq_none_iff {es : Entries α} {k : String} : es.get? k = none ↔ k ∉ es.keys := by
  induction es with
  | nil => simp
  | cons e rest ih =>
    obtain ⟨k', v⟩ := e
    rw [get?_cons]
    by_cases h : k' = k
    · simp [h]
    · have h' : ¬ k = k' := fun hk => h hk.symm
      simp [h, h', ih]

theorem contains_iff {es : Entries α} {k : String} : es.contains k = true ↔ k ∈ es.keys := by
  unfold contains
  rw [← not_iff_not, ← get?_eq_none_iff]
  simp

theorem mem_of_get? {es : Entries α} {k : String} {v : α} (h : es.get? k = some v) :
    (k, v) ∈ es := by
  induction es with
  | nil => simp at h
  | cons e rest ih =>
    obtain ⟨k', v'⟩ := e
    rw [get?_cons] at h
    by_cases hk : k' = k
    · rw [if_pos hk] at h
      cases h
      rw [hk]
      exact List.mem_cons_self
    · rw [if_neg hk] at h
      exact List.mem_cons_of_mem _ (ih h)

theorem mem_keys_of_get? {es : Entries α} {k : String} {v : α} (h : es.get? k = some v) :
    k ∈ es.keys :=
  List.mem_map.2 ⟨_, mem_of_get? h, rfl⟩

theorem get?_of_mem {es : Entries α} (hes : es.keys.Nodup) {k : String} {v : α}
    (h : (k, v) ∈ es) : es.get? k = some v := by
  induction es with
  | nil => simp at h
  | cons e rest ih =>
    obtain ⟨k', v'⟩ := e
    rw [keys_cons, List.nodup_cons] at hes
    rw [get?_cons]
    rcases List.mem_cons.1 h with heq | hmem
    · cases heq
      rw [if_pos rfl]
    · have hk : k' ≠ k := by
        rintro rfl
        exact hes.1 (List.mem_map.2 ⟨_, hmem, rfl⟩)
      rw [if_neg hk]
      exact ih hes.2 hmem

theorem get?_eq_some_iff {es : Entries α} (hes : es.keys.Nodup) {k : String} {v : α} :
    es.get? k = some v ↔ (k, v) ∈ es :=
  ⟨mem_of_get?, get?_of_mem hes⟩

/-- Entries with distinct names bind the same names to the same values in any order. -/
theorem get?_perm {es fs : Entries α} (hes : es.keys.Nodup) (h : es.Perm fs) (k : String) :
    es.get? k = fs.get? k := by
  have hfs : fs.keys.Nodup := (h.map Prod.fst).nodup_iff.1 hes
  apply Option.ext
  intro v
  rw [get?_eq_some_iff hes, get?_eq_some_iff hfs]
  exact h.mem_iff

theorem get?_map (es : Entries α) (f : String → α → β) (k : String) :
    get? (es.map fun e => (e.1, f e.1 e.2)) k = (es.get? k).map (f k) := by
  induction es with
  | nil => rfl
  | cons e rest ih =>
    obtain ⟨k', v⟩ := e
    rw [List.map_cons, get?_cons, get?_cons]
    by_cases h : k' = k
    · simp [h]
    · simp [h, ih]

/-! ### Writing and erasing -/

theorem get?_set (es : Entries α) (k : String) (v : α) (k' : String) :
    (es.set k v).get? k' = if k = k' then some v else es.get? k' := by
  induction es with
  | nil => rfl
  | cons e rest ih =>
    obtain ⟨k₀, v₀⟩ := e
    by_cases h₀ : k₀ = k
    · subst h₀
      by_cases h : k₀ = k' <;> simp [set, get?_cons, h]
    · rw [set, if_neg h₀, get?_cons, get?_cons, ih]
      by_cases h : k₀ = k'
      · have hk : k ≠ k' := fun hk => h₀ (h.trans hk.symm)
        simp [h, hk]
      · simp [h]

theorem get?_erase {es : Entries α} (hes : es.keys.Nodup) (k k' : String) :
    (es.erase k).get? k' = if k = k' then none else es.get? k' := by
  induction es with
  | nil => simp [erase]
  | cons e rest ih =>
    obtain ⟨k₀, v₀⟩ := e
    rw [keys_cons, List.nodup_cons] at hes
    by_cases h₀ : k₀ = k
    · subst h₀
      rw [erase, if_pos rfl, get?_cons]
      by_cases h : k₀ = k'
      · subst h
        simpa using get?_eq_none_iff.2 hes.1
      · simp [h]
    · rw [erase, if_neg h₀, get?_cons, get?_cons, ih hes.2]
      by_cases h : k₀ = k'
      · have hk : k ≠ k' := fun hk => h₀ (h.trans hk.symm)
        simp [h, hk]
      · simp [h]

theorem swapErase_perm (es : Entries α) (k : String) : (es.swapErase k).Perm (es.erase k) := by
  induction es with
  | nil => exact List.Perm.refl _
  | cons e rest ih =>
    obtain ⟨k₀, v₀⟩ := e
    by_cases h₀ : k₀ = k
    · rw [swapErase, erase, if_pos h₀, if_pos h₀]
      split
      · next hlast =>
        rw [List.getLast?_eq_none_iff.1 hlast]
      · next last hlast =>
        have hswap : (last :: rest.dropLast).Perm (rest.dropLast ++ [last]) :=
          (List.perm_append_singleton _ _).symm
        rwa [List.dropLast_append_getLast? last hlast] at hswap
    · rw [swapErase, erase, if_neg h₀, if_neg h₀]
      exact ih.cons _

theorem nodup_swapErase {es : Entries α} (hes : es.keys.Nodup) (k : String) :
    (es.swapErase k).keys.Nodup :=
  ((swapErase_perm es k).map Prod.fst).nodup_iff.2 (nodup_erase hes k)

theorem get?_swapErase {es : Entries α} (hes : es.keys.Nodup) (k k' : String) :
    (es.swapErase k).get? k' = if k = k' then none else es.get? k' := by
  rw [get?_perm (nodup_swapErase hes k) (swapErase_perm es k), get?_erase hes]

/-! ### Writing many entries -/

theorem mem_keys_set {es : Entries α} {k k' : String} {v : α} :
    k' ∈ (es.set k v).keys ↔ k' ∈ es.keys ∨ k' = k := by
  rw [keys_set]
  by_cases hk : k ∈ es.keys
  · rw [if_pos hk]
    exact ⟨.inl, fun h => h.elim id fun h => h ▸ hk⟩
  · simp [hk]

theorem mem_keys_foldl_set {pairs : List (String × α)} {es : Entries α} {k : String} :
    k ∈ (pairs.foldl (fun es e => es.set e.1 e.2) es).keys ↔
      k ∈ es.keys ∨ k ∈ pairs.map Prod.fst := by
  induction pairs generalizing es with
  | nil => simp
  | cons e rest ih =>
    rw [List.foldl_cons, ih, mem_keys_set]
    simp [or_assoc]

theorem mem_keys_ofList {pairs : List (String × α)} {k : String} :
    k ∈ (ofList pairs).keys ↔ k ∈ pairs.map Prod.fst := by
  unfold ofList
  rw [mem_keys_foldl_set]
  simp

theorem mem_keys_overlay {es top : Entries α} {k : String} :
    k ∈ (es.overlay top).keys ↔ k ∈ es.keys ∨ k ∈ top.keys :=
  mem_keys_foldl_set

/-- What is laid on top and new comes behind what was there. -/
theorem keys_overlay {es top : Entries α} (h : top.keys.Nodup) :
    (es.overlay top).keys = es.keys ++ top.keys.filter fun k => !es.contains k := by
  induction top generalizing es with
  | nil => simp [overlay]
  | cons e rest ih =>
    rw [keys_cons, List.nodup_cons] at h
    have hrest : ((keys rest).filter fun k => !(es.set e.1 e.2).contains k) =
        (keys rest).filter fun k => !es.contains k := by
      refine List.filter_congr fun k hk => ?_
      have hne : k ≠ e.1 := fun heq => h.1 (heq ▸ hk)
      rw [Bool.eq_iff_iff, Bool.not_eq_true', Bool.not_eq_true', ← Bool.not_eq_true,
        ← Bool.not_eq_true, contains_iff, contains_iff, mem_keys_set]
      simp [hne]
    show ((es.set e.1 e.2).overlay rest).keys = _
    rw [ih h.2, hrest, keys_set, keys_cons, List.filter_cons]
    by_cases hmem : e.1 ∈ es.keys
    · simp [hmem, contains_iff.2 hmem]
    · have hfree : es.contains e.1 = false :=
        Bool.eq_false_iff.2 fun hcontains => hmem (contains_iff.1 hcontains)
      simp [hmem, hfree]

theorem get?_foldl_set {pairs : List (String × α)} (h : (pairs.map Prod.fst).Nodup)
    (es : Entries α) (k : String) :
    (pairs.foldl (fun es e => es.set e.1 e.2) es).get? k = (get? pairs k).or (es.get? k) := by
  induction pairs generalizing es with
  | nil => simp
  | cons e rest ih =>
    rw [List.map_cons, List.nodup_cons] at h
    rw [List.foldl_cons, ih h.2, get?_set, get?_cons]
    by_cases hk : e.1 = k
    · have hrest : get? rest k = none := get?_eq_none_iff.2 (hk ▸ h.1)
      simp [hk, hrest]
    · simp [hk]

/-- What is laid on top counts. -/
theorem get?_overlay (es : Entries α) {top : Entries α} (h : top.keys.Nodup) (k : String) :
    (es.overlay top).get? k = (top.get? k).or (es.get? k) :=
  get?_foldl_set h es k

theorem mem_foldl_set {pairs : List (String × α)} {es : Entries α} {e : String × α}
    (h : e ∈ pairs.foldl (fun es e => es.set e.1 e.2) es) : e ∈ es ∨ e ∈ pairs := by
  induction pairs generalizing es with
  | nil => exact .inl h
  | cons e' rest ih =>
    rw [List.foldl_cons] at h
    rcases ih h with hset | hrest
    · rcases mem_set hset with hes | heq
      · exact .inl hes
      · exact .inr (heq ▸ List.mem_cons_self)
    · exact .inr (List.mem_cons_of_mem _ hrest)

theorem mem_of_mem_ofList {pairs : List (String × α)} {e : String × α}
    (h : e ∈ ofList pairs) : e ∈ pairs := by
  rcases mem_foldl_set h with hnil | hmem
  · simp at hnil
  · exact hmem

theorem set_of_notMem {es : Entries α} {k : String} (h : k ∉ es.keys) (v : α) :
    es.set k v = es ++ [(k, v)] := by
  induction es with
  | nil => rfl
  | cons e rest ih =>
    obtain ⟨k', v'⟩ := e
    have hne : k' ≠ k := by
      rintro rfl
      simp at h
    have hrest : k ∉ keys rest := fun hk => h (List.mem_cons_of_mem _ hk)
    rw [set, if_neg hne, ih hrest, List.cons_append]

theorem foldl_set_of_nodup {pairs : List (String × α)} {es : Entries α}
    (h : (es.keys ++ pairs.map Prod.fst).Nodup) :
    pairs.foldl (fun es e => es.set e.1 e.2) es = es ++ pairs := by
  induction pairs generalizing es with
  | nil => simp
  | cons e rest ih =>
    obtain ⟨k, v⟩ := e
    have hk : k ∉ es.keys := by
      intro hmem
      exact (List.nodup_append.1 h).2.2 k hmem k (by simp) rfl
    have hset : (es.set k v).keys = es.keys ++ [k] := by rw [keys_set, if_neg hk]
    rw [List.foldl_cons, ih (by rw [hset]; simpa using h), set_of_notMem hk]
    simp

/-- Pairs with distinct names are written as they stand. -/
theorem ofList_of_nodup {pairs : List (String × α)} (h : (pairs.map Prod.fst).Nodup) :
    ofList pairs = pairs := by
  unfold ofList
  rw [foldl_set_of_nodup (by simpa using h)]
  rfl

/-- If no pair was overwritten, the names were distinct. -/
theorem nodup_of_length_ofList {pairs : List (String × α)}
    (h : pairs.length ≤ (ofList pairs).length) : (pairs.map Prod.fst).Nodup := by
  have hsub : (ofList pairs).keys ⊆ pairs.map Prod.fst := fun k hk => mem_keys_ofList.1 hk
  have hsubperm : (ofList pairs).keys.Subperm (pairs.map Prod.fst) :=
    (nodup_ofList pairs).subperm hsub
  have hperm : (ofList pairs).keys.Perm (pairs.map Prod.fst) :=
    hsubperm.perm_of_length_le (by simpa [keys] using h)
  exact hperm.nodup_iff.1 (nodup_ofList pairs)

end Entries

namespace Table

variable {α β : Type}

/-- A table is its entries. -/
theorem eq_of_entries {t u : Table α} (h : t.entries = u.entries) : t = u := by
  cases t
  cases u
  cases h
  rfl

theorem contains_iff {t : Table α} {k : String} : t.contains k = true ↔ k ∈ t.keys :=
  Entries.contains_iff

theorem get?_eq_some_iff {t : Table α} {k : String} {v : α} :
    t.get? k = some v ↔ (k, v) ∈ t.entries :=
  Entries.get?_eq_some_iff t.nodup

theorem mem_keys_of_get? {t : Table α} {k : String} {v : α} (h : t.get? k = some v) :
    k ∈ t.keys :=
  Entries.mem_keys_of_get? h

theorem get?_insert (t : Table α) (k : String) (v : α) (k' : String) :
    (t.insert k v).get? k' = if k = k' then some v else t.get? k' :=
  Entries.get?_set t.entries k v k'

theorem get?_erase (t : Table α) (k k' : String) :
    (t.erase k).get? k' = if k = k' then none else t.get? k' :=
  Entries.get?_erase t.nodup k k'

theorem get?_overlay (t : Table α) {top : Entries α} (h : top.keys.Nodup) (k : String) :
    (t.overlay top).get? k = (top.get? k).or (t.get? k) :=
  Entries.get?_overlay t.entries h k

@[simp] theorem get?_empty (k : String) : (empty : Table α).get? k = none := rfl

theorem keys_mapValues (t : Table α) (f : String → α → β) : (t.mapValues f).keys = t.keys :=
  Entries.keys_mapValues t.entries f

theorem get?_mapValues (t : Table α) (f : String → α → β) (k : String) :
    (t.mapValues f).get? k = (t.get? k).map (f k) :=
  Entries.get?_map t.entries f k

end Table

end Provisioning
