/-
What is compared.

An object is compared by the fields that can be set: each is read as its value, or as `null`
if the object has none.  So what is decided only depends on the object and on what is wanted.
An object that was just created with the wanted fields, or updated after only mutable fields
differed, is as it is wanted.
-/
import Provisioning.Proofs.Declare.Values
import Provisioning.Run.Machine

namespace Provisioning

namespace Entries

variable {α : Type}

theorem get?_ofList_map (g : String → α) {names : List String} {name : String}
    (h : name ∈ names) : (ofList (names.map fun n => (n, g n))).get? name = some (g name) := by
  have hfold : ∀ (es : Entries α), name ∈ names ∨ es.get? name = some (g name) →
      ((names.map fun n => (n, g n)).foldl (fun es e => es.set e.1 e.2) es).get? name =
        some (g name) := by
    clear h
    induction names with
    | nil => intro es h; simpa using h
    | cons n rest ih =>
      intro es h
      refine ih _ ?_
      rw [get?_set]
      by_cases hn : n = name
      · right
        rw [if_pos hn, hn]
      · rw [if_neg hn]
        simpa [Ne.symm hn] using h
  exact hfold [] (.inl h)

theorem get?_filter (es : Entries α) (p : String → Bool) (name : String) :
    get? (es.filter fun e => p e.1) name = if p name then es.get? name else none := by
  induction es with
  | nil => simp
  | cons e rest ih =>
    obtain ⟨n, v⟩ := e
    rw [List.filter_cons, get?_cons]
    by_cases hn : n = name
    · subst hn
      cases hp : p n
      · simpa [hp] using ih
      · simp [get?_cons]
    · cases hp : p n
      · simpa [hn] using ih
      · simpa [get?_cons, hn] using ih

end Entries

namespace Schema

variable {s : Schema} {object : String → Option Json} {desired : Properties} {field : String}
  {want : Json}

theorem mem_readable : field ∈ s.readable ↔ s.settable field = true := by
  simp [readable, settable, or_comm]

/-- The fields of an object as they are compared. -/
def current (s : Schema) (object : String → Option Json) : Properties :=
  Entries.ofList (s.readable.map fun f => (f, (object f).getD .null))

theorem current_of_read {found : Properties} (h : ∀ f ∈ s.readable, found.get? f = object f) :
    Staged.currentFields s.readable found = s.current object := by
  unfold Staged.currentFields current
  congr 1
  refine List.map_congr_left fun f hf => ?_
  rw [h f hf]

theorem differs_current (hfield : field ∈ s.readable) :
    differs (s.current object) desired field = true ↔
      ∃ want, desired.get? field = some want ∧ ((object field).getD .null).same want = false := by
  unfold differs current
  rw [Entries.get?_ofList_map _ hfield]
  cases desired.get? field <;> simp

theorem compare_eq_noChange
    (h : ∀ f ∈ s.readable, ∀ want, desired.get? f = some want →
      ((object f).getD .null).same want = true) :
    compare s (s.current object) desired = .noChange := by
  have hsame : ∀ f ∈ s.readable, differs (s.current object) desired f = false := by
    intro f hf
    by_contra hdiffers
    obtain ⟨want, hwant, hne⟩ := (differs_current hf).1 (Bool.not_eq_false _ ▸ hdiffers)
    rw [h f hf want hwant] at hne
    cases hne
  have himmutable : s.immutableFields.any (differs (s.current object) desired) = false := by
    rw [List.any_eq_false]
    intro f hf
    simp [hsame f (List.mem_append_left _ hf)]
  have hmutable : s.mutableFields.any (differs (s.current object) desired) = false := by
    rw [List.any_eq_false]
    intro f hf
    simp [hsame f (List.mem_append_right _ hf)]
  simp [compare, himmutable, hmutable]

/-- Where nothing has to change, every bound field is as it is wanted. -/
theorem same_of_noChange (h : compare s (s.current object) desired = .noChange)
    (hfield : field ∈ s.readable) (hwant : desired.get? field = some want) :
    ((object field).getD .null).same want = true := by
  by_contra hne
  have hdiffers : differs (s.current object) desired field = true :=
    (differs_current hfield).2 ⟨want, hwant, Bool.eq_false_iff.2 hne⟩
  unfold compare at h
  split at h
  · cases h
  · next himmutable =>
    split at h
    · cases h
    · next hmutable =>
      rcases List.mem_append.1 hfield with hmem | hmem
      · exact himmutable (List.any_eq_true.2 ⟨field, hmem, hdiffers⟩)
      · exact hmutable (List.any_eq_true.2 ⟨field, hmem, hdiffers⟩)

/-- Where no new object is called for, the immutable fields are as they are wanted. -/
theorem same_of_compare (h : compare s (s.current object) desired ≠ .recreate)
    (hfield : field ∈ s.immutableFields) (hwant : desired.get? field = some want) :
    ((object field).getD .null).same want = true := by
  by_contra hne
  refine h ?_
  have hdiffers : differs (s.current object) desired field = true :=
    (differs_current (List.mem_append_left s.mutableFields hfield)).2
      ⟨want, hwant, Bool.eq_false_iff.2 hne⟩
  have hany : s.immutableFields.any (differs (s.current object) desired) = true :=
    List.any_eq_true.2 ⟨field, hfield, hdiffers⟩
  simp [compare, hany]

/-- **A new object is as it is wanted.** -/
theorem compare_created {extra : String → Option Json} (hsound : ∀ e ∈ desired, e.2.Sound) :
    compare s (s.current fun f => (desired.get? f).or (extra f)) desired = .noChange := by
  refine compare_eq_noChange fun f hf want hwant => ?_
  rw [hwant]
  exact hsound _ (Entries.mem_of_get? hwant)

/-- **An object that was updated because only mutable fields differed is as it is wanted.** -/
theorem compare_updated (h : compare s (s.current object) desired ≠ .recreate)
    (hsound : ∀ e ∈ desired, e.2.Sound) :
    compare s (s.current fun f =>
        (Entries.get? (desired.filter fun e => s.mutableFields.contains e.1) f).or (object f))
      desired = .noChange := by
  refine compare_eq_noChange fun f hf want hwant => ?_
  rw [Entries.get?_filter]
  by_cases hmutable : f ∈ s.mutableFields
  · rw [if_pos (by simpa using hmutable), hwant]
    exact hsound _ (Entries.mem_of_get? hwant)
  · rw [if_neg (by simpa using hmutable)]
    exact same_of_compare h ((List.mem_append.1 hf).resolve_right hmutable) hwant

end Schema

end Provisioning
