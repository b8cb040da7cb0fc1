/-
Computations that may fail, and lists of them.

A chain of steps succeeds exactly if each of its steps does, and a list of computations
that succeeds has run every one of them.  Compilation and flattening are inverted through
these facts; nothing else unfolds the error monad.
-/
import Mathlib.Data.List.Forall2

namespace Provisioning

variable {ε α β α' β' : Type}

theorem bind_eq_ok {x : Except ε α} {f : α → Except ε β} {b : β} :
    (x >>= f) = .ok b ↔ ∃ a, x = .ok a ∧ f a = .ok b := by
  cases x with
  | error e => exact ⟨nofun, fun ⟨_, h, _⟩ => nomatch h⟩
  | ok a => exact ⟨fun h => ⟨a, rfl, h⟩, fun ⟨_, rfl, h⟩ => h⟩

theorem map_eq_ok {x : Except ε α} {f : α → β} {b : β} :
    x.map f = .ok b ↔ ∃ a, x = .ok a ∧ f a = b := by
  cases x with
  | error e => exact ⟨nofun, fun ⟨_, h, _⟩ => nomatch h⟩
  | ok a => exact ⟨fun h => ⟨a, rfl, by cases h; rfl⟩, fun ⟨_, rfl, h⟩ => by rw [← h]; rfl⟩

theorem bind_eq_error {x : Except ε α} {f : α → Except ε β} {e : ε} :
    (x >>= f) = .error e ↔ x = .error e ∨ ∃ a, x = .ok a ∧ f a = .error e := by
  cases x with
  | error e' =>
    constructor
    · intro h
      cases h
      exact .inl rfl
    · rintro (h | ⟨a, h, -⟩)
      · cases h
        rfl
      · cases h
  | ok a =>
    constructor
    · exact fun h => .inr ⟨a, rfl, h⟩
    · rintro (h | ⟨_, ⟨rfl⟩, h⟩)
      · cases h
      · exact h

/-- What is done with a result at the end decides nothing about success. -/
theorem exists_return_iff {x : Except ε α} {f : α → β} :
    (∃ b, (do return f (← x) : Except ε β) = .ok b) ↔ ∃ a, x = .ok a := by
  cases x with
  | error e => simp [bind, Except.bind]
  | ok a => exact ⟨fun _ => ⟨a, rfl⟩, fun _ => ⟨f a, rfl⟩⟩

theorem mapM_eq_ok {f : α → Except ε β} {l : List α} {rs : List β} :
    l.mapM f = .ok rs ↔ List.Forall₂ (fun a b => f a = .ok b) l rs := by
  induction l generalizing rs with
  | nil =>
    rw [List.mapM_nil, List.forall₂_nil_left_iff]
    exact ⟨fun h => by cases h; rfl, fun h => by rw [h]; rfl⟩
  | cons a rest ih =>
    rw [List.mapM_cons, bind_eq_ok, List.forall₂_cons_left_iff]
    constructor
    · rintro ⟨b, hb, h⟩
      obtain ⟨bs, hbs, h⟩ := bind_eq_ok.1 h
      cases h
      exact ⟨b, bs, hb, ih.1 hbs, rfl⟩
    · rintro ⟨b, bs, hb, hbs, rfl⟩
      exact ⟨b, hb, bind_eq_ok.2 ⟨bs, ih.2 hbs, rfl⟩⟩

/-- What goes through a list one by one does to each element the same. -/
theorem eq_mapM (f : α → Except ε β) (g : List α → Except ε (List β)) (hnil : g [] = .ok [])
    (hcons : ∀ a rest, g (a :: rest) = do let b ← f a; return b :: (← g rest)) (l : List α) :
    g l = l.mapM f := by
  induction l with
  | nil => exact hnil
  | cons a rest ih => rw [hcons, List.mapM_cons, ih]

/-- What goes through fields one by one does the same to each value, and keeps the names. -/
theorem eq_mapM_fields {κ : Type} (f : α → Except ε β)
    (g : List (κ × α) → Except ε (List (κ × β))) (hnil : g [] = .ok [])
    (hcons : ∀ k a rest, g ((k, a) :: rest) = do let b ← f a; return (k, b) :: (← g rest))
    (l : List (κ × α)) : g l = l.mapM fun e => do return (e.1, ← f e.2) := by
  refine eq_mapM _ g hnil (fun e rest => ?_) l
  rw [hcons]
  simp only [bind_assoc, pure_bind]

/-- If every success agrees with a function, so does the list of them. -/
theorem eq_map_of_mapM {f : α → Except ε β} {g : α → β} {l : List α} {rs : List β}
    (h : l.mapM f = .ok rs) (hg : ∀ a ∈ l, ∀ b, f a = .ok b → b = g a) : rs = l.map g := by
  have hall := mapM_eq_ok.1 h
  clear h
  induction hall with
  | nil => rfl
  | cons hab _ ih =>
    rw [List.map_cons, hg _ List.mem_cons_self _ hab,
      ih fun a ha => hg a (List.mem_cons_of_mem _ ha)]

theorem ok_of_mapM {f : α → Except ε β} {l : List α} {rs : List β} (h : l.mapM f = .ok rs)
    {a : α} (ha : a ∈ l) : ∃ b ∈ rs, f a = .ok b := by
  have hall := mapM_eq_ok.1 h
  clear h
  induction hall with
  | nil => simp at ha
  | cons hab _ ih =>
    rcases List.mem_cons.1 ha with rfl | ha
    · exact ⟨_, List.mem_cons_self, hab⟩
    · obtain ⟨b, hb, hfb⟩ := ih ha
      exact ⟨b, List.mem_cons_of_mem _ hb, hfb⟩

theorem source_of_mapM {f : α → Except ε β} {l : List α} {rs : List β} (h : l.mapM f = .ok rs)
    {b : β} (hb : b ∈ rs) : ∃ a ∈ l, f a = .ok b := by
  have hall := mapM_eq_ok.1 h
  clear h
  induction hall with
  | nil => cases hb
  | cons hab _ ih =>
    rcases List.mem_cons.1 hb with rfl | hb
    · exact ⟨_, List.mem_cons_self, hab⟩
    · obtain ⟨a, ha, hfa⟩ := ih hb
      exact ⟨a, List.mem_cons_of_mem _ ha, hfa⟩

theorem names_of_mapM_fields {κ : Type} {f : α → Except ε β} {l : List (κ × α)}
    {rs : List (κ × β)} (h : (l.mapM fun e => do return (e.1, ← f e.2)) = .ok rs) :
    rs.map Prod.fst = l.map Prod.fst := by
  have hall := mapM_eq_ok.1 h
  clear h
  induction hall with
  | nil => rfl
  | cons hx _ ih =>
    obtain ⟨b, -, hx⟩ := bind_eq_ok.1 hx
    obtain rfl := Except.ok.inj hx
    rw [List.map_cons, List.map_cons, ih]

/-- Each value of a list of fields was computed from the value of one of its fields. -/
theorem source_of_mapM_fields {κ : Type} {f : α → Except ε β} {l : List (κ × α)}
    {rs : List (κ × β)} (h : (l.mapM fun e => do return (e.1, ← f e.2)) = .ok rs) {r : κ × β}
    (hr : r ∈ rs) : ∃ e ∈ l, f e.2 = .ok r.2 := by
  obtain ⟨e, he, hf⟩ := source_of_mapM h hr
  obtain ⟨b, hb, hf⟩ := bind_eq_ok.1 hf
  obtain rfl := Except.ok.inj hf
  exact ⟨e, he, hb⟩

theorem mapM_congr {f g : α → Except ε β} {l : List α} (h : ∀ a ∈ l, f a = g a) :
    l.mapM f = l.mapM g := by
  induction l with
  | nil => rfl
  | cons a rest ih =>
    rw [List.mapM_cons, List.mapM_cons, h a List.mem_cons_self,
      ih fun x hx => h x (List.mem_cons_of_mem _ hx)]

theorem error_of_mapM {f : α → Except ε β} {l : List α} {e : ε} (h : l.mapM f = .error e) :
    ∃ a ∈ l, f a = .error e := by
  induction l with
  | nil => cases h
  | cons a rest ih =>
    rw [List.mapM_cons] at h
    rcases bind_eq_error.1 h with h | ⟨b, hb, h⟩
    · exact ⟨a, List.mem_cons_self, h⟩
    · rcases bind_eq_error.1 h with h | ⟨bs, hbs, h⟩
      · obtain ⟨a', ha', hf⟩ := ih h
        exact ⟨a', List.mem_cons_of_mem _ ha', hf⟩
      · cases h

theorem exists_mapM {f : α → Except ε β} {l : List α} (h : ∀ a ∈ l, ∃ b, f a = .ok b) :
    ∃ bs, l.mapM f = .ok bs := by
  cases hl : l.mapM f with
  | ok bs => exact ⟨bs, rfl⟩
  | error e =>
    obtain ⟨a, ha, herror⟩ := error_of_mapM hl
    obtain ⟨b, hok⟩ := h a ha
    rw [hok] at herror
    cases herror

/-- A list of computations succeeds exactly if each of them does. -/
theorem exists_mapM_iff {f : α → Except ε β} {l : List α} :
    (∃ bs, l.mapM f = .ok bs) ↔ ∀ a ∈ l, ∃ b, f a = .ok b := by
  refine ⟨?_, exists_mapM⟩
  rintro ⟨bs, hbs⟩ a ha
  obtain ⟨b, -, hb⟩ := ok_of_mapM hbs ha
  exact ⟨b, hb⟩

/-- A list of computations fails with the error of the first one that fails. -/
theorem mapM_eq_error_iff {f : α → Except ε β} {l : List α} {e : ε} :
    l.mapM f = .error e ↔ ∃ before a after, l = before ++ a :: after ∧
      (∀ x ∈ before, ∃ b, f x = .ok b) ∧ f a = .error e := by
  constructor
  · intro h
    induction l with
    | nil => cases h
    | cons a rest ih =>
      rw [List.mapM_cons] at h
      rcases bind_eq_error.1 h with h | ⟨b, hb, h⟩
      · exact ⟨[], a, rest, rfl, nofun, h⟩
      · rcases bind_eq_error.1 h with h | ⟨bs, -, h⟩
        · obtain ⟨before, a', after, rfl, hbefore, ha'⟩ := ih h
          exact ⟨a :: before, a', after, rfl, List.forall_mem_cons.2 ⟨⟨b, hb⟩, hbefore⟩, ha'⟩
        · cases h
  · rintro ⟨before, a, after, rfl, hbefore, ha⟩
    obtain ⟨bs, hbs⟩ := exists_mapM hbefore
    rw [List.mapM_append, hbs, List.mapM_cons, ha]
    rfl

/-- Computations that agree along two lists give the same for both. -/
theorem mapM_of_forall₂ {R : α → β → Prop} {f : α → Except ε α'} {g : β → Except ε α'}
    {l : List α} {l' : List β} (h : List.Forall₂ R l l') (hR : ∀ a b, R a b → f a = g b) :
    l.mapM f = l'.mapM g := by
  induction h with
  | nil => rfl
  | cons hab _ ih => rw [List.mapM_cons, List.mapM_cons, hR _ _ hab, ih]

/-- What is computed from the results of a list of computations may be computed from the list. -/
theorem mapM_of_mapM {δ : Type} {f : α → Except ε β} {g : β → Except δ α'} {h : α → Except δ α'}
    {l : List α} {rs : List β} (hrs : l.mapM f = .ok rs)
    (heq : ∀ a ∈ l, ∀ b, f a = .ok b → g b = h a) : rs.mapM g = l.mapM h := by
  induction l generalizing rs with
  | nil =>
    cases hrs
    rfl
  | cons a rest ih =>
    rw [List.mapM_cons] at hrs
    obtain ⟨b, hb, hrs⟩ := bind_eq_ok.1 hrs
    obtain ⟨bs, hbs, hrs⟩ := bind_eq_ok.1 hrs
    cases hrs
    rw [List.mapM_cons, List.mapM_cons, heq a List.mem_cons_self b hb,
      ih hbs fun x hx => heq x (List.mem_cons_of_mem _ hx)]

/-! ### The same failures -/

/-- Two computations fail in the same cases and with the same error. -/
def FailAlike (x : Except ε α) (y : Except ε β) : Prop := ∀ e, x = .error e ↔ y = .error e

theorem FailAlike.refl (x : Except ε α) : FailAlike x x := fun _ => Iff.rfl

theorem FailAlike.error (e : ε) : FailAlike (.error e : Except ε α) (.error e : Except ε β) := by
  intro e'
  constructor <;>
  · rintro ⟨⟩
    rfl

theorem FailAlike.bind {x : Except ε α} {y : Except ε β} {f : α → Except ε α'}
    {g : β → Except ε β'} (h : FailAlike x y) (hnext : ∀ a b, FailAlike (f a) (g b)) :
    FailAlike (x >>= f) (y >>= g) := by
  cases x with
  | error e =>
    rw [(h e).1 rfl]
    exact .error e
  | ok a =>
    cases y with
    | error e => exact absurd ((h e).2 rfl) nofun
    | ok b => exact hnext a b

/-- What is done with a result at the end cannot fail. -/
theorem FailAlike.map {x : Except ε α} {y : Except ε β} (h : FailAlike x y) (f : α → α')
    (g : β → β') : FailAlike (x >>= fun a => pure (f a)) (y >>= fun b => pure (g b)) :=
  h.bind fun _ _ _ => ⟨nofun, nofun⟩

theorem FailAlike.map_right {x : Except ε α} {y : Except ε β} (h : FailAlike x y) (f : α → α') :
    FailAlike (x >>= fun a => pure (f a)) y := by
  have hmap := h.map f id
  simpa using hmap

end Provisioning
