/-
Declared values are equal to themselves.

Equality of values looks up the fields of one object in the other, so a value is only equal to
itself if none of its objects has a name twice.  Such a value is called sound.  What is
declared is sound: literals are text and numbers, and the objects that are put together from
stored parts have each name once.  So reading a declared resource gives sound fields, if the
outputs it comes to are sound.

Apart from that, equality can be relied on: what equals a value equals what that value equals.
-/
import Provisioning.Proofs.Declare.References

namespace Provisioning

/-! ### Equality -/

theorem Number.same_trans {a b c : Number} (h : a.same b = true) (h' : b.same c = true) :
    a.same c = true := by
  cases a <;> cases b <;> cases c <;> simp only [Number.same, Bool.or_eq_true, Bool.and_eq_true,
    decide_eq_true_eq, Bool.false_eq_true] at h h' ⊢
  · exact h.trans h'
  · rcases h with rfl | h
    · exact h'
    · rcases h' with rfl | h'
      · exact .inr h
      · exact .inr ⟨h.1, h'.2⟩

namespace Json

/-- What equals a field on the left is a field on the right. -/
theorem exists_of_sameFields {xs ys : Properties} (h : sameFields xs ys = true) {k : String}
    {x : Json} (hx : (k, x) ∈ xs) : ∃ y, ys.get? k = some y ∧ x.same y = true := by
  induction xs with
  | nil => cases hx
  | cons e rest ih =>
    rw [sameFields, Bool.and_eq_true] at h
    rcases List.mem_cons.1 hx with rfl | hx
    · cases hget : ys.get? k with
      | none => rw [hget] at h; cases h.1
      | some y => rw [hget] at h; exact ⟨y, rfl, h.1⟩
    · exact ih h.2 hx

mutual

/-- What equals a value equals what that value equals. -/
theorem same_trans : (a b c : Json) → a.same b = true → b.same c = true → a.same c = true
  | .null, b, c, h, h' => by
    cases b <;> simp only [same, Bool.false_eq_true] at h
    exact h'
  | .bool a, b, c, h, h' => by
    cases b <;> simp only [same, Bool.false_eq_true, decide_eq_true_eq] at h
    rw [h]
    exact h'
  | .str a, b, c, h, h' => by
    cases b <;> simp only [same, Bool.false_eq_true, decide_eq_true_eq] at h
    rw [h]
    exact h'
  | .num a, b, c, h, h' => by
    cases b <;> simp only [same, Bool.false_eq_true] at h
    cases c <;> simp only [same, Bool.false_eq_true] at h' ⊢
    exact Number.same_trans h h'
  | .arr xs, b, c, h, h' => by
    cases b <;> simp only [same, Bool.false_eq_true] at h
    cases c <;> simp only [same, Bool.false_eq_true] at h' ⊢
    exact sameItems_trans xs _ _ h h'
  | .obj xs, b, c, h, h' => by
    cases b <;> simp only [same, Bool.false_eq_true, Bool.and_eq_true, decide_eq_true_eq] at h
    cases c <;> simp only [same, Bool.false_eq_true, Bool.and_eq_true, decide_eq_true_eq] at h' ⊢
    exact ⟨h.1.trans h'.1, sameFields_trans xs _ _ h.2 h'.2⟩

theorem sameItems_trans : (xs ys zs : List Json) → sameItems xs ys = true →
    sameItems ys zs = true → sameItems xs zs = true
  | [], ys, zs, h, h' => by
    cases ys <;> simp only [sameItems, Bool.false_eq_true] at h
    exact h'
  | x :: xs, ys, zs, h, h' => by
    cases ys <;> simp only [sameItems, Bool.false_eq_true, Bool.and_eq_true] at h
    cases zs <;> simp only [sameItems, Bool.false_eq_true, Bool.and_eq_true] at h' ⊢
    exact ⟨same_trans x _ _ h.1 h'.1, sameItems_trans xs _ _ h.2 h'.2⟩

theorem sameFields_trans : (xs ys zs : Properties) → sameFields xs ys = true →
    sameFields ys zs = true → sameFields xs zs = true
  | [], _, _, _, _ => by rw [sameFields]
  | (k, x) :: xs, ys, zs, h, h' => by
    obtain ⟨y, hy, hxy⟩ := exists_of_sameFields h List.mem_cons_self
    obtain ⟨z, hz, hyz⟩ := exists_of_sameFields h' (Entries.mem_of_get? hy)
    rw [sameFields, Bool.and_eq_true] at h
    rw [sameFields, hz, Bool.and_eq_true]
    exact ⟨same_trans x y z hxy hyz, sameFields_trans xs ys zs h.2 h'⟩

end

end Json

/-! ### Sound values -/

namespace Json

/-- A value that is equal to itself. -/
def Sound (v : Json) : Prop := v.same v = true

theorem sameItems_self {items : List Json} (h : ∀ v ∈ items, v.Sound) :
    sameItems items items = true := by
  induction items with
  | nil => rfl
  | cons v rest ih =>
    have hhead : v.same v = true := h v List.mem_cons_self
    rw [sameItems, hhead, ih fun x hx => h x (List.mem_cons_of_mem _ hx)]
    rfl

theorem sound_arr {items : List Json} (h : ∀ v ∈ items, v.Sound) : (arr items).Sound := by
  unfold Sound
  rw [same]
  exact sameItems_self h

theorem sameFields_of_get? {fields others : Properties}
    (h : ∀ e ∈ fields, others.get? e.1 = some e.2 ∧ e.2.Sound) :
    sameFields fields others = true := by
  induction fields with
  | nil => rw [sameFields]
  | cons e rest ih =>
    obtain ⟨hget, hsound⟩ := h e List.mem_cons_self
    have hself : e.2.same e.2 = true := hsound
    rw [sameFields, hget, ih fun x hx => h x (List.mem_cons_of_mem _ hx)]
    simp [hself]

theorem sound_obj {fields : Properties} (hnodup : fields.keys.Nodup)
    (h : ∀ e ∈ fields, e.2.Sound) : (obj fields).Sound := by
  unfold Sound
  rw [same, sameFields_of_get? fun e he => ⟨Entries.get?_of_mem hnodup he, h e he⟩]
  simp

theorem sound_null : null.Sound := by
  unfold Sound
  rw [same]

theorem sound_str (s : String) : (str s).Sound := by
  unfold Sound
  rw [same]
  simp

theorem sound_num (n : Number) : (num n).Sound := by
  unfold Sound
  rw [same]
  cases n <;> simp [Number.same]

end Json

/-! ### Sound expressions -/

namespace Expr

mutual

/-- All literals of an expression are sound. -/
def Sound : Expr → Prop
  | .literal v => v.Sound
  | .array items => SoundItems items
  | .hash fields => SoundFields fields
  | .resource _ _ _ properties => SoundFields properties
  | .output _ => True

/-- All literals of items are sound. -/
def SoundItems : List Expr → Prop
  | [] => True
  | e :: es => Sound e ∧ SoundItems es

/-- All literals of fields are sound. -/
def SoundFields : List (String × Expr) → Prop
  | [] => True
  | (_, e) :: es => Sound e ∧ SoundFields es

end

theorem soundItems_iff {items : List Expr} : SoundItems items ↔ ∀ e ∈ items, e.Sound := by
  induction items with
  | nil => simp [SoundItems]
  | cons e rest ih => simp [SoundItems, ih]

theorem soundFields_iff {fields : List (String × Expr)} :
    SoundFields fields ↔ ∀ e ∈ fields, e.2.Sound := by
  induction fields with
  | nil => simp [SoundFields]
  | cons e rest ih => simp [SoundFields, ih]

theorem Sound.part {e part : Expr} {path : List String} (hsound : e.Sound)
    (h : e.Part path part) : part.Sound := by
  induction h with
  | whole e => exact hsound
  | item hitem _ ih => exact ih (soundItems_iff.1 hsound _ (List.mem_of_getElem? hitem))
  | field hfield _ ih => exact ih (soundFields_iff.1 hsound _ hfield)
  | property hfield _ ih => exact ih (soundFields_iff.1 hsound _ hfield)

end Expr

namespace Rom

/-- The literals that are stored for a sound expression are sound. -/
theorem sound_of_flatten {e : Expr} (hsound : e.Sound) {address a : String} {v : Json}
    (h : (a, .literal v) ∈ flatten address e) : v.Sound := by
  obtain ⟨path, part, hpart, -, hwhole⟩ := part_of_mem_flatten e h
  obtain rfl := eq_literal_of_whole hwhole
  exact hsound.part hpart

/-- All stored literals are sound. -/
def Sound (rom : Rom) : Prop := ∀ a v, rom.entries.get? a = some (.literal v) → v.Sound

end Rom

/-! ### Sound declarations -/

namespace Declaration

/-- All literals of the declared resources are sound. -/
def Sound (d : Declaration) : Prop :=
  ∀ name r, d.get? name = some r → Expr.SoundFields r.properties

variable {d : Declaration}

theorem Sound.carries (hd : d.Sound) : d.Carries Expr.Sound where
  text := Json.sound_str
  number := Json.sound_num
  array := Expr.soundItems_iff.2
  hash := Expr.soundFields_iff.2
  resource := hd _ _
  output _ := trivial

theorem SelfContained.sound (h : d.SelfContained) : d.Sound := by
  intro name r hr
  obtain ⟨-, -, -, hsound⟩ := h.before (P := fun _ => Expr.Sound)
    (fun _ _ hd => Sound.carries fun name r hr => Expr.soundFields_iff.2 (hd name r hr))
    (fun _ _ _ _ hsound => hsound) hr
  exact Expr.soundFields_iff.2 hsound

end Declaration

theorem Plan.sound_rom {plan : Plan} {rom : Rom} (h : plan.rom = .ok rom)
    (hsound : plan.declaration.Sound) : rom.Sound := by
  intro a v hget
  have hmem := Table.get?_eq_some_iff.1 hget
  rw [rom_eq h] at hmem
  obtain ⟨⟨name, r⟩, hr, hflat⟩ := List.mem_flatMap.1 hmem
  exact Rom.sound_of_flatten (e := r.toExpr) (hsound name r (Table.get?_eq_some_iff.2 hr))
    (Entries.mem_of_mem_ofList hflat)

/-! ### Sound results -/

namespace Rom

variable {output : OutputRef → Except Fault Json}

/-- What a hash is read as has the names of the hash, and the values of its parts. -/
theorem parts_of_mapM {references : Table String} {read : String → Except Fault Json}
    {fields : Properties}
    (h : (references.entries.mapM fun e => do return (e.1, ← read e.2)) = .ok fields) :
    fields.keys = references.keys ∧
      ∀ e ∈ fields, ∃ b ∈ references.values, read b = .ok e.2 := by
  refine ⟨names_of_mapM_fields h, fun e he => ?_⟩
  obtain ⟨x, hx, hread⟩ := source_of_mapM_fields h he
  exact ⟨x.2, List.mem_map.2 ⟨x, hx, rfl⟩, hread⟩

/-- Reading gives a sound value if the outputs it comes to are sound. -/
theorem sound_of_resolveWithin {rom : Rom} (hrom : rom.Sound) {steps : Nat} {a : String}
    {v : Json} (houtput : ∀ o x, rom.Holds a o → output o = .ok x → x.Sound)
    (h : rom.resolveWithin output steps a = .ok v) : v.Sound := by
  induction steps generalizing a v with
  | zero => cases h
  | succ steps ih =>
    obtain ⟨entry, hget, -⟩ := bind_eq_ok.1 h
    have hstored : rom.entries.get? a = some entry := by
      unfold get at hget
      split at hget
      · next hsome => rw [hsome, Except.ok.inj hget]
      · cases hget
    have hpart : ∀ b ∈ entry.references, ∀ x, rom.resolveWithin output steps b = .ok x →
        x.Sound := by
      intro b hb x hx
      exact ih (fun o x hholds ho => houtput o x (hholds.head ⟨entry, hstored, hb⟩) ho) hx
    rw [resolveWithin_of_get hget] at h
    cases entry with
    | literal w =>
      obtain rfl := Except.ok.inj h
      exact hrom a w hstored
    | array references =>
      obtain ⟨items, hitems, h⟩ := bind_eq_ok.1 h
      obtain rfl := Except.ok.inj h
      refine Json.sound_arr fun x hx => ?_
      obtain ⟨b, hb, hread⟩ := source_of_mapM hitems hx
      exact hpart b hb x hread
    | hash references =>
      obtain ⟨fields, hfields, h⟩ := bind_eq_ok.1 h
      obtain rfl := Except.ok.inj h
      obtain ⟨hkeys, hparts⟩ := parts_of_mapM hfields
      refine Json.sound_obj (hkeys ▸ references.nodup) fun e he => ?_
      obtain ⟨b, hb, hread⟩ := hparts e he
      exact hpart b hb e.2 hread
    | output o => exact houtput o v ⟨a, .refl, hstored⟩ h

/-- A hash is read part by part. -/
theorem parts_of_resolve {rom : Rom} {a : String} {references : Table String}
    (ha : rom.entries.get? a = some (.hash references)) {fields : Properties}
    (h : rom.resolve output a = .ok (.obj fields)) :
    fields.keys = references.keys ∧ ∀ e ∈ fields, ∃ b ∈ references.values, ∃ steps,
      rom.resolveWithin output steps b = .ok e.2 := by
  have hget : rom.get a = .ok (.hash references) := by
    unfold get
    rw [ha]
  unfold resolve at h
  rw [resolveWithin_of_get hget] at h
  obtain ⟨fields', hfields, h⟩ := bind_eq_ok.1 h
  obtain rfl := Json.obj.inj (Except.ok.inj h)
  obtain ⟨hkeys, hparts⟩ := parts_of_mapM hfields
  refine ⟨hkeys, fun e he => ?_⟩
  obtain ⟨b, hb, hread⟩ := hparts e he
  exact ⟨b, hb, _, hread⟩

/-- The fields that a declared resource is read as are sound, if the outputs are. -/
theorem sound_of_resolve {rom : Rom} (hrom : rom.Sound) {a : String} {references : Table String}
    (ha : rom.entries.get? a = some (.hash references)) {fields : Properties}
    (houtput : ∀ o x, rom.Holds a o → output o = .ok x → x.Sound)
    (h : rom.resolve output a = .ok (.obj fields)) : ∀ e ∈ fields, e.2.Sound := by
  intro e he
  obtain ⟨b, hb, steps, hread⟩ := (parts_of_resolve ha h).2 e he
  refine sound_of_resolveWithin hrom ?_ hread
  intro o x hholds
  exact houtput o x (hholds.head ⟨_, ha, hb⟩)

end Rom

/-- A declared resource is read as the fields that it binds. -/
theorem Plan.keys_of_resolve {plan : Plan} {rom : Rom} (h : plan.rom = .ok rom) {r : Resource}
    (hr : plan.declaration.get? r.name = some r) {output : OutputRef → Except Fault Json}
    {fields : Properties} (hresolve : rom.resolve output r.name = .ok (.obj fields)) :
    fields.keys.Nodup ∧ ∀ f, f ∈ fields.keys ↔ f ∈ r.properties.keys := by
  obtain ⟨hkeys, -⟩ := Rom.parts_of_resolve (get?_rom h hr) hresolve
  refine ⟨hkeys ▸ Table.nodup _, fun f => ?_⟩
  rw [hkeys]
  refine Entries.mem_keys_ofList.trans ?_
  rw [List.map_map]
  rfl

end Provisioning
