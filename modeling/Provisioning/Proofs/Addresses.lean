/-
Which values get an address of their own.

A value of a tree is found by the path of keys and indices that leads to it, and its address
joins the path with dots.  Adding a tree refuses every address that is stored already, so what
was there before is never replaced.

Inside the tree nothing is refused.  The tree is flattened first, and where two of its values
come to the same address the later one stays; adding only looks at what is left.  This happens
when keys have dots in them: `a.b` and `a` with `b` below lead to one address.  Where no key
has a dot and no key stands twice, a path can be read off its address, and each value keeps an
address of its own.
-/
import Provisioning.Proofs.Declare.Trees
import Provisioning.Proofs.Rom

namespace Provisioning

/-! ### The values of a tree -/

namespace Expr

/-- The path leads from an expression to a part of it. -/
inductive Part : Expr → List String → Expr → Prop
  | whole (e : Expr) : Part e [] e
  | item {items : List Expr} {i : Nat} {e part : Expr} {path : List String} :
    items[i]? = some e → Part e path part → Part (.array items) (toString i :: path) part
  | field {fields : List (String × Expr)} {k : String} {e part : Expr} {path : List String} :
    (k, e) ∈ fields → Part e path part → Part (.hash fields) (k :: path) part
  | property {name typeId : String} {schema : Schema} {properties : List (String × Expr)}
    {k : String} {e part : Expr} {path : List String} :
    (k, e) ∈ properties → Part e path part →
      Part (.resource name typeId schema properties) (k :: path) part

/-- The names of the fields that an expression has itself. -/
def fieldNames : Expr → List String
  | .hash fields | .resource _ _ _ fields => fields.map Prod.fst
  | _ => []

/-- At no depth does a field stand twice or have a dot in its name. -/
def Plain (e : Expr) : Prop :=
  ∀ path part, e.Part path part →
    part.fieldNames.Nodup ∧ ∀ k ∈ part.fieldNames, '.' ∉ k.toList

theorem Part.trans {e part deeper : Expr} {path path' : List String} (h : e.Part path part)
    (h' : part.Part path' deeper) : e.Part (path ++ path') deeper := by
  induction h with
  | whole e => exact h'
  | item hitem _ ih => exact .item hitem (ih h')
  | field hfield _ ih => exact .field hfield (ih h')
  | property hfield _ ih => exact .property hfield (ih h')

theorem Plain.part {e part : Expr} {path : List String} (h : e.Plain) (hpart : e.Part path part) :
    part.Plain :=
  fun _ deeper hdeeper => h _ deeper (hpart.trans hdeeper)

end Expr

namespace Rom

/-- The address at the end of a path. -/
def locate (root : String) (path : List String) : String := path.foldl child root

/-- What is stored for an expression at its own address. -/
def whole (address : String) : Expr → Entry
  | .literal v => .literal v
  | .array items => .array (itemAddresses address 0 items)
  | .hash fields | .resource _ _ _ fields => .hash (fieldAddresses address fields)
  | .output o => .output o

variable {address a : String} {x : Entry}

theorem mem_flattenItems {items : List Expr} {i : Nat} :
    (a, x) ∈ flattenItems address i items ↔
      ∃ n e, items[n]? = some e ∧ (a, x) ∈ flatten (child address (toString (i + n))) e := by
  induction items generalizing i with
  | nil => simp [flattenItems]
  | cons e rest ih =>
    rw [flattenItems, List.mem_append, ih]
    constructor
    · rintro (h | ⟨n, e', he', h⟩)
      · exact ⟨0, e, rfl, h⟩
      · refine ⟨n + 1, e', he', ?_⟩
        rwa [show i + (n + 1) = i + 1 + n by omega]
    · rintro ⟨n, e', he', h⟩
      cases n with
      | zero =>
        cases he'
        exact .inl h
      | succ n =>
        refine .inr ⟨n, e', he', ?_⟩
        rwa [show i + 1 + n = i + (n + 1) by omega]

theorem mem_flattenFields {fields : List (String × Expr)} :
    (a, x) ∈ flattenFields address fields ↔
      ∃ k e, (k, e) ∈ fields ∧ (a, x) ∈ flatten (child address k) e := by
  induction fields with
  | nil => simp [flattenFields]
  | cons f rest ih =>
    obtain ⟨k, e⟩ := f
    rw [flattenFields, List.mem_append, ih]
    simp only [List.mem_cons, Prod.mk.injEq]
    constructor
    · rintro (h | ⟨k', e', he', h⟩)
      · exact ⟨k, e, .inl ⟨rfl, rfl⟩, h⟩
      · exact ⟨k', e', .inr he', h⟩
    · rintro ⟨k', e', ⟨rfl, rfl⟩ | he', h⟩
      · exact .inl h
      · exact .inr ⟨k', e', he', h⟩

/-- Every part is stored at its address. -/
theorem mem_flatten_of_part {e part : Expr} {path : List String} (h : e.Part path part)
    (address : String) :
    (locate address path, whole (locate address path) part) ∈ flatten address e := by
  induction h generalizing address with
  | whole e => cases e <;> simp [flatten, whole, locate]
  | @item items i e part path hitem _ ih =>
    refine List.mem_append_left _ (mem_flattenItems.2 ⟨i, e, hitem, ?_⟩)
    rw [Nat.zero_add]
    exact ih (child address (toString i))
  | field hfield _ ih =>
    exact List.mem_append_left _ (mem_flattenFields.2 ⟨_, _, hfield, ih _⟩)
  | property hfield _ ih =>
    exact List.mem_append_left _ (mem_flattenFields.2 ⟨_, _, hfield, ih _⟩)

/-- Nothing but parts is stored. -/
theorem part_of_mem_flatten (e : Expr) {address a : String} {x : Entry}
    (h : (a, x) ∈ flatten address e) :
    ∃ path part, e.Part path part ∧ a = locate address path ∧ x = whole a part := by
  have hself {e : Expr} {address : String} (hx : (a, x) = (address, whole address e)) :
      ∃ path part, e.Part path part ∧ a = locate address path ∧ x = whole a part := by
    cases hx
    exact ⟨[], e, .whole e, rfl, rfl⟩
  induction e using Expr.induct generalizing address with
  | literal v => exact hself (List.mem_singleton.1 h)
  | output o => exact hself (List.mem_singleton.1 h)
  | array items ih =>
    rcases List.mem_append.1 h with h | h
    · obtain ⟨n, item, hitem, h⟩ := mem_flattenItems.1 h
      rw [Nat.zero_add] at h
      obtain ⟨path, part, hpart, ha, hx⟩ := ih item (List.mem_of_getElem? hitem) h
      exact ⟨toString n :: path, part, .item hitem hpart, ha, hx⟩
    · exact hself (List.mem_singleton.1 h)
  | hash fields ih =>
    rcases List.mem_append.1 h with h | h
    · obtain ⟨k, field, hfield, h⟩ := mem_flattenFields.1 h
      obtain ⟨path, part, hpart, ha, hx⟩ := ih _ hfield h
      exact ⟨k :: path, part, .field hfield hpart, ha, hx⟩
    · exact hself (List.mem_singleton.1 h)
  | resource name typeId schema properties ih =>
    rcases List.mem_append.1 h with h | h
    · obtain ⟨k, field, hfield, h⟩ := mem_flattenFields.1 h
      obtain ⟨path, part, hpart, ha, hx⟩ := ih _ hfield h
      exact ⟨k :: path, part, .property hfield hpart, ha, hx⟩
    · exact hself (List.mem_singleton.1 h)

theorem eq_output_of_whole {part : Expr} {o : OutputRef} (h : .output o = whole a part) :
    part = .output o := by
  cases part <;> cases h
  rfl

theorem eq_literal_of_whole {part : Expr} {v : Json} (h : .literal v = whole a part) :
    part = .literal v := by
  cases part <;> cases h
  rfl

/-! ### Paths that can be read off their addresses -/

theorem toList_locate (root : String) (path : List String) :
    (locate root path).toList = root.toList ++ path.flatMap fun k => '.' :: k.toList := by
  induction path generalizing root with
  | nil => simp [locate]
  | cons k rest ih =>
    show (locate (child root k) rest).toList = _
    rw [ih]
    simp [child]

/-- Up to the next dot there is one key. -/
theorem takeWhile_key {k : String} (hk : '.' ∉ k.toList) (rest : List String) :
    (k.toList ++ rest.flatMap fun k => '.' :: k.toList).takeWhile (· ≠ '.') = k.toList := by
  rw [List.takeWhile_append_of_pos fun c hc => by simpa using fun heq : c = '.' => hk (heq ▸ hc)]
  cases rest with
  | nil => simp
  | cons k' rest => simp

theorem joined_injective {path path' : List String} (h : ∀ k ∈ path, '.' ∉ k.toList)
    (h' : ∀ k ∈ path', '.' ∉ k.toList)
    (heq : (path.flatMap fun k => '.' :: k.toList) = path'.flatMap fun k => '.' :: k.toList) :
    path = path' := by
  induction path generalizing path' with
  | nil =>
    cases path' with
    | nil => rfl
    | cons k' rest' => simp at heq
  | cons k rest ih =>
    cases path' with
    | nil => simp at heq
    | cons k' rest' =>
      rw [List.forall_mem_cons] at h h'
      rw [List.flatMap_cons, List.flatMap_cons, List.cons_append, List.cons_append,
        List.cons.injEq] at heq
      have hkey : k.toList = k'.toList := by
        rw [← takeWhile_key h.1 rest, heq.2, takeWhile_key h'.1 rest']
      obtain rfl := String.toList_injective hkey
      rw [ih h.2 h'.2 (List.append_cancel_left heq.2)]

/-- **Where no key has a dot, different paths lead to different addresses.** -/
theorem locate_injective {root : String} {path path' : List String}
    (h : ∀ k ∈ path, '.' ∉ k.toList) (h' : ∀ k ∈ path', '.' ∉ k.toList)
    (heq : locate root path = locate root path') : path = path' := by
  have hlists := congrArg String.toList heq
  rw [toList_locate, toList_locate] at hlists
  exact joined_injective h h' (List.append_cancel_left hlists)

theorem toList_toString (n : Nat) : (toString n).toList = Nat.toDigits 10 n := by
  simp

theorem dot_notMem_toString (n : Nat) : '.' ∉ (toString n).toList := by
  intro h
  rw [toList_toString] at h
  have hdigit : '.'.isDigit = true := Nat.isDigit_of_mem_toDigits (by omega) (by omega) h
  cases hdigit

theorem toString_injective {m n : Nat} (h : toString m = toString n) : m = n := by
  have hdigits := congrArg String.toList h
  rw [toList_toString, toList_toString] at hdigits
  rw [← Nat.ofDigitChars_toDigits (b := 10) (n := m) (by omega) (by omega), hdigits,
    Nat.ofDigitChars_toDigits (by omega) (by omega)]

end Rom

namespace Expr

variable {e part : Expr} {path : List String}

/-- In a plain expression no key on a path has a dot. -/
theorem Part.dotless (h : e.Part path part) (hplain : e.Plain) : ∀ k ∈ path, '.' ∉ k.toList := by
  induction h with
  | whole e => exact nofun
  | @item items i e part path hitem hpart ih =>
    have hrest := ih (hplain.part (.item hitem (.whole e)))
    exact List.forall_mem_cons.2 ⟨Rom.dot_notMem_toString i, hrest⟩
  | @field fields k e part path hfield hpart ih =>
    have hrest := ih (hplain.part (.field hfield (.whole e)))
    have hkey := (hplain [] _ (.whole _)).2 k (List.mem_map.2 ⟨(k, e), hfield, rfl⟩)
    exact List.forall_mem_cons.2 ⟨hkey, hrest⟩
  | @property name typeId schema properties k e part path hfield hpart ih =>
    have hrest := ih (hplain.part (.property hfield (.whole e)))
    have hkey := (hplain [] _ (.whole _)).2 k (List.mem_map.2 ⟨(k, e), hfield, rfl⟩)
    exact List.forall_mem_cons.2 ⟨hkey, hrest⟩

theorem eq_of_mem_fields {fields : List (String × Expr)} (hnodup : (fields.map Prod.fst).Nodup)
    {k : String} {e e' : Expr} (h : (k, e) ∈ fields) (h' : (k, e') ∈ fields) : e = e' :=
  Option.some.inj ((Entries.get?_of_mem hnodup h).symm.trans (Entries.get?_of_mem hnodup h'))

/-- In a plain expression a path leads to one part. -/
theorem Part.unique (h : e.Part path part) (hplain : e.Plain) {part' : Expr}
    (h' : e.Part path part') : part = part' := by
  induction h with
  | whole e =>
    cases h'
    rfl
  | @item items i e part path hitem hpart ih =>
    generalize hkeys : toString i :: path = keys at h'
    cases h' with
    | @item _ i' e' _ _ hitem' h' =>
      obtain ⟨hi, rfl⟩ := List.cons.inj hkeys
      obtain rfl : i = i' := Rom.toString_injective hi
      obtain rfl : e = e' := Option.some.inj (hitem.symm.trans hitem')
      exact ih (hplain.part (.item hitem (.whole e))) h'
    | whole => cases hkeys
  | @field fields k e part path hfield hpart ih =>
    cases h' with
    | @field _ _ e' _ _ hfield' h' =>
      obtain rfl : e = e' := eq_of_mem_fields (hplain [] _ (.whole _)).1 hfield hfield'
      exact ih (hplain.part (.field hfield (.whole e))) h'
  | @property name typeId schema properties k e part path hfield hpart ih =>
    cases h' with
    | @property _ _ _ _ _ e' _ _ hfield' h' =>
      obtain rfl : e = e' := eq_of_mem_fields (hplain [] _ (.whole _)).1 hfield hfield'
      exact ih (hplain.part (.property hfield (.whole e))) h'

end Expr

namespace Rom

/-! ### Adding -/

/-- Different parts of the expression have different addresses under the name. -/
def OwnAddresses (name : String) (e : Expr) : Prop :=
  ∀ path part path' part', e.Part path part → e.Part path' part' →
    locate name path = locate name path' → path = path' ∧ part = part'

/-- Some part of the expression has an address that is stored already. -/
def Contested (rom : Rom) (name : String) (e : Expr) : Prop :=
  ∃ path part, e.Part path part ∧ locate name path ∈ rom.entries.keys

/-- **Plain expressions keep their addresses apart.** -/
theorem ownAddresses_of_plain {e : Expr} (h : e.Plain) (name : String) : OwnAddresses name e := by
  intro path part path' part' hpart hpart' heq
  obtain rfl := locate_injective (hpart.dotless h) (hpart'.dotless h) heq
  exact ⟨rfl, hpart.unique h hpart'⟩

theorem mem_keys_flat_iff {name a : String} {e : Expr} :
    a ∈ (flat name e).keys ↔ ∃ path part, e.Part path part ∧ a = locate name path := by
  unfold flat
  rw [Entries.mem_keys_ofList]
  constructor
  · intro h
    obtain ⟨⟨a, x⟩, hmem, rfl⟩ := List.mem_map.1 h
    obtain ⟨path, part, hpart, ha, -⟩ := part_of_mem_flatten e hmem
    exact ⟨path, part, hpart, ha⟩
  · rintro ⟨path, part, hpart, rfl⟩
    exact List.mem_map.2 ⟨_, mem_flatten_of_part hpart name, rfl⟩

/-- Storing goes through where each address is free and stands once. -/
theorem store_of_free {rom : Rom} {l : List (String × Entry)}
    (hfree : ∀ e ∈ l, e.1 ∉ rom.entries.keys) (hnodup : (l.map Prod.fst).Nodup) :
    (rom.store l).2 = none := by
  induction l generalizing rom with
  | nil => rfl
  | cons e rest ih =>
    obtain ⟨address, entry⟩ := e
    rw [List.forall_mem_cons] at hfree
    rw [List.map_cons, List.nodup_cons] at hnodup
    rw [store, if_neg fun h => hfree.1 (Table.contains_iff.1 h)]
    refine ih (fun e he hmem => ?_) hnodup.2
    rcases Entries.mem_keys_set.1 hmem with hmem | hsame
    · exact hfree.2 e he hmem
    · exact hnodup.1 (List.mem_map.2 ⟨e, he, hsame⟩)

theorem add_cases (rom : Rom) (name : String) (e : Expr) :
    (∃ rom', rom.add name e = (rom', .ok ())) ∨
      ∃ rom' a, rom.add name e = (rom', .error (.addressCollision a)) := by
  unfold add
  split
  · next rom' _ => exact .inl ⟨rom', rfl⟩
  · next rom' a _ => exact .inr ⟨rom', a, rfl⟩

/-- **Adding fails exactly where an address of a part is stored already.** -/
theorem contested_iff {rom : Rom} {name : String} {e : Expr} :
    rom.Contested name e ↔ ∃ a, (rom.add name e).2 = .error (.addressCollision a) := by
  constructor
  · rintro ⟨path, part, hpart, htaken⟩
    rcases add_cases rom name e with ⟨rom', hadd⟩ | ⟨rom', a, hadd⟩
    · -- All that is stored then would stand once, the address twice.
      have hnodup := rom'.entries.nodup
      unfold Entries.keys at hnodup
      rw [add_eq_ok hadd, List.map_append] at hnodup
      have hnew : locate name path ∈ (flat name e).keys :=
        mem_keys_flat_iff.2 ⟨path, part, hpart, rfl⟩
      exact absurd rfl ((List.nodup_append.1 hnodup).2.2 _ htaken _ hnew)
    · exact ⟨a, by rw [hadd]⟩
  · rintro ⟨a, herror⟩
    by_contra hfree
    have hnone : (rom.store (flat name e)).2 = none := by
      refine store_of_free (fun x hx htaken => hfree ?_) (Entries.nodup_ofList _)
      obtain ⟨path, part, hpart, hx⟩ := mem_keys_flat_iff.1 (List.mem_map.2 ⟨x, hx, rfl⟩)
      exact ⟨path, part, hpart, by rwa [← hx]⟩
    unfold add at herror
    split at herror
    · cases herror
    · next hsome =>
      rw [hsome] at hnone
      cases hnone

theorem get?_store {rom : Rom} {l : List (String × Entry)} {a : String} {x : Entry}
    (h : rom.entries.get? a = some x) : (rom.store l).1.entries.get? a = some x := by
  induction l generalizing rom with
  | nil => exact h
  | cons e rest ih =>
    obtain ⟨address, entry⟩ := e
    rw [store]
    split
    · exact h
    · next hfree =>
      have hne : address ≠ a := by
        rintro rfl
        exact hfree (Table.contains_iff.2 (Table.mem_keys_of_get? h))
      refine ih ?_
      show (rom.entries.insert address entry).get? a = some x
      rw [Table.get?_insert, if_neg hne, h]

/-- **What is stored already is never replaced,** also where adding fails halfway. -/
theorem get_add {rom : Rom} {a : String} {x : Entry} (h : rom.get a = .ok x) (name : String)
    (e : Expr) : (rom.add name e).1.get a = .ok x := by
  rw [get_eq_ok_iff, ← Table.get?_eq_some_iff] at h ⊢
  have hkept := get?_store (l := flat name e) h
  unfold add
  split
  · next heq => rwa [heq] at hkept
  · next heq => rwa [heq] at hkept

/-- What adding an expression promises: no address is shared. -/
structure KeepsApart (rom : Rom) (name : String) (e : Expr) : Prop where
  /-- Two parts with one address are refused. -/
  parts : ∀ path part path' part', e.Part path part → e.Part path' part' →
    (path, part) ≠ (path', part') → locate name path = locate name path' →
    ∃ a, (rom.add name e).2 = .error (.addressCollision a)
  /-- A part with an address that is stored already is refused. -/
  stored : ∀ path part, e.Part path part → locate name path ∈ rom.entries.keys →
    ∃ a, (rom.add name e).2 = .error (.addressCollision a)
  /-- After a success each part is stored at its address. -/
  stores : ∀ rom', rom.add name e = (rom', .ok ()) → ∀ path part, e.Part path part →
    rom'.get (locate name path) = .ok (whole (locate name path) part)
  /-- Whether it succeeds or not, all that was stored before stays as it was. -/
  keeps : ∀ a x, rom.get a = .ok x → (rom.add name e).1.get a = .ok x

/-- **No address is shared exactly where an address is stored already, so that adding fails, or
different parts have different addresses.** -/
theorem keepsApart_iff (rom : Rom) (name : String) (e : Expr) :
    rom.KeepsApart name e ↔ rom.Contested name e ∨ OwnAddresses name e := by
  constructor
  · intro h
    by_cases hcontested : rom.Contested name e
    · exact .inl hcontested
    · refine .inr fun path part path' part' hpart hpart' heq => ?_
      by_contra hne
      refine hcontested (contested_iff.2 (h.parts path part path' part' hpart hpart' ?_ heq))
      exact fun hsame => hne (Prod.mk.inj hsame)
  · intro h
    exact {
      parts := fun path part path' part' hpart hpart' hne heq =>
        h.elim contested_iff.1 fun hown =>
          absurd (hown path part path' part' hpart hpart' heq) fun hsame =>
            hne (Prod.ext hsame.1 hsame.2)
      stored := fun path part hpart htaken => contested_iff.1 ⟨path, part, hpart, htaken⟩
      stores := by
        intro rom' hadd path part hpart
        have hown : OwnAddresses name e := by
          refine h.resolve_left fun hcontested => ?_
          obtain ⟨a, herror⟩ := contested_iff.1 hcontested
          rw [hadd] at herror
          cases herror
        rw [get_eq_ok_iff, add_eq_ok hadd]
        obtain ⟨⟨a, x⟩, hx, ha⟩ := List.mem_map.1 (mem_keys_flat_iff.2 ⟨path, part, hpart, rfl⟩)
        obtain ⟨path', part', hpart', ha', rfl⟩ :=
          part_of_mem_flatten e (Entries.mem_of_mem_ofList hx)
        obtain ⟨rfl, rfl⟩ := hown path part path' part' hpart hpart' (ha.symm.trans ha')
        rw [← ha]
        exact List.mem_append_right _ hx
      keeps := fun a x hx => get_add hx name e }

/-- A key with a dot in it leads to the address of a deeper part, and neither of the two is
refused. -/
theorem not_keepsApart_dotted :
    ¬ Rom.empty.KeepsApart "r" (.hash [("a.b", .literal (.str "outer")),
      ("a", .hash [("b", .literal (.str "inner"))])]) := by
  intro h
  obtain ⟨a, herror⟩ := h.parts ["a.b"] (.literal (.str "outer")) ["a", "b"]
    (.literal (.str "inner")) (.field (by simp) (.whole _))
    (.field (List.mem_cons_of_mem _ List.mem_cons_self) (.field List.mem_cons_self (.whole _)))
    (by simp) (by decide)
  cases herror

end Rom

end Provisioning
