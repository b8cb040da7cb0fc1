/-
What a plan file means.

A value of a plan file goes through two recursions.  The first one expands the objects that
stand for references, and the second one resolves what comes out.  Between the two an object may
have turned into a reference, or into a map, or is still part of a piece of JSON, so they meet
an object in different forms.  Together they do what resolving alone would do, had each object
that stands for a reference been replaced by what it stands for.

Which objects these are is decided by one key and one text.  Such an object has to name what is
declared already, or nothing comes out; so a resource of the file waits only for resources that
stand before it, and the order of the file is an order in which the resources can be handled.
-/
import Provisioning.PlanFile
import Provisioning.Proofs.Declare.References
import Provisioning.Proofs.Levels
import Provisioning.Proofs.Plan.Compilation
import Provisioning.Proofs.Plan.Order

namespace Provisioning

/-! ### The parts of JSON -/

namespace Json

/-- The value stands in another one, at any depth. -/
inductive Inside (w : Json) : Json → Prop
  | whole : Inside w w
  | item {v : Json} {items : List Json} : v ∈ items → Inside w v → Inside w (.arr items)
  | field {e : String × Json} {fields : Properties} :
    e ∈ fields → Inside w e.2 → Inside w (.obj fields)

/-- It holds of the value and of all values in it. -/
def Everywhere (P : Json → Prop) (v : Json) : Prop := ∀ w, Inside w v → P w

section

variable {P : Json → Prop}

theorem everywhere_arr {items : List Json} :
    Everywhere P (.arr items) ↔ P (.arr items) ∧ ∀ v ∈ items, v.Everywhere P := by
  constructor
  · exact fun h => ⟨h _ .whole, fun v hv w hw => h w (.item hv hw)⟩
  · rintro ⟨hwhole, hitems⟩ w hw
    cases hw with
    | whole => exact hwhole
    | item hv hw => exact hitems _ hv w hw

theorem everywhere_obj {fields : Properties} :
    Everywhere P (.obj fields) ↔ P (.obj fields) ∧ ∀ e ∈ fields, e.2.Everywhere P := by
  constructor
  · exact fun h => ⟨h _ .whole, fun e he w hw => h w (.field he hw)⟩
  · rintro ⟨hwhole, hfields⟩ w hw
    cases hw with
    | whole => exact hwhole
    | field he hw => exact hfields _ he w hw

theorem everywhere_null : Everywhere P .null ↔ P .null :=
  ⟨fun h => h _ .whole, fun h _ hw => by cases hw; exact h⟩

theorem everywhere_bool {b : Bool} : Everywhere P (.bool b) ↔ P (.bool b) :=
  ⟨fun h => h _ .whole, fun h _ hw => by cases hw; exact h⟩

theorem everywhere_num {n : Number} : Everywhere P (.num n) ↔ P (.num n) :=
  ⟨fun h => h _ .whole, fun h _ hw => by cases hw; exact h⟩

theorem everywhere_str {s : String} : Everywhere P (.str s) ↔ P (.str s) :=
  ⟨fun h => h _ .whole, fun h _ hw => by cases hw; exact h⟩

end

/-- A truth value or `null`. -/
def Refused (v : Json) : Prop := v = .null ∨ ∃ b, v = .bool b

/-! ### Resolving with replacements -/

mutual

/-- JSON as an expression, where some objects are replaced by expressions. -/
def resolveWith (replace : Properties → Option Expr) : Json → Except PlanError Expr
  | .str s => .ok (.literal (.str s))
  | .num n => .ok (.literal (.num n))
  | .arr items => do return .array (← resolveItemsWith replace items)
  | .obj fields =>
    match replace fields with
    | some e => .ok e
    | none => do return .hash (← resolveFieldsWith replace fields)
  | .null => .error (.invalidValue "null")
  | .bool b => .error (.invalidValue (Json.bool b).text)

/-- Items as expressions, where some objects are replaced. -/
def resolveItemsWith (replace : Properties → Option Expr) :
    List Json → Except PlanError (List Expr)
  | [] => .ok []
  | x :: xs => do
    let e ← resolveWith replace x
    return e :: (← resolveItemsWith replace xs)

/-- Fields as expressions, where some objects are replaced. -/
def resolveFieldsWith (replace : Properties → Option Expr) :
    List (String × Json) → Except PlanError (List (String × Expr))
  | [] => .ok []
  | (k, x) :: xs => do
    let e ← resolveWith replace x
    return (k, e) :: (← resolveFieldsWith replace xs)

end

variable {replace : Properties → Option Expr}

theorem resolveItemsWith_eq_mapM (items : List Json) :
    resolveItemsWith replace items = items.mapM (resolveWith replace) :=
  eq_mapM (resolveWith replace) (resolveItemsWith replace) rfl (fun _ _ => rfl) items

theorem resolveFieldsWith_eq_mapM (fields : Properties) :
    resolveFieldsWith replace fields =
      fields.mapM fun e => do return (e.1, ← resolveWith replace e.2) :=
  eq_mapM_fields (resolveWith replace) (resolveFieldsWith replace) rfl (fun _ _ _ => rfl) fields

/-- Where nothing is replaced, it is resolving. -/
theorem resolveWith_eq_resolve {v : Json}
    (h : v.Everywhere fun w => ∀ fields, w = .obj fields → replace fields = none) :
    v.resolveWith replace = v.resolve := by
  induction v using induct with
  | null | bool _ | num _ | str _ => rfl
  | arr items ih =>
    obtain ⟨-, hitems⟩ := everywhere_arr.1 h
    rw [resolveWith, resolve, resolveItemsWith_eq_mapM, resolveItems_eq_mapM,
      mapM_congr fun v hv => ih v hv (hitems v hv)]
  | obj fields ih =>
    obtain ⟨hnone, hfields⟩ := everywhere_obj.1 h
    have hsame : ∀ e ∈ fields, (do return (e.1, ← resolveWith replace e.2) : Except PlanError _) =
        (do return (e.1, ← resolve e.2)) := by
      intro e he
      rw [ih e he (hfields e he)]
    rw [resolveWith, hnone fields rfl, resolve, resolveFieldsWith_eq_mapM, resolveFields_eq_mapM]
    simp only [mapM_congr hsame]

/-- Resolving succeeds exactly if no value is refused, provided that none is in what is replaced. -/
theorem exists_resolveWith_iff {v : Json}
    (h : ∀ fields e, replace fields = some e → Everywhere (¬ Refused ·) (.obj fields)) :
    (∃ e, v.resolveWith replace = .ok e) ↔ v.Everywhere (¬ Refused ·) := by
  induction v using induct with
  | null => simp [everywhere_null, resolveWith, Refused]
  | bool b => simp [everywhere_bool, resolveWith, Refused]
  | num n => simp [everywhere_num, resolveWith, Refused]
  | str s => simp [everywhere_str, resolveWith, Refused]
  | arr items ih =>
    rw [everywhere_arr, and_iff_right (by simp [Refused]), resolveWith, exists_return_iff,
      resolveItemsWith_eq_mapM, exists_mapM_iff]
    exact forall₂_congr ih
  | obj fields ih =>
    rw [resolveWith]
    cases hreplace : replace fields with
    | some e => exact ⟨fun _ => h fields e hreplace, fun _ => ⟨e, rfl⟩⟩
    | none =>
      simp only
      rw [everywhere_obj, and_iff_right (by simp [Refused]), exists_return_iff,
        resolveFieldsWith_eq_mapM, exists_mapM_iff]
      exact forall₂_congr fun e he => exists_return_iff.trans (ih e he)

end Json

namespace PlanFile

/-! ### What objects stand for -/

/-- The object is meant as a reference: its only key marks one, and a text is under it. -/
def IsReference (fields : Properties) : Prop :=
  ∃ key target, fields = [(key, .str target)] ∧ key ∈ ["$ref", "$output", "$remote_id"]

/-- What an object stands for that refers to a declared resource. -/
inductive StandsFor (declared : Table Resource) (fields : Properties) : Expr → Prop
  /-- The whole resource. -/
  | whole {name : String} {r : Resource} : fields = [("$ref", .str name)] →
    declared.get? name = some r → StandsFor declared fields r.toExpr
  /-- One of its outputs: resource and field stand before and behind the first dot. -/
  | output {name field : String} {r : Resource} :
    fields = [("$output", .str (name ++ "." ++ field))] → '.' ∉ name.toList →
    declared.get? name = some r → field ∈ r.schema.outputs →
    StandsFor declared fields (.output ⟨r.name, field⟩)
  /-- Its identifier. -/
  | identifier {name : String} {r : Resource} : fields = [("$remote_id", .str name)] →
    declared.get? name = some r → StandsFor declared fields (.output r.remoteId)

/-- What an object is replaced by. -/
def replacement (declared : Table Resource) : Properties → Option Expr
  | [("$ref", .str name)] => (declared.get? name).map Resource.toExpr
  | [("$output", .str target)] => do
    let (name, field) ← splitDot target.toList
    let r ← declared.get? (String.ofList name)
    if String.ofList field ∈ r.schema.outputs then
      some (.output ⟨r.name, String.ofList field⟩)
    else none
  | [("$remote_id", .str name)] =>
    (declared.get? name).map fun r => .output r.remoteId
  | _ => none

theorem splitDot_eq_some {cs name field : List Char} :
    splitDot cs = some (name, field) ↔ cs = name ++ '.' :: field ∧ '.' ∉ name := by
  induction cs generalizing name with
  | nil => simp [splitDot]
  | cons c rest ih =>
    by_cases hc : c = '.'
    · subst hc
      rw [splitDot]
      cases name with
      | nil => simp [eq_comm]
      | cons d name =>
        constructor
        · intro h
          simp at h
        · rintro ⟨heq, hname⟩
          obtain ⟨rfl, -⟩ := List.cons.inj heq
          simp at hname
    · rw [splitDot.eq_3 _ _ hc, Option.map_eq_some_iff]
      constructor
      · rintro ⟨⟨name', field'⟩, hsplit, heq⟩
        obtain ⟨rfl, rfl⟩ := Prod.mk.inj heq
        obtain ⟨rfl, hname⟩ := ih.1 hsplit
        exact ⟨rfl, by simp [hname, Ne.symm hc]⟩
      · rintro ⟨heq, hname⟩
        cases name with
        | nil => exact absurd (List.cons.inj heq).1 hc
        | cons d name =>
          obtain ⟨rfl, rfl⟩ := List.cons.inj heq
          exact ⟨(name, field), ih.2 ⟨rfl, fun h => hname (List.mem_cons_of_mem _ h)⟩, rfl⟩

variable {declared : Table Resource}

/-- A text is split at its first dot. -/
theorem splitDot_toList {target : String} {name field : List Char} :
    splitDot target.toList = some (name, field) ↔
      target = String.ofList name ++ "." ++ String.ofList field ∧ '.' ∉ name := by
  rw [splitDot_eq_some]
  refine and_congr_left fun _ => ?_
  rw [← String.toList_inj]
  simp

theorem splitDot_append {name field : List Char} (h : '.' ∉ name) :
    splitDot (name ++ '.' :: field) = some (name, field) :=
  splitDot_eq_some.2 ⟨rfl, h⟩

theorem replacement_eq_some_iff {fields : Properties} {e : Expr} :
    replacement declared fields = some e ↔ StandsFor declared fields e := by
  constructor
  · intro h
    unfold replacement at h
    split at h
    · obtain ⟨r, hr, rfl⟩ := Option.map_eq_some_iff.1 h
      exact .whole rfl hr
    · obtain ⟨⟨name, field⟩, hsplit, h⟩ := Option.bind_eq_some_iff.1 h
      obtain ⟨r, hr, h⟩ := Option.bind_eq_some_iff.1 h
      obtain ⟨hfield, h⟩ := Option.ite_none_right_eq_some.1 h
      obtain rfl := Option.some.inj h
      obtain ⟨rfl, hdot⟩ := splitDot_toList.1 hsplit
      exact .output rfl (by simpa using hdot) hr hfield
    · obtain ⟨r, hr, rfl⟩ := Option.map_eq_some_iff.1 h
      exact .identifier rfl hr
    · cases h
  · intro h
    cases h with
    | whole hfields hr => simp [hfields, replacement, hr]
    | output hfields hdot hr hfield =>
      simp [hfields, replacement, splitDot_append hdot, hr, hfield]
    | identifier hfields hr => simp [hfields, replacement, hr]

theorem reference?_eq_none_iff {key target : String} :
    reference? declared key target = none ↔ key ∉ ["$ref", "$output", "$remote_id"] := by
  unfold reference?
  split <;> simp_all

theorem key_of_reference? {key target : String} {r : Except ReferenceError Raw}
    (h : reference? declared key target = some r) :
    key ∈ ["$ref", "$output", "$remote_id"] := by
  by_contra hkey
  rw [reference?_eq_none_iff.2 hkey] at h
  cases h

/-- Only what is meant as a reference stands for something. -/
theorem StandsFor.isReference {fields : Properties} {e : Expr} (h : StandsFor declared fields e) :
    IsReference fields := by
  cases h with
  | whole hfields => exact ⟨_, _, hfields, by simp⟩
  | output hfields => exact ⟨_, _, hfields, by simp⟩
  | identifier hfields => exact ⟨_, _, hfields, by simp⟩

section

variable {key target : String}

theorem reference?_ref {raw : Raw} :
    reference? declared "$ref" target = some (.ok raw) ↔
      ∃ r, declared.get? target = some r ∧ raw = .resource r := by
  cases hr : declared.get? target <;> simp [reference?, hr, Except.map, eq_comm]

theorem reference?_remoteId {raw : Raw} :
    reference? declared "$remote_id" target = some (.ok raw) ↔
      ∃ r, declared.get? target = some r ∧ raw = .output r.remoteId := by
  cases hr : declared.get? target <;> simp [reference?, hr, Except.map, eq_comm]

theorem reference?_output {raw : Raw} :
    reference? declared "$output" target = some (.ok raw) ↔
      ∃ name field r, splitDot target.toList = some (name, field) ∧
        declared.get? (String.ofList name) = some r ∧ String.ofList field ∈ r.schema.outputs ∧
        raw = .output ⟨r.name, String.ofList field⟩ := by
  cases hsplit : splitDot target.toList with
  | none => simp [reference?, hsplit]
  | some parts =>
    obtain ⟨name, field⟩ := parts
    cases hr : declared.get? (String.ofList name) with
    | none => simp [reference?, hsplit, hr, bind, Except.bind]
    | some r =>
      by_cases hfield : String.ofList field ∈ r.schema.outputs <;>
        simp [reference?, hsplit, hr, Resource.output, hfield, bind, Except.bind, pure,
          Except.pure, throw, throwThe, MonadExceptOf.throw, eq_comm]

theorem standsFor_of_reference? {raw : Raw}
    (h : reference? declared key target = some (.ok raw)) :
    ∃ e, StandsFor declared [(key, .str target)] e ∧ raw.resolve = .ok e := by
  have hkey := key_of_reference? h
  simp only [List.mem_cons, List.not_mem_nil, or_false] at hkey
  rcases hkey with rfl | rfl | rfl
  · obtain ⟨r, hr, rfl⟩ := reference?_ref.1 h
    exact ⟨_, .whole rfl hr, rfl⟩
  · obtain ⟨name, field, r, hsplit, hr, hfield, rfl⟩ := reference?_output.1 h
    obtain ⟨rfl, hdot⟩ := splitDot_toList.1 hsplit
    exact ⟨_, .output rfl (by simpa using hdot) hr hfield, rfl⟩
  · obtain ⟨r, hr, rfl⟩ := reference?_remoteId.1 h
    exact ⟨_, .identifier rfl hr, rfl⟩

theorem StandsFor.reference? {e : Expr} (h : StandsFor declared [(key, .str target)] e) :
    ∃ raw, reference? declared key target = some (.ok raw) ∧ raw.resolve = .ok e := by
  cases h with
  | whole hfields hr =>
    cases hfields
    exact ⟨_, reference?_ref.2 ⟨_, hr, rfl⟩, rfl⟩
  | @output name field r hfields hdot hr hfield =>
    cases hfields
    refine ⟨.output ⟨r.name, field⟩, reference?_output.2 ⟨name.toList, field.toList, r, ?_⟩, rfl⟩
    simp [splitDot_append hdot, hr, hfield]
  | identifier hfields hr =>
    cases hfields
    exact ⟨_, reference?_remoteId.2 ⟨_, hr, rfl⟩, rfl⟩

end

/-! ### Expanding -/

theorem expandItems_eq_mapM (items : List Json) :
    expandItems declared items = items.mapM (expand declared) :=
  eq_mapM (expand declared) (expandItems declared) rfl (fun _ _ => rfl) items

theorem expandFields_eq_mapM (fields : Properties) :
    expandFields declared fields = fields.mapM fun e => do return (e.1, ← expand declared e.2) :=
  eq_mapM_fields (expand declared) (expandFields declared) rfl (fun _ _ _ => rfl) fields

/-- An object is a reference, or it is expanded field by field. -/
theorem expand_obj (declared : Table Resource) (fields : Properties) :
    (∃ key target r, fields = [(key, .str target)] ∧ IsReference fields ∧
      reference? declared key target = some r ∧ expand declared (.obj fields) = r) ∨
    ¬ IsReference fields ∧
      expand declared (.obj fields) = do return .map (← expandFields declared fields) := by
  by_cases hsingle : ∃ key target, fields = [(key, .str target)]
  · obtain ⟨key, target, rfl⟩ := hsingle
    cases hr : reference? declared key target with
    | some r =>
      exact .inl ⟨key, target, r, rfl, ⟨key, target, rfl, key_of_reference? hr⟩, hr,
        by simp [expand, hr]⟩
    | none =>
      refine .inr ⟨?_, ?_⟩
      · rintro ⟨key, target, hfields, hkey⟩
        cases hfields
        exact reference?_eq_none_iff.1 hr hkey
      · simp only [expand, hr, expandFields]
        rfl
  · refine .inr ⟨fun ⟨key, target, hfields, _⟩ => hsingle ⟨key, target, hfields⟩, ?_⟩
    rw [expand]
    rintro key target rfl
    exact hsingle ⟨key, target, rfl⟩

/-- If the value is meant as a reference, it is one to a declared resource. -/
def Sound (declared : Table Resource) (v : Json) : Prop :=
  ∀ fields, v = .obj fields → IsReference fields → ∃ e, StandsFor declared fields e

/-- **Expanding succeeds exactly if all references are to declared resources.** -/
theorem exists_expand_iff {v : Json} :
    (∃ raw, expand declared v = .ok raw) ↔ v.Everywhere (Sound declared) := by
  induction v using Json.induct with
  | null => simp [expand, Json.everywhere_null, Sound]
  | bool b => simp [expand, Json.everywhere_bool, Sound]
  | num n => simp [expand, Json.everywhere_num, Sound]
  | str s => simp [expand, Json.everywhere_str, Sound]
  | arr items ih =>
    rw [Json.everywhere_arr, and_iff_right (by simp [Sound]), expand, exists_return_iff,
      expandItems_eq_mapM, exists_mapM_iff]
    exact forall₂_congr ih
  | obj fields ih =>
    rcases expand_obj declared fields with ⟨key, target, r, rfl, href, hr, heq⟩ | ⟨href, heq⟩
    · rw [heq, Json.everywhere_obj]
      constructor
      · rintro ⟨raw, rfl⟩
        obtain ⟨e, he, -⟩ := standsFor_of_reference? hr
        refine ⟨?_, by simp [Json.everywhere_str, Sound]⟩
        rintro fields hfields -
        cases hfields
        exact ⟨e, he⟩
      · rintro ⟨hsound, -⟩
        obtain ⟨e, he⟩ := hsound _ rfl href
        obtain ⟨raw, hraw, -⟩ := he.reference?
        rw [hr] at hraw
        exact ⟨raw, Option.some.inj hraw⟩
    · have hsound : Sound declared (.obj fields) := by
        rintro fields' hfields href'
        cases hfields
        exact absurd href' href
      rw [heq, Json.everywhere_obj, and_iff_right hsound, exists_return_iff,
        expandFields_eq_mapM, exists_mapM_iff]
      exact forall₂_congr fun e he => exists_return_iff.trans (ih e he)

/-- **What was expanded resolves as the value does with its references replaced.** -/
theorem resolve_of_expand {v : Json} {raw : Raw} (h : expand declared v = .ok raw) :
    raw.resolve = v.resolveWith (replacement declared) := by
  induction v using Json.induct generalizing raw with
  | null | bool _ | num _ | str _ =>
    obtain rfl := Except.ok.inj h
    rfl
  | arr items ih =>
    obtain ⟨raws, hraws, h⟩ := bind_eq_ok.1 h
    obtain rfl := Except.ok.inj h
    rw [expandItems_eq_mapM] at hraws
    rw [Raw.resolve, Json.resolveWith, Raw.resolveItems_eq_mapM, Json.resolveItemsWith_eq_mapM,
      mapM_of_mapM hraws fun v hv raw hraw => ih v hv hraw]
  | obj fields ih =>
    -- A reference is replaced on one side as it was made on the other; any other object has
    -- kept its fields.
    rcases expand_obj declared fields with ⟨key, target, r, rfl, href, hr, heq⟩ | ⟨href, heq⟩
    · rw [heq] at h
      subst h
      obtain ⟨e, he, hresolve⟩ := standsFor_of_reference? hr
      rw [hresolve, Json.resolveWith, replacement_eq_some_iff.2 he]
    · have hnone : replacement declared fields = none := by
        rw [Option.eq_none_iff_forall_ne_some]
        intro e he
        exact href (replacement_eq_some_iff.1 he).isReference
      rw [heq] at h
      obtain ⟨raws, hraws, h⟩ := bind_eq_ok.1 h
      obtain rfl := Except.ok.inj h
      have hfield : ∀ e ∈ fields, ∀ f : String × Raw,
          (do return (e.1, ← expand declared e.2) : Except _ _) = .ok f →
          (do return (f.1, ← f.2.resolve) : Except PlanError _) =
            (do return (e.1, ← e.2.resolveWith (replacement declared))) := by
        intro e he f hf
        obtain ⟨raw, hraw, hf⟩ := bind_eq_ok.1 hf
        obtain rfl := Except.ok.inj hf
        rw [ih e he hraw]
      rw [expandFields_eq_mapM] at hraws
      rw [Raw.resolve, Json.resolveWith, hnone, Raw.resolveFields_eq_mapM,
        Json.resolveFieldsWith_eq_mapM]
      simp only [mapM_of_mapM hraws hfield]

/-- Without references the value is resolved as it is. -/
theorem expand_of_plain {v : Json} (h : v.Everywhere fun w => ∀ fields, w = .obj fields →
      ¬ IsReference fields) :
    ∃ raw, expand declared v = .ok raw ∧ raw.resolve = v.resolve := by
  have hsound : v.Everywhere (Sound declared) := fun w hw fields hfields href =>
    absurd href (h w hw fields hfields)
  have hnone : v.Everywhere fun w => ∀ fields, w = .obj fields →
      replacement declared fields = none := by
    intro w hw fields hfields
    rw [Option.eq_none_iff_forall_ne_some]
    intro e he
    exact h w hw fields hfields (replacement_eq_some_iff.1 he).isReference
  obtain ⟨raw, hraw⟩ := exists_expand_iff.2 hsound
  exact ⟨raw, hraw, (resolve_of_expand hraw).trans (Json.resolveWith_eq_resolve hnone)⟩

/-- Expanding and resolving succeed exactly if all references are to declared resources and no
value is refused. -/
theorem exists_expand_resolve_iff {v : Json} :
    (∃ raw e, expand declared v = .ok raw ∧ raw.resolve = .ok e) ↔
      v.Everywhere (Sound declared) ∧ v.Everywhere (¬ Json.Refused ·) := by
  have hinside : ∀ fields e, replacement declared fields = some e →
      Json.Everywhere (¬ Json.Refused ·) (.obj fields) := by
    intro fields e he
    obtain ⟨key, target, rfl, -⟩ := (replacement_eq_some_iff.1 he).isReference
    simp [Json.everywhere_obj, Json.everywhere_str, Json.Refused]
  rw [← Json.exists_resolveWith_iff hinside, ← exists_expand_iff]
  constructor
  · rintro ⟨raw, e, hraw, he⟩
    exact ⟨⟨raw, hraw⟩, e, resolve_of_expand hraw ▸ he⟩
  · rintro ⟨⟨raw, hraw⟩, e, he⟩
    exact ⟨raw, e, hraw, (resolve_of_expand hraw).trans he⟩

end PlanFile

/-! ### The order of the file -/

namespace PlanFile

theorem offers_of_reference? {d : Declaration} {key target : String} {raw : Raw}
    (h : reference? d.resources key target = some (.ok raw)) : d.Offers raw := by
  have hself {name : String} {r : Resource} (hr : d.resources.get? name = some r) :
      d.get? r.name = some r := by
    obtain rfl := Declaration.get?_name hr
    exact hr
  have hkey := key_of_reference? h
  simp only [List.mem_cons, List.not_mem_nil, or_false] at hkey
  rcases hkey with rfl | rfl | rfl
  · obtain ⟨r, hr, rfl⟩ := reference?_ref.1 h
    exact hself hr
  · obtain ⟨name, field, r, -, hr, hfield, rfl⟩ := reference?_output.1 h
    exact ⟨r, hself hr, .inl (by simp [Resource.output, hfield])⟩
  · obtain ⟨r, hr, rfl⟩ := reference?_remoteId.1 h
    exact ⟨r, hself hr, .inr rfl⟩

theorem offers_of_expand {d : Declaration} {v : Json} {raw : Raw}
    (h : expand d.resources v = .ok raw) : d.Offers raw := by
  induction v using Json.induct generalizing raw with
  | null | bool _ | num _ | str _ =>
    obtain rfl := Except.ok.inj h
    trivial
  | arr items ih =>
    obtain ⟨raws, hraws, h⟩ := bind_eq_ok.1 h
    obtain rfl := Except.ok.inj h
    rw [expandItems_eq_mapM] at hraws
    refine Declaration.offersItems_iff.2 fun raw hraw => ?_
    obtain ⟨v, hv, hexpand⟩ := source_of_mapM hraws hraw
    exact ih v hv hexpand
  | obj fields ih =>
    rcases expand_obj d.resources fields with ⟨key, target, r, rfl, -, hr, heq⟩ | ⟨-, heq⟩
    · rw [heq] at h
      subst h
      exact offers_of_reference? hr
    · rw [heq] at h
      obtain ⟨raws, hraws, h⟩ := bind_eq_ok.1 h
      obtain rfl := Except.ok.inj h
      rw [expandFields_eq_mapM] at hraws
      refine Declaration.offersFields_iff.2 fun f hf => ?_
      obtain ⟨e, he, hraw⟩ := source_of_mapM_fields hraws hf
      exact ih e he hraw

theorem offersFields_of_bindings {d : Declaration} {name : String} {fields : Properties}
    {raws : List (String × Raw)} (h : bindings d.resources name fields = .ok raws) :
    d.OffersFields raws := by
  induction fields generalizing raws with
  | nil =>
    obtain rfl := Except.ok.inj h
    trivial
  | cons e rest ih =>
    obtain ⟨field, v⟩ := e
    rw [bindings] at h
    split at h
    · cases h
    · next raw hraw =>
      obtain ⟨raws', hrest, h⟩ := bind_eq_ok.1 h
      obtain rfl := Except.ok.inj h
      exact ⟨offers_of_expand hraw, ih hrest⟩

/-- One more listed resource is added to what is there, and waits for nothing else. -/
theorem declareAll_cons {d d' : Declaration} {e : PlanEntry} {rest : List PlanEntry}
    (h : declareAll d (e :: rest) = .ok d') (hself : d.SelfContained) :
    ∃ mid r, declareAll mid rest = .ok d' ∧ mid.SelfContained ∧
      mid.resources.entries = d.resources.entries ++ [(e.name, r)] ∧
      ∀ n ∈ r.waits, n ∈ d.resources.keys := by
  rw [declareAll] at h
  obtain ⟨fields, hfields, h⟩ := bind_eq_ok.1 h
  have hoffers := offersFields_of_bindings hfields
  split at h
  · cases h
  · next mid r hadd =>
    obtain ⟨-, -, hentries, -⟩ := Declaration.add_eq_ok hadd
    refine ⟨mid, r, h, .add hself hoffers hadd, hentries, fun n hn => ?_⟩
    have hmentioned : n ∈ Expr.mentionsFields r.properties := by
      rw [Resource.waits, mem_distinct, List.mem_filter] at hn
      exact hn.1
    obtain ⟨entry, hentry, hmention⟩ := Expr.mem_mentionsFields.1 hmentioned
    exact hself.closed.carries.of_add hoffers hadd entry hentry n hmention

/-- **Listed resources are declared in their order, and each waits only for earlier ones.** -/
theorem declareAll_eq_ok {d d' : Declaration} {listed : List PlanEntry}
    (h : declareAll d listed = .ok d') (hself : d.SelfContained) :
    d'.resources.keys = d.resources.keys ++ listed.map PlanEntry.name ∧ d.Within d' ∧
    ∀ before e after, listed = before ++ e :: after → ∃ r, d'.get? e.name = some r ∧
      ∀ n ∈ r.waits, n ∈ d.resources.keys ++ before.map PlanEntry.name := by
  -- What is there when a resource is added has the names listed so far, and refers to itself only.
  induction listed generalizing d with
  | nil =>
    obtain rfl := Except.ok.inj h
    exact ⟨by simp, List.prefix_refl _, fun before e after h => by simp at h⟩
  | cons e rest ih =>
    obtain ⟨mid, r, h, hmid, hentries, hwaits⟩ := declareAll_cons h hself
    obtain ⟨hkeys, hkept, hearlier⟩ := ih h hmid
    have hmidkeys : mid.resources.keys = d.resources.keys ++ [e.name] := by
      unfold Table.keys
      rw [hentries]
      exact List.map_append
    have hadded : mid.get? e.name = some r := by
      refine Table.get?_eq_some_iff.2 ?_
      rw [hentries]
      exact List.mem_append_right _ List.mem_cons_self
    refine ⟨by simp [hkeys, hmidkeys], .trans ⟨_, hentries.symm⟩ hkept, ?_⟩
    intro before e' after hsplit
    cases before with
    | nil =>
      obtain ⟨rfl, rfl⟩ := List.cons.inj hsplit
      exact ⟨r, hkept.get? hadded, fun n hn => List.mem_append_left _ (hwaits n hn)⟩
    | cons first before =>
      obtain ⟨rfl, hrest⟩ := List.cons.inj hsplit
      obtain ⟨r', hr', hr'waits⟩ := hearlier before e' after hrest
      refine ⟨r', hr', fun n hn => ?_⟩
      have hn := hr'waits n hn
      rw [hmidkeys] at hn
      simpa using hn

variable {p : PlanFile} {d : Declaration}

theorem keys_of_declare (h : p.declare = .ok d) :
    d.resources.keys = p.resources.map PlanEntry.name :=
  (declareAll_eq_ok h (.empty _)).1

theorem waits_of_declare (h : p.declare = .ok d) {before after : List PlanEntry} {e : PlanEntry}
    (hsplit : p.resources = before ++ e :: after) :
    ∃ r, d.get? e.name = some r ∧ ∀ n ∈ r.waits, n ∈ before.map PlanEntry.name :=
  (declareAll_eq_ok h (.empty _)).2.2 before e after hsplit

/-- **Where nothing is tracked, the resources of a plan file have levels.** -/
theorem exists_levels_of_declare (h : p.declare = .ok d) :
    ∃ levels, (p.plan d Table.empty).levels = .ok levels := by
  have hkeys := keys_of_declare h
  -- The edges of the graph are what the declared resources wait for, and lead to earlier ones.
  have hedge : ∀ e ∈ (p.plan d Table.empty).dependencies.edges.entries, ∀ n ∈ e.2,
      n ∈ d.resources.keys ∧ d.resources.keys.idxOf n < d.resources.keys.idxOf e.1 := by
    rintro ⟨name, deps⟩ he n hn
    have hof : (p.plan d Table.empty).dependencies.of? name = some deps :=
      Table.get?_eq_some_iff.2 he
    rw [Plan.of?_dependencies] at hof
    obtain ⟨r, hr, rfl⟩ : ∃ r, d.resources.get? name = some r ∧ r.waits = deps := by
      simpa [plan] using hof
    have hname := Table.mem_keys_of_get? hr
    have hlisted : name ∈ p.resources.map PlanEntry.name := hkeys ▸ hname
    obtain ⟨entry, hentry, rfl⟩ := List.mem_map.1 hlisted
    obtain ⟨before, after, hsplit⟩ := List.append_of_mem hentry
    obtain ⟨r', hr', hwaits⟩ := waits_of_declare h hsplit
    obtain rfl : r' = r := Option.some.inj (hr'.symm.trans hr)
    have hsplitkeys : d.resources.keys = before.map PlanEntry.name ++
        entry.name :: after.map PlanEntry.name := by simp [hkeys, hsplit]
    have hnodup : (before.map PlanEntry.name ++
        entry.name :: after.map PlanEntry.name).Nodup := hsplitkeys ▸ d.resources.nodup
    have hnot : entry.name ∉ before.map PlanEntry.name := fun hmem =>
      (List.nodup_append.1 hnodup).2.2 _ hmem _ List.mem_cons_self rfl
    have hbefore := hwaits n hn
    rw [hsplitkeys]
    refine ⟨List.mem_append_left _ hbefore, ?_⟩
    rw [List.idxOf_append_of_mem hbefore, List.idxOf_append_of_notMem hnot]
    have hlt := List.idxOf_lt_length_of_mem hbefore
    omega
  refine Dependencies.exists_levels (fun n => d.resources.keys.idxOf n) ?_ ?_
  · intro e he n hn
    exact (p.plan d Table.empty).mem_nodes_dependencies.2 (.inr (hedge e he n hn).1)
  · intro e he n hn _
    exact (hedge e he n hn).2

/-- **A plan file means what it says.**  Expanding and resolving a value is resolving it with its
references replaced.  That succeeds exactly if these are to resources declared before and no value
is refused, and without references it is plain resolving.  So the resources of a file wait only for
those before them, and where nothing is tracked they have levels. -/
theorem expand_faithful :
    (∀ (declared : Table Resource) (v : Json),
      ((∃ raw e, expand declared v = .ok raw ∧ raw.resolve = .ok e) ↔
        v.Everywhere (Sound declared) ∧ v.Everywhere (¬ Json.Refused ·)) ∧
      (∀ raw, expand declared v = .ok raw →
        raw.resolve = v.resolveWith (replacement declared)) ∧
      (∀ fields e, replacement declared fields = some e ↔ StandsFor declared fields e) ∧
      ((v.Everywhere fun w => ∀ fields, w = .obj fields → ¬ IsReference fields) →
        ∃ raw, expand declared v = .ok raw ∧ raw.resolve = v.resolve)) ∧
    ∀ (p : PlanFile) (d : Declaration), p.declare = .ok d →
      (∀ before e after, p.resources = before ++ e :: after → ∃ r, d.get? e.name = some r ∧
        ∀ n ∈ r.waits, n ∈ before.map PlanEntry.name) ∧
      d.resources.keys = p.resources.map PlanEntry.name ∧
      ∃ levels, (p.plan d Table.empty).levels = .ok levels := by
  refine ⟨fun declared v => ⟨exists_expand_resolve_iff, ?_, ?_, expand_of_plain⟩, ?_⟩
  · intro raw hraw
    exact resolve_of_expand hraw
  · intro fields e
    exact replacement_eq_some_iff
  · intro p d h
    exact ⟨fun before e after hsplit => waits_of_declare h hsplit, keys_of_declare h,
      exists_levels_of_declare h⟩

/-- A server, an address that belongs to it, and a file that refers to both. -/
def hostFile : PlanFile where
  createMissing := true
  types := Table.ofList [("server", ⟨[], ["size"], ["created_at"], [], true, true⟩),
    ("ip_address", ⟨["server_id"], [], [], [], true, false⟩),
    ("file", ⟨["contents", "tags"], ["name"], [], [], false, false⟩)]
  resources := [
    ⟨"server", "serv", Table.ofList [("size", .str "B")]⟩,
    ⟨"ip_address", "ip", Table.ofList [("server_id", .obj [("$remote_id", .str "serv")])]⟩,
    ⟨"file", "motd", Table.ofList [("name", .str "motd.txt"),
      ("contents", .obj [("$output", .str "serv.created_at")]),
      ("tags", .arr [.str "a", .obj [("$ref", .str "ip")]])]⟩]

/-- The file is declared, its last resource waits for the others at most, and there are levels.
Beside a reference a text stays a text, and a text alone is resolved as it is. -/
theorem expand_faithful_host :
    (∃ d, hostFile.declare = .ok d ∧
      (∃ r, d.get? "motd" = some r ∧ ∀ n ∈ r.waits, n ∈ ["serv", "ip"]) ∧
      ∃ levels, (hostFile.plan d Table.empty).levels = .ok levels) ∧
    (∃ raw, expand (Table.ofList [("ip", plainResource false "ip")])
        (.arr [.str "a", .obj [("$ref", .str "ip")]]) = .ok raw ∧
      raw.resolve = .ok (.array [.literal (.str "a"), (plainResource false "ip").toExpr])) ∧
    ∃ raw, expand Table.empty (.arr [.str "a"]) = .ok raw ∧
      raw.resolve = .ok (.array [.literal (.str "a")]) := by
  obtain ⟨hvalues, hfiles⟩ := expand_faithful
  refine ⟨?_, ?_, ?_⟩
  · obtain ⟨d, hd⟩ : ∃ d, hostFile.declare = .ok d := by
      have hok : hostFile.declare.toOption.isSome = true := by decide +kernel
      cases hd : hostFile.declare with
      | ok d => exact ⟨d, rfl⟩
      | error e =>
        rw [hd] at hok
        cases hok
    obtain ⟨hearlier, -, hlevels⟩ := hfiles hostFile d hd
    exact ⟨d, hd, hearlier [_, _] _ [] rfl, hlevels⟩
  · have hraw : expand (Table.ofList [("ip", plainResource false "ip")])
        (.arr [.str "a", .obj [("$ref", .str "ip")]]) =
          .ok (.list [.json (.str "a"), .resource (plainResource false "ip")]) := rfl
    exact ⟨_, hraw, (hvalues _ _).2.1 _ hraw⟩
  · refine (hvalues Table.empty (.arr [.str "a"])).2.2.2 ?_
    simp [Json.everywhere_arr, Json.everywhere_str]

end PlanFile

end Provisioning
