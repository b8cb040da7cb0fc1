/-
Induction on trees.

JSON, what an author writes and what comes of it are trees whose inner nodes keep their parts
in lists.  What is proved about such a tree by mutual recursion takes one more statement for
each kind of list, and these say nothing new.  So there is one rule for each of the three, in
which something holds of a node if it holds of each member of its list.

Resolving goes through the lists one by one, and does to a list what it does to its members.
-/
import Provisioning.Declare.Expr
import Provisioning.Proofs.Fallible

namespace Provisioning

/-- The value of a field is smaller than the fields. -/
theorem sizeOf_snd_lt {α : Type} [SizeOf α] {fields : List (String × α)} {e : String × α}
    (h : e ∈ fields) : sizeOf e.2 < sizeOf fields := by
  have hsmaller := List.sizeOf_lt_of_mem h
  obtain ⟨k, x⟩ := e
  simp only [Prod.mk.sizeOf_spec] at hsmaller ⊢
  omega

/-! ### JSON -/

namespace Json

/-- What holds of a value if it holds of its items and fields holds of every value. -/
theorem induct {P : Json → Prop} (null : P .null) (bool : ∀ b, P (.bool b)) (num : ∀ n, P (.num n))
    (str : ∀ s, P (.str s)) (arr : ∀ items, (∀ v ∈ items, P v) → P (.arr items))
    (obj : ∀ fields, (∀ e ∈ fields, P e.2) → P (.obj fields)) (v : Json) : P v := by
  cases v with
  | null => exact null
  | bool b => exact bool b
  | num n => exact num n
  | str s => exact str s
  | arr items =>
    refine arr items fun v hv => ?_
    have hsmaller := List.sizeOf_lt_of_mem hv
    exact induct null bool num str arr obj v
  | obj fields =>
    refine obj fields fun e he => ?_
    have hsmaller := sizeOf_snd_lt he
    exact induct null bool num str arr obj e.2
termination_by sizeOf v
decreasing_by all_goals simp_all; omega

theorem resolveItems_eq_mapM (items : List Json) :
    resolveItems items = items.mapM resolve :=
  eq_mapM resolve resolveItems rfl (fun _ _ => rfl) items

theorem resolveFields_eq_mapM (fields : Properties) :
    resolveFields fields = fields.mapM fun e => do return (e.1, ← resolve e.2) :=
  eq_mapM_fields resolve resolveFields rfl (fun _ _ _ => rfl) fields

end Json

/-! ### Raw values -/

namespace Raw

/-- What holds of a raw value if it holds of its items and fields holds of every raw value. -/
theorem induct {P : Raw → Prop} (json : ∀ v, P (.json v))
    (list : ∀ items, (∀ raw ∈ items, P raw) → P (.list items))
    (map : ∀ fields, (∀ e ∈ fields, P e.2) → P (.map fields)) (resource : ∀ r, P (.resource r))
    (output : ∀ o, P (.output o)) (raw : Raw) : P raw := by
  cases raw with
  | json v => exact json v
  | resource r => exact resource r
  | output o => exact output o
  | list items =>
    refine list items fun raw hraw => ?_
    have hsmaller := List.sizeOf_lt_of_mem hraw
    exact induct json list map resource output raw
  | map fields =>
    refine map fields fun e he => ?_
    have hsmaller := sizeOf_snd_lt he
    exact induct json list map resource output e.2
termination_by sizeOf raw
decreasing_by all_goals simp_all; omega

theorem resolveItems_eq_mapM (items : List Raw) : resolveItems items = items.mapM resolve :=
  eq_mapM resolve resolveItems rfl (fun _ _ => rfl) items

theorem resolveFields_eq_mapM (fields : List (String × Raw)) :
    resolveFields fields = fields.mapM fun e => do return (e.1, ← resolve e.2) :=
  eq_mapM_fields resolve resolveFields rfl (fun _ _ _ => rfl) fields

end Raw

/-! ### Expressions -/

/-- What holds of an expression if it holds of its items and fields, those of whole resources
included, holds of every expression. -/
theorem Expr.induct {P : Expr → Prop} (literal : ∀ v, P (.literal v))
    (array : ∀ items, (∀ e ∈ items, P e) → P (.array items))
    (hash : ∀ fields, (∀ e ∈ fields, P e.2) → P (.hash fields))
    (resource : ∀ name typeId schema properties, (∀ e ∈ properties, P e.2) →
      P (.resource name typeId schema properties))
    (output : ∀ o, P (.output o)) (e : Expr) : P e := by
  cases e with
  | literal v => exact literal v
  | output o => exact output o
  | array items =>
    refine array items fun e he => ?_
    have hsmaller := List.sizeOf_lt_of_mem he
    exact induct literal array hash resource output e
  | hash fields =>
    refine hash fields fun e he => ?_
    have hsmaller := sizeOf_snd_lt he
    exact induct literal array hash resource output e.2
  | resource name typeId schema properties =>
    refine resource name typeId schema properties fun e he => ?_
    have hsmaller := sizeOf_snd_lt he
    exact induct literal array hash resource output e.2
termination_by sizeOf e
decreasing_by all_goals simp_all; omega

end Provisioning
