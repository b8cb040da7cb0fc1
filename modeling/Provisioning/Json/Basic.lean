/-
JSON values.

Field values, remote ids and the scratch of a run are JSON.  A number is either an
integer or a double, and the two never compare equal: `1` and `1.0` are different values
here.  Objects keep the order of their keys for printing, while two objects are the same
value when they bind the same names to the same values in any order.

So there are two equalities.  `=` tells apart everything that is printed differently;
`Json.same` is equality of values: blind to the order of keys and to the sign of a zero.
-/
import Provisioning.Table

namespace Provisioning

/-- A JSON number. -/
inductive Number where
  | int (value : Int)
  | float (word : UInt64)
deriving DecidableEq

/-- A JSON value; an object lists its fields in the order in which they were written. -/
inductive Json where
  | null
  | bool (b : Bool)
  | num (n : Number)
  | str (s : String)
  | arr (items : List Json)
  | obj (fields : List (String × Json))

/-- Field names with their values, in order. -/
abbrev Properties := Entries Json

instance : Inhabited Json := ⟨.null⟩

/-! ### Identity of written form -/

mutual

/-- Decides equality of values, item by item. -/
protected def Json.decEq : (a b : Json) → Decidable (a = b)
  | .null, b => match b with
    | .null => isTrue rfl
    | .bool _ | .num _ | .str _ | .arr _ | .obj _ => isFalse nofun
  | .bool x, b => match b with
    | .bool y => if h : x = y then isTrue (by rw [h]) else isFalse (fun e => h (Json.bool.inj e))
    | .null | .num _ | .str _ | .arr _ | .obj _ => isFalse nofun
  | .num x, b => match b with
    | .num y => if h : x = y then isTrue (by rw [h]) else isFalse (fun e => h (Json.num.inj e))
    | .null | .bool _ | .str _ | .arr _ | .obj _ => isFalse nofun
  | .str x, b => match b with
    | .str y => if h : x = y then isTrue (by rw [h]) else isFalse (fun e => h (Json.str.inj e))
    | .null | .bool _ | .num _ | .arr _ | .obj _ => isFalse nofun
  | .arr xs, b => match b with
    | .arr ys => match Json.decEqItems xs ys with
      | isTrue h => isTrue (by rw [h])
      | isFalse h => isFalse (fun e => h (Json.arr.inj e))
    | .null | .bool _ | .num _ | .str _ | .obj _ => isFalse nofun
  | .obj xs, b => match b with
    | .obj ys => match Json.decEqFields xs ys with
      | isTrue h => isTrue (by rw [h])
      | isFalse h => isFalse (fun e => h (Json.obj.inj e))
    | .null | .bool _ | .num _ | .str _ | .arr _ => isFalse nofun

/-- Decides equality of lists of values. -/
protected def Json.decEqItems : (xs ys : List Json) → Decidable (xs = ys)
  | [], [] => isTrue rfl
  | [], _ :: _ => isFalse nofun
  | _ :: _, [] => isFalse nofun
  | x :: xs, y :: ys => match Json.decEq x y, Json.decEqItems xs ys with
    | isTrue h, isTrue h' => isTrue (by rw [h, h'])
    | isFalse h, _ => isFalse (fun e => h (List.cons.inj e).1)
    | _, isFalse h => isFalse (fun e => h (List.cons.inj e).2)

/-- Decides equality of lists of fields. -/
protected def Json.decEqFields : (xs ys : List (String × Json)) → Decidable (xs = ys)
  | [], [] => isTrue rfl
  | [], _ :: _ => isFalse nofun
  | _ :: _, [] => isFalse nofun
  | (k, x) :: xs, (l, y) :: ys =>
    if hk : k = l then
      match Json.decEq x y, Json.decEqFields xs ys with
      | isTrue h, isTrue h' => isTrue (by rw [hk, h, h'])
      | isFalse h, _ => isFalse (fun e => h (Prod.mk.inj (List.cons.inj e).1).2)
      | _, isFalse h => isFalse (fun e => h (List.cons.inj e).2)
    else isFalse (fun e => hk (Prod.mk.inj (List.cons.inj e).1).1)

end

instance : DecidableEq Json := Json.decEq

/-! ### Equality of values -/

/-- Equality of numbers: integers by value, doubles as numbers (so both zeros are one),
an integer never equal to a double. -/
def Number.same : Number → Number → Bool
  | .int a, .int b => a = b
  | .float a, .float b => a = b || ((a <<< 1) = 0 && (b <<< 1) = 0)
  | _, _ => false

namespace Json

mutual

/-- Equality of values: objects as sets of fields, numbers by `Number.same`. -/
def same : Json → Json → Bool
  | .null, .null => true
  | .bool a, .bool b => a = b
  | .num a, .num b => a.same b
  | .str a, .str b => a = b
  | .arr xs, .arr ys => sameItems xs ys
  | .obj xs, .obj ys => xs.length = ys.length && sameFields xs ys
  | _, _ => false

/-- Item by item equality. -/
def sameItems : List Json → List Json → Bool
  | [], [] => true
  | x :: xs, y :: ys => same x y && sameItems xs ys
  | _, _ => false

/-- Whether every field on the left has an equal field on the right. -/
def sameFields : List (String × Json) → List (String × Json) → Bool
  | [], _ => true
  | (k, x) :: xs, ys =>
    (match Entries.get? ys k with
      | some y => same x y
      | none => false) && sameFields xs ys

end

/-! ### Looking inside -/

/-- The text of a string. -/
def asStr? : Json → Option String
  | .str s => some s
  | _ => none

/-- The items of an array. -/
def asArr? : Json → Option (List Json)
  | .arr items => some items
  | _ => none

/-- The fields of an object. -/
def asObj? : Json → Option Properties
  | .obj fields => some fields
  | _ => none

/-- A truth value. -/
def asBool? : Json → Option Bool
  | .bool b => some b
  | _ => none

/-- Whether this is the value `null`. -/
def isNull : Json → Bool
  | .null => true
  | _ => false

/-- A field of an object. -/
def field? : Json → String → Option Json
  | .obj fields, k => Entries.get? fields k
  | _, _ => none

/-- A field of an object, `null` when it is absent. -/
def fieldOrNull (j : Json) (k : String) : Json := (j.field? k).getD .null

/-- A whole number. -/
def int (i : Int) : Json := .num (.int i)

/-- A count. -/
def nat (n : Nat) : Json := .num (.int n)

/-- A list of strings. -/
def strs (ss : List String) : Json := .arr (ss.map .str)

mutual

/-- The value in which every object has each name once: at its first place, with its last
value. -/
def merged : Json → Json
  | .arr items => .arr (mergedItems items)
  | .obj fields => .obj (Entries.ofList (mergedFields fields))
  | j => j

/-- Merges the objects in a list of values. -/
def mergedItems : List Json → List Json
  | [] => []
  | x :: xs => merged x :: mergedItems xs

/-- Merges the objects in the values of fields. -/
def mergedFields : List (String × Json) → List (String × Json)
  | [] => []
  | (k, x) :: xs => (k, merged x) :: mergedFields xs

end

end Json

/-- A whole number that fits a signed 64 bit word. -/
def Number.asInt64? : Number → Option Int
  | .int i => if -0x8000000000000000 ≤ i ∧ i < 0x8000000000000000 then some i else none
  | .float _ => none

/-- A whole number that fits an unsigned 64 bit word. -/
def Number.asIndex? : Number → Option Nat
  | .int i => if 0 ≤ i ∧ i.toNat < UInt64.size then some i.toNat else none
  | .float _ => none

end Provisioning
