/-
Reading typed data out of JSON.

A record is given either as an object, in which unknown names are passed over and no
known name may occur twice, or as a list of its fields in order, from which only fields
with a default may be missing, at the end, and which may not be longer than the record.
A field that is present has to have the right type; `null` never stands for a default.
-/
import Provisioning.Json.Basic

namespace Provisioning

/-- A record as it is written: by name or by position. -/
inductive Record where
  | named (fields : Properties)
  | listed (items : List Json)

namespace Json

/-- The record a value may stand for. -/
def record? : Json → Option Record
  | .obj fields => some (.named fields)
  | .arr items => some (.listed items)
  | _ => none

/-- A list whose items all decode. -/
def listOf? {α : Type} (decode : Json → Option α) : Json → Option (List α)
  | .arr items => items.mapM decode
  | _ => none

/-- A list of strings. -/
def strings? : Json → Option (List String) := listOf? asStr?

/-- A table whose values all decode; only an object is a table. -/
def tableOf? {α : Type} (decode : Json → Option α) : Json → Option (Table α)
  | .obj fields => (fields.mapM fun e => (decode e.2).map (e.1, ·)).map Table.ofList
  | _ => none

/-- A count or position: a whole number from 0 up to 2^64 - 1. -/
def index? : Json → Option Nat
  | .num n => n.asIndex?
  | _ => none

end Json

namespace Record

/-- Reads the field at position `i` named `name`; `absent` answers for a missing one. -/
def read? {α : Type} (r : Record) (i : Nat) (name : String) (absent : Option α)
    (decode : Json → Option α) : Option α :=
  match r with
  | .named fields =>
    match fields.filter (fun e => e.1 = name) with
    | [] => absent
    | [e] => decode e.2
    | _ => none
  | .listed items =>
    match items[i]? with
    | none => absent
    | some v => decode v

/-- A field that has to be there. -/
def required? {α : Type} (r : Record) (i : Nat) (name : String)
    (decode : Json → Option α) : Option α :=
  r.read? i name none decode

/-- A field with a default. -/
def optional? {α : Type} (r : Record) (i : Nat) (name : String) (absent : α)
    (decode : Json → Option α) : Option α :=
  r.read? i name (some absent) decode

/-- Whether the record has no more than `n` fields by position. -/
def fits (r : Record) (n : Nat) : Bool :=
  match r with
  | .named _ => true
  | .listed items => items.length ≤ n

end Record

/-- Decodes a record of `n` fields. -/
def Json.decodeRecord? {α : Type} (j : Json) (n : Nat) (decode : Record → Option α) : Option α := do
  let r ← j.record?
  if r.fits n then decode r else none

end Provisioning
