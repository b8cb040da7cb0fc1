/-
Reading JSON text.

The reader takes exactly the standard grammar and refuses anything after the value.
Containers nest at most 127 deep.  Within a container the reading is bounded by the
length of the text, since every item takes at least one character.

Names that an object repeats are kept as they stand, so that who decodes a record can
refuse them; `Json.ofText?` merges them, the last value winning.
-/
import Provisioning.Json.Numeral

namespace Provisioning

namespace Json

/-- The text without leading blanks. -/
def skipBlank : List Char → List Char
  | [] => []
  | c :: rest =>
    if c = ' ' ∨ c = '\n' ∨ c = '\t' ∨ c = '\r' then skipBlank rest else c :: rest

/-- The character of a one-letter escape. -/
def escaped? (c : Char) : Option Char :=
  if c = '"' then some '"'
  else if c = '\\' then some '\\'
  else if c = '/' then some '/'
  else if c = 'b' then some (Char.ofNat 8)
  else if c = 'f' then some (Char.ofNat 12)
  else if c = 'n' then some '\n'
  else if c = 'r' then some '\r'
  else if c = 't' then some '\t'
  else none

/-- The character after `\u`: four digits, or two such groups for a character beyond the
first 65536.  A surrogate on its own is refused. -/
def unicode? (text : List Char) : Option (Char × List Char) := do
  let (high, rest) ← Numeral.fixed? 16 4 0 text
  if 0xD800 ≤ high ∧ high ≤ 0xDBFF then
    match rest with
    | '\\' :: 'u' :: rest => do
      let (low, rest) ← Numeral.fixed? 16 4 0 rest
      if 0xDC00 ≤ low ∧ low ≤ 0xDFFF then
        some (Char.ofNat (0x10000 + (high - 0xD800) * 0x400 + (low - 0xDC00)), rest)
      else none
    | _ => none
  else if 0xDC00 ≤ high ∧ high ≤ 0xDFFF then none
  else some (Char.ofNat high, rest)

/-- The rest of a string after its opening quote; `bound` limits the characters read. -/
def string? : Nat → List Char → Option (List Char × List Char)
  | 0, _ => none
  | _ + 1, [] => none
  | bound + 1, c :: rest =>
    if c = '"' then some ([], rest)
    else if c = '\\' then
      match rest with
      | [] => none
      | e :: after => do
        let (c, after) ← if e = 'u' then unicode? after else (escaped? e).map (·, after)
        let (cs, after) ← string? bound after
        return (c :: cs, after)
    else if c.toNat < 32 then none
    else do
      let (cs, after) ← string? bound rest
      return (c :: cs, after)

/-- Drops `word` from the front of the text. -/
def drop? : (word text : List Char) → Option (List Char)
  | [], text => some text
  | _ :: _, [] => none
  | c :: word, d :: text => if c = d then drop? word text else none

mutual

/-- A value at the front of the text; `room` more containers may be entered. -/
def value? : (bound room : Nat) → List Char → Option (Json × List Char)
  | 0, _, _ => none
  | bound + 1, room, text =>
    match skipBlank text with
    | [] => none
    | c :: rest =>
      if c = '[' then
        match room with
        | 0 => none
        | room + 1 =>
          match skipBlank rest with
          | ']' :: after => some (.arr [], after)
          | inner => do
            let (items, after) ← items? bound room inner
            return (.arr items, after)
      else if c = '\x7b' then
        match room with
        | 0 => none
        | room + 1 =>
          match skipBlank rest with
          | '\x7d' :: after => some (.obj [], after)
          | inner => do
            let (fields, after) ← fields? bound room inner
            return (.obj fields, after)
      else if c = '"' then do
        let (s, after) ← string? (rest.length + 1) rest
        return (.str (String.ofList s), after)
      else if c = 'n' then (drop? ['u', 'l', 'l'] rest).map (Json.null, ·)
      else if c = 't' then (drop? ['r', 'u', 'e'] rest).map (Json.bool true, ·)
      else if c = 'f' then (drop? ['a', 'l', 's', 'e'] rest).map (Json.bool false, ·)
      else do
        let (parts, after) ← Numeral.split? (c :: rest)
        let n ← parts.value?
        return (.num n, after)

/-- The items of an array up to its closing bracket. -/
def items? : (bound room : Nat) → List Char → Option (List Json × List Char)
  | 0, _, _ => none
  | bound + 1, room, text => do
    let (x, after) ← value? bound room text
    match skipBlank after with
    | ',' :: rest => do
      let (xs, after) ← items? bound room rest
      return (x :: xs, after)
    | ']' :: rest => some ([x], rest)
    | _ => none

/-- The fields of an object up to its closing brace. -/
def fields? : (bound room : Nat) → List Char → Option (List (String × Json) × List Char)
  | 0, _, _ => none
  | bound + 1, room, text =>
    match skipBlank text with
    | '"' :: rest => do
      let (name, after) ← string? (rest.length + 1) rest
      match skipBlank after with
      | ':' :: rest => do
        let (x, after) ← value? bound room rest
        let e := (String.ofList name, x)
        match skipBlank after with
        | ',' :: rest => do
          let (es, after) ← fields? bound room rest
          return (e :: es, after)
        | '\x7d' :: rest => some ([e], rest)
        | _ => none
      | _ => none
    | _ => none

end

/-- How deep containers may nest. -/
def nestingLimit : Nat := 127

/-- The value a text spells, with repeated names as they stand. -/
def ofTextRaw? (s : String) : Option Json := do
  let cs := s.toList
  let (j, rest) ← value? (cs.length + 1) nestingLimit cs
  match skipBlank rest with
  | [] => some j
  | _ => none

/-- The value a text spells, each name of an object once. -/
def ofText? (s : String) : Option Json := (ofTextRaw? s).map merged

end Json

end Provisioning
