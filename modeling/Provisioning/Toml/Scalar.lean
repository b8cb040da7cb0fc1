/-
Numbers, truth values and times of TOML.

A scalar without quotes is one word.  Numbers may have underscores between their digits;
whole numbers may be written to the bases 16, 8 and 2.  A number with a fraction or an
exponent is the nearest double, and a literal beyond the largest double is refused.

As JSON, infinities and the undefined number are `null`, and a date or time is its text
under a name of its own.
-/
import Provisioning.Json.Parser

namespace Provisioning

namespace Toml

/-- Digits of a base with single underscores between them. -/
def digits? (base : Nat) : List Char → Option (List Nat)
  | [] => none
  | [c] => (Numeral.digit? base c).map fun d => [d]
  | c :: '_' :: rest => do
    let d ← Numeral.digit? base c
    return d :: (← digits? base rest)
  | c :: rest => do
    let d ← Numeral.digit? base c
    return d :: (← digits? base rest)

/-- Decimal digits without a superfluous leading zero. -/
def whole? (cs : List Char) : Option (List Nat) := do
  match ← digits? 10 cs with
  | 0 :: _ :: _ => none
  | ds => some ds

/-- A sign, and the rest. -/
def signed : List Char → Bool × List Char
  | '-' :: rest => (true, rest)
  | '+' :: rest => (false, rest)
  | cs => (false, cs)

/-- A whole number that fits 64 bits, with or without a sign. -/
def integer? (word : List Char) : Option Json := do
  let fit (i : Int) : Option Json :=
    if -0x8000000000000000 ≤ i ∧ i < 0x10000000000000000 then some (.int i) else none
  let based (base : Nat) (cs : List Char) : Option Json := do
    fit (Numeral.natOf base (← digits? base cs))
  match word with
  | '0' :: 'x' :: cs => based 16 cs
  | '0' :: 'o' :: cs => based 8 cs
  | '0' :: 'b' :: cs => based 2 cs
  | _ =>
    let (negative, cs) := signed word
    let n := Numeral.natOf 10 (← whole? cs)
    fit (if negative then -(n : Int) else n)

/-- The nearest double to `digits · 10^exponent`; none if it is too large. -/
def nearest? (digits : Nat) (exponent : Int) : Option Nat :=
  let size := (Binary64.digitCount digits : Int) + exponent
  if digits = 0 ∨ size < -400 then some 0
  else if 400 < size then none
  else
    let word :=
      if 0 ≤ exponent then Binary64.ofRatio (digits * Nat.pow 10 exponent.toNat) 1
      else Binary64.ofRatio digits (Nat.pow 10 (-exponent).toNat)
    if word = Binary64.infinity then none else some word

/-- A number with a fraction or an exponent, or one of the special ones. -/
def float? (word : List Char) : Option Json := do
  let (negative, cs) := signed word
  if cs = ['i', 'n', 'f'] ∨ cs = ['n', 'a', 'n'] then return .null
  let isExponent (c : Char) : Bool := c = 'e' || c = 'E'
  let mantissa := cs.takeWhile fun c => !isExponent c
  let exponent ← match cs.dropWhile fun c => !isExponent c with
    | [] => some (0 : Int)
    | _ :: rest => do
      let (down, ds) := signed rest
      let n := Numeral.natOf 10 (← digits? 10 ds)
      some (if down then -(n : Int) else n)
  let front := mantissa.takeWhile (· ≠ '.')
  let fraction ← match mantissa.dropWhile (· ≠ '.') with
    | [] => some []
    | _ :: rest => digits? 10 rest
  if fraction.isEmpty ∧ !cs.any isExponent then none
  else
    let ds := (← whole? front) ++ fraction
    let magnitude ← nearest? (Numeral.natOf 10 ds) (exponent - (fraction.length : Int))
    return .num (Numeral.signed negative magnitude)

/-! ### Dates and times -/

/-- A number of exactly `count` decimal digits. -/
def decimal? (count : Nat) (text : List Char) : Option (Nat × List Char) :=
  Numeral.fixed? 10 count 0 text

/-- Days of a month. -/
def monthDays (year month : Nat) : Nat :=
  if month = 2 then
    if year % 4 = 0 ∧ (year % 100 ≠ 0 ∨ year % 400 = 0) then 29 else 28
  else if month = 4 ∨ month = 6 ∨ month = 9 ∨ month = 11 then 30
  else 31

/-- A number in decimal, filled up with zeros. -/
def padded (width n : Nat) : String :=
  let ds := Nat.toDigits 10 n
  String.ofList (List.replicate (width - ds.length) '0' ++ ds)

/-- A date at the front of a word, and its text. -/
def date? (cs : List Char) : Option (String × List Char) := do
  let (year, cs) ← decimal? 4 cs
  let cs ← Json.drop? ['-'] cs
  let (month, cs) ← decimal? 2 cs
  let cs ← Json.drop? ['-'] cs
  let (day, cs) ← decimal? 2 cs
  if 1 ≤ month ∧ month ≤ 12 ∧ 1 ≤ day ∧ day ≤ monthDays year month then
    some (padded 4 year ++ "-" ++ padded 2 month ++ "-" ++ padded 2 day, cs)
  else none

/-- The fraction of a second, in at most nine digits and without trailing zeros. -/
def fractionText (ds : List Char) : String :=
  let shown := ((ds.take 9).reverse.dropWhile (· = '0')).reverse
  if shown.isEmpty then "" else "." ++ String.ofList shown

/-- A time at the front of a word, and its text; the seconds may be left out. -/
def time? (cs : List Char) : Option (String × List Char) := do
  let (hour, cs) ← decimal? 2 cs
  let cs ← Json.drop? [':'] cs
  let (minute, cs) ← decimal? 2 cs
  if 23 < hour ∨ 59 < minute then none
  else
    let start := padded 2 hour ++ ":" ++ padded 2 minute
    match cs with
    | ':' :: rest => do
      let (second, rest) ← decimal? 2 rest
      if 60 < second then none
      else
        let start := start ++ ":" ++ padded 2 second
        match rest with
        | '.' :: rest =>
          let ds := rest.takeWhile Char.isDigit
          if ds.isEmpty then none else some (start ++ fractionText ds, rest.dropWhile Char.isDigit)
        | _ => some (start, rest)
    | _ => some (start, cs)

/-- The distance to universal time at the end of a word, and its text. -/
def offset? : List Char → Option String
  | [] => some ""
  | [c] => if c = 'Z' ∨ c = 'z' then some "Z" else none
  | sign :: cs => do
    let (hour, cs) ← decimal? 2 cs
    let cs ← Json.drop? [':'] cs
    let (minute, cs) ← decimal? 2 cs
    if (sign = '+' ∨ sign = '-') ∧ hour ≤ 23 ∧ minute ≤ 59 ∧ cs = [] then
      some (String.ofList [sign] ++ padded 2 hour ++ ":" ++ padded 2 minute)
    else none

/-- The text of a date, a time, or both. -/
def moment? (word : List Char) : Option String :=
  match date? word with
  | some (date, []) => some date
  | some (date, t :: cs) => do
    if t = 'T' ∨ t = 't' ∨ t = ' ' then
      let (time, cs) ← time? cs
      let offset ← offset? cs
      some (date ++ "T" ++ time ++ offset)
    else none
  | none => match time? word with
    | some (time, []) => some time
    | _ => none

/-- The name under which the text of a date or time stands. -/
def momentKey : String := "$__toml_private_datetime"

/-- The value of a word. -/
def scalar? (word : List Char) : Option Json :=
  if word = ['t', 'r', 'u', 'e'] then some (.bool true)
  else if word = ['f', 'a', 'l', 's', 'e'] then some (.bool false)
  else
    match integer? word with
    | some j => some j
    | none => match float? word with
      | some j => some j
      | none => (moment? word).map fun text => .obj [(momentKey, .str text)]

/-- Characters of a word. -/
def isWord (c : Char) : Bool :=
  c.isAlphanum || c = '+' || c = '-' || c = '.' || c = '_' || c = ':'

/-- A word at the front of the text.  A date and a time may have a blank between them. -/
def word? (text : List Char) : Option (List Char × List Char) :=
  let word := text.takeWhile isWord
  let rest := text.dropWhile isWord
  match word with
  | [] => none
  | _ =>
    match date? word, rest with
    | some (_, []), ' ' :: c :: after =>
      if c.isDigit then
        some (word ++ ' ' :: (c :: after).takeWhile isWord, (c :: after).dropWhile isWord)
      else some (word, rest)
    | _, _ => some (word, rest)

end Toml

end Provisioning
