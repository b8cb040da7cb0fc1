/-
Numbers as text.

Writing: integers in decimal; doubles with the fewest digits that read back, positionally
when the leading digit stands for 10^-5 up to 10^15 and always with a decimal point, else
with one leading digit and a signed exponent.

Reading: a literal without fraction and exponent that fits a 64 bit word, signed or not,
is an integer, except for minus zero.  Everything else is a double, computed in two
roundings.  The leading digits are gathered while they fit an unsigned 64 bit word, the
others only move the decimal point or are dropped; the gathered integer is rounded to a
double and then multiplied or divided once by a power of ten.  A literal too large for a
double is refused.
-/
import Provisioning.Binary64
import Provisioning.Json.Basic

namespace Provisioning

namespace Numeral

/-! ### Writing -/

/-- The digits of a decimal laid out with a decimal point or an exponent. -/
def layout (digits : List Char) (exponent : Int) : List Char :=
  let count : Int := digits.length
  let leading := count - 1 + exponent
  if -5 ≤ leading ∧ leading < 16 then
    if 0 ≤ exponent then digits ++ List.replicate exponent.toNat '0' ++ ['.', '0']
    else if 0 ≤ leading then
      digits.take (count + exponent).toNat ++ '.' :: digits.drop (count + exponent).toNat
    else '0' :: '.' :: (List.replicate (-leading - 1).toNat '0' ++ digits)
  else
    let mantissa := match digits with
      | [] => []
      | [d] => [d]
      | d :: rest => d :: '.' :: rest
    let sign := if leading < 0 then '-' else '+'
    mantissa ++ 'e' :: sign :: Nat.toDigits 10 leading.natAbs

/-- The text of a double. -/
def ofWord (word : UInt64) : String :=
  let magnitude := word.toNat % Binary64.signBit
  let sign := if word.toNat < Binary64.signBit then [] else ['-']
  let text :=
    if magnitude = 0 then ['0', '.', '0']
    else
      let d := Binary64.shortest magnitude
      layout (Nat.toDigits 10 d.digits) d.exponent
  String.ofList (sign ++ text)

/-! ### Reading -/

/-- A number literal, taken apart. -/
structure Parts where
  negative : Bool
  whole : List Nat
  /-- The digits after the decimal point, if there is one. -/
  fraction : Option (List Nat)
  /-- The sign of the exponent and its digits, if there is one. -/
  exponent : Option (Bool × List Nat)

/-- The value of a digit of a base, up to base 16. -/
def digit? (base : Nat) (c : Char) : Option Nat :=
  let value? : Option Nat :=
    if '0' ≤ c ∧ c ≤ '9' then some (c.toNat - '0'.toNat)
    else if 'a' ≤ c ∧ c ≤ 'f' then some (c.toNat - 'a'.toNat + 10)
    else if 'A' ≤ c ∧ c ≤ 'F' then some (c.toNat - 'A'.toNat + 10)
    else none
  value?.filter (· < base)

/-- The number that exactly `count` digits of a base make, behind those of `value`, and the
rest of the text. -/
def fixed? (base : Nat) : (count : Nat) → (value : Nat) → List Char → Option (Nat × List Char)
  | 0, value, text => some (value, text)
  | _ + 1, _, [] => none
  | count + 1, value, c :: rest => do
    let d ← digit? base c
    fixed? base count (value * base + d) rest

/-- Digits of a base as a number. -/
def natOf (base : Nat) (ds : List Nat) : Nat := ds.foldl (fun n d => n * base + d) 0

/-- The leading decimal digits of a text, and the rest. -/
def digits : List Char → List Nat × List Char
  | [] => ([], [])
  | c :: rest => match digit? 10 c with
    | some d => let (ds, after) := digits rest; (d :: ds, after)
    | none => ([], c :: rest)

/-- Splits a number literal off a text: an optional minus, digits without a superfluous
leading zero, then fraction and exponent with at least one digit each. -/
def split? (text : List Char) : Option (Parts × List Char) := do
  let (negative, text) := match text with
    | '-' :: rest => (true, rest)
    | _ => (false, text)
  let (whole, text) := digits text
  match whole with
  | [] | 0 :: _ :: _ => none
  | _ => pure ()
  let (fraction, text) ← match text with
    | '.' :: rest => match digits rest with
      | ([], _) => none
      | (ds, after) => some (some ds, after)
    | _ => some (none, text)
  let (exponent, text) ← match text with
    | e :: rest =>
      if e = 'e' ∨ e = 'E' then
        let (down, rest) := match rest with
          | '-' :: after => (true, after)
          | '+' :: after => (false, after)
          | _ => (false, rest)
        match digits rest with
        | ([], _) => none
        | (ds, after) => some (some (down, ds), after)
      else some (none, text)
    | [] => some (none, text)
  return (⟨negative, whole, fraction, exponent⟩, text)

/-- Gathers digits while the number stays below 2^64; the digits left over are counted. -/
def gather : Nat → List Nat → Nat × Nat
  | n, [] => (n, 0)
  | n, d :: rest =>
    if n * 10 + d < UInt64.size then gather (n * 10 + d) rest else (n, rest.length + 1)

/-- A double times 10^exponent.  Below 10^-308 the double is first divided by 10^308, as
often as needed or until nothing is left; `none` when the result is too large. -/
def scale10 : Nat → Nat → Int → Option Nat
  | 0, _, _ => some 0
  | tries + 1, word, exponent =>
    if exponent.natAbs ≤ 308 then
      let power := Binary64.ofRatio (Nat.pow 10 exponent.natAbs) 1
      if 0 ≤ exponent then
        let product := Binary64.mul word power
        if product = Binary64.infinity then none else some product
      else some (Binary64.div word power)
    else if word = 0 then some 0
    else if 0 ≤ exponent then none
    else scale10 tries (Binary64.div word (Binary64.ofRatio (Nat.pow 10 308) 1)) (exponent + 308)

/-- The double with a sign and a magnitude. -/
def signed (negative : Bool) (magnitude : Nat) : Number :=
  .float (UInt64.ofNat (if negative then Binary64.signBit + magnitude else magnitude))

/-- The number a literal stands for; `none` when it is too large for a double. -/
def Parts.value? (p : Parts) : Option Number :=
  let (lead, surplus) := gather 0 p.whole
  match p.fraction, p.exponent with
  | none, none =>
    if surplus = 0 then
      if p.negative then
        if lead = 0 ∨ 0x8000000000000000 < lead then some (signed true (Binary64.ofRatio lead 1))
        else some (.int (-(lead : Int)))
      else some (.int lead)
    else (scale10 4 (Binary64.ofRatio lead 1) surplus).map (signed p.negative)
  | _, _ =>
    let fraction := p.fraction.getD []
    let (significand, dropped) := gather lead fraction
    let shift : Int := (surplus : Int) - ((fraction.length - dropped : Nat) : Int)
    let (down, ds) := p.exponent.getD (false, [])
    let exponent := natOf 10 ds
    if 0x80000000 ≤ exponent then
      if significand ≠ 0 ∧ ¬ down then none else some (signed p.negative 0)
    else
      let total := if down then shift - exponent else shift + exponent
      (scale10 4 (Binary64.ofRatio significand 1) total).map (signed p.negative)

end Numeral

/-- The number as a double. -/
def Number.toFloat : Number → Number
  | .int i => Numeral.signed (i < 0) (Binary64.ofRatio i.natAbs 1)
  | .float word => .float word

/-- The text of a number. -/
def Number.text : Number → String
  | .int i => toString i
  | .float word => Numeral.ofWord word

end Provisioning
