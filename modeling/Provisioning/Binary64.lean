/-
Binary floating point in exact arithmetic.

A finite non-negative double is m · 2^e with m below 2^53; its encoding is a 64 bit
word.  Everything here is computed on natural numbers: rounding a ratio to the nearest
double (a half goes to the even neighbour), and the other way the fewest decimal digits
that round back to a given double.

The digits are found grid by grid.  A double is told apart from its neighbours by any
number in the interval that rounds to it; the coarsest power of ten with a multiple in
that interval gives the fewest digits, and of the multiples there the nearest is taken.
Only the two neighbours of the double on each grid need a look: if any multiple lies in
the interval, one of them does.
-/
namespace Provisioning

namespace Binary64

/-- The word of positive infinity; every smaller one is a finite non-negative double. -/
def infinity : Nat := 0x7FF0000000000000

/-- The word with the sign bit alone. -/
def signBit : Nat := 0x8000000000000000

/-- The weight of the leading bit of a normal double, 2^52. -/
def leadingBit : Nat := 0x10000000000000

/-- `num / den` rounded to an integer, a half to the even neighbour. -/
def roundDiv (num den : Nat) : Nat :=
  let q := num / den
  let r := num % den
  if 2 * r < den then q else if den < 2 * r then q + 1 else q + q % 2

/-- Multiplies a ratio by 2^k. -/
def scale2 (num den : Nat) (k : Int) : Nat × Nat :=
  match k with
  | .ofNat n => (num <<< n, den)
  | .negSucc n => (num, den <<< (n + 1))

/-- The word of the double nearest to `num / den`, or `infinity` when it is too large. -/
def ofRatio (num den : Nat) : Nat :=
  if num = 0 then 0
  else
    let guess : Int := (Nat.log2 num : Int) - (Nat.log2 den : Int) - 53
    let wide := scale2 num den (-guess)
    let fitted := if wide.1 / wide.2 < 2 * leadingBit then guess else guess + 1
    let exponent := max fitted (-1074)
    let ratio := scale2 num den (-exponent)
    min ((exponent + 1074).toNat * leadingBit + roundDiv ratio.1 ratio.2) infinity

/-- The integer m and the exponent e with m · 2^e the size of the double `word`. -/
def parts (word : Nat) : Nat × Int :=
  let biased : Nat := word / leadingBit % 2048
  let fraction : Nat := word % leadingBit
  if biased = 0 then (fraction, -1074) else (fraction + leadingBit, (biased : Int) - 1075)

/-- The nearest double to the product of two non-negative ones. -/
def mul (a b : Nat) : Nat :=
  let (m, e) := parts a
  let (n, f) := parts b
  let ratio := scale2 (m * n) 1 (e + f)
  ofRatio ratio.1 ratio.2

/-- The nearest double to the quotient of two non-negative ones. -/
def div (a b : Nat) : Nat :=
  let (m, e) := parts a
  let (n, f) := parts b
  let ratio := scale2 m n (e - f)
  ofRatio ratio.1 ratio.2

/-- A decimal: `digits · 10^exponent`. -/
structure Decimal where
  digits : Nat
  exponent : Int
deriving DecidableEq

/-- The multiple of 10^k nearest to m · 2^e among its two neighbours that round back to it.

Sizes are counted in quarters of 2^e, so that the ends of the interval are integers: half
a unit on each side, a quarter below where the spacing halves. -/
def onGrid (m : Nat) (e : Int) (lowerHalf : Bool) (k : Int) : Option Decimal :=
  let unit := Nat.pow 10 (-k).toNat <<< (e - 2).toNat
  let step := Nat.pow 10 k.toNat <<< (2 - e).toNat
  let value := 4 * m * unit
  let low := (if lowerHalf then 4 * m - 1 else 4 * m - 2) * unit
  let high := (4 * m + 2) * unit
  let inside (c : Nat) : Bool :=
    if m % 2 = 0 then low ≤ c * step && c * step ≤ high else low < c * step && c * step < high
  let below := value / step
  let above := below + 1
  let rest := value - below * step
  match below ≠ 0 && inside below, inside above with
  | false, false => none
  | true, false => some ⟨below, k⟩
  | false, true => some ⟨above, k⟩
  | true, true =>
    if 2 * rest < step || (2 * rest = step && below % 2 = 0) then some ⟨below, k⟩
    else some ⟨above, k⟩

/-- The first grid with a hit, from 10^k downwards. -/
def firstGrid (m : Nat) (e : Int) (lowerHalf : Bool) : Nat → Int → Decimal
  | 0, _ => ⟨0, 0⟩
  | tries + 1, k => (onGrid m e lowerHalf k).getD (firstGrid m e lowerHalf tries (k - 1))

/-- How many decimal digits a number has. -/
def digitCount (n : Nat) : Nat := (Nat.toDigits 10 n).length

/-- The fewest decimal digits that round back to the size of the double `word`. -/
def shortest (word : Nat) : Decimal :=
  let (m, e) := parts word
  if m = 0 then ⟨0, 0⟩
  else
    let ratio := scale2 m 1 e
    let top : Int :=
      if ratio.2 ≤ ratio.1 then digitCount (ratio.1 / ratio.2)
      else 1 - (digitCount (ratio.2 / ratio.1) : Int)
    firstGrid m e (decide (m = leadingBit) && decide (-1074 < e)) 21 top

end Binary64

end Provisioning
