/-
Blanks, comments, strings and keys of TOML text.

Every reader takes the text that is left and gives back what it read with the text behind
it, or nothing if the text does not start as it should.  A string is read character by
character, so the length of the text bounds the reading.
-/
import Provisioning.Json.Parser

namespace Provisioning

namespace Toml

/-- The text without leading blanks. -/
def skipBlank : List Char → List Char
  | [] => []
  | c :: rest => if c = ' ' ∨ c = '\t' then skipBlank rest else c :: rest

/-- Control characters, except for the tab, may not stand for themselves anywhere. -/
def isControl (c : Char) : Bool := (c.toNat < 32 && c != '\t') || c.toNat = 127

/-- The text behind a line end. -/
def lineEnd? : List Char → Option (List Char)
  | '\n' :: rest => some rest
  | '\r' :: '\n' :: rest => some rest
  | _ => none

/-- The rest of a comment, up to the end of its line. -/
def skipComment : List Char → Option (List Char)
  | [] => some []
  | '\n' :: rest => some ('\n' :: rest)
  | '\r' :: '\n' :: rest => some ('\r' :: '\n' :: rest)
  | c :: rest => if isControl c then none else skipComment rest

/-- Blanks and a comment, up to the end of the line. -/
def skipTrailing (text : List Char) : Option (List Char) :=
  match skipBlank text with
  | '#' :: rest => skipComment rest
  | rest => some rest

/-- Blanks, comments and line ends, over as many lines as there are. -/
def skipLines : (bound : Nat) → List Char → Option (List Char)
  | 0, _ => none
  | bound + 1, text => do
    let rest ← skipTrailing text
    match lineEnd? rest with
    | some after => skipLines bound after
    | none => some rest

/-- The character of a code point. -/
def character? (n : Nat) : Option Char := if n.isValidChar then some (Char.ofNat n) else none

/-- The character after a backslash. -/
def escape? : List Char → Option (Char × List Char)
  | [] => none
  | c :: rest =>
    let coded (digits : Nat) : Option (Char × List Char) := do
      let (n, rest) ← Numeral.fixed? 16 digits 0 rest
      return (← character? n, rest)
    if c = 'x' then coded 2
    else if c = 'u' then coded 4
    else if c = 'U' then coded 8
    else
      let plain? : Option Char :=
        if c = 'b' then some (Char.ofNat 8)
        else if c = 't' then some '\t'
        else if c = 'n' then some '\n'
        else if c = 'f' then some (Char.ofNat 12)
        else if c = 'r' then some '\r'
        else if c = 'e' then some (Char.ofNat 27)
        else if c = '"' then some '"'
        else if c = '\\' then some '\\'
        else none
      plain?.map (·, rest)

/-- The rest of a one-line string with escapes. -/
def basic? : (bound : Nat) → List Char → Option (List Char × List Char)
  | 0, _ => none
  | _ + 1, [] => none
  | bound + 1, c :: rest =>
    if c = '"' then some ([], rest)
    else if c = '\\' then do
      let (c, rest) ← escape? rest
      let (cs, rest) ← basic? bound rest
      return (c :: cs, rest)
    else if isControl c then none
    else do
      let (cs, rest) ← basic? bound rest
      return (c :: cs, rest)

/-- The rest of a one-line string without escapes. -/
def literal? : List Char → Option (List Char × List Char)
  | [] => none
  | c :: rest =>
    if c = '\'' then some ([], rest)
    else if isControl c then none
    else do
      let (cs, rest) ← literal? rest
      return (c :: cs, rest)

/-- Three quotes end a string of several lines, after up to two quotes of its own. -/
def closing? (quote : Char) (text : List Char) : Option (List Char × List Char) :=
  let quotes := text.takeWhile (· = quote)
  if 3 ≤ quotes.length then
    let own := min (quotes.length - 3) 2
    some (quotes.take own, text.drop (own + 3))
  else none

/-- The rest of a string of several lines with escapes.  A backslash at the end of a line
swallows the line end and all blanks behind it. -/
def longBasic? : (bound : Nat) → List Char → Option (List Char × List Char)
  | 0, _ => none
  | _ + 1, [] => none
  | bound + 1, c :: rest =>
    match closing? '"' (c :: rest) with
    | some done => some done
    | none =>
      if c = '\\' then
        match lineEnd? (skipBlank rest) with
        | some after => longBasic? bound (Json.skipBlank after)
        | none => do
          let (c, rest) ← escape? rest
          let (cs, rest) ← longBasic? bound rest
          return (c :: cs, rest)
      else if isControl c && (lineEnd? (c :: rest)).isNone then none
      else if c = '\r' then do
        let (cs, rest) ← longBasic? bound (rest.drop 1)
        return ('\r' :: '\n' :: cs, rest)
      else do
        let (cs, rest) ← longBasic? bound rest
        return (c :: cs, rest)

/-- The rest of a string of several lines without escapes. -/
def longLiteral? : (bound : Nat) → List Char → Option (List Char × List Char)
  | 0, _ => none
  | _ + 1, [] => none
  | bound + 1, c :: rest =>
    match closing? '\'' (c :: rest) with
    | some done => some done
    | none =>
      if isControl c && (lineEnd? (c :: rest)).isNone then none
      else if c = '\r' then do
        let (cs, rest) ← longLiteral? bound (rest.drop 1)
        return ('\r' :: '\n' :: cs, rest)
      else do
        let (cs, rest) ← longLiteral? bound rest
        return (c :: cs, rest)

/-- A line end directly behind the opening quotes is not part of the string. -/
def dropFirstLine (text : List Char) : List Char := (lineEnd? text).getD text

/-- A string value. -/
def string? : List Char → Option (String × List Char)
  | '"' :: '"' :: '"' :: rest =>
    (longBasic? (rest.length + 1) (dropFirstLine rest)).map fun r => (String.ofList r.1, r.2)
  | '\'' :: '\'' :: '\'' :: rest =>
    (longLiteral? (rest.length + 1) (dropFirstLine rest)).map fun r => (String.ofList r.1, r.2)
  | '"' :: rest => (basic? (rest.length + 1) rest).map fun r => (String.ofList r.1, r.2)
  | '\'' :: rest => (literal? rest).map fun r => (String.ofList r.1, r.2)
  | _ => none

/-- Characters of a key without quotes. -/
def isBare (c : Char) : Bool := c.isAlphanum || c = '_' || c = '-'

/-- One part of a key: bare, or a one-line string. -/
def keyPart? : List Char → Option (String × List Char)
  | '"' :: rest => (basic? (rest.length + 1) rest).map fun r => (String.ofList r.1, r.2)
  | '\'' :: rest => (literal? rest).map fun r => (String.ofList r.1, r.2)
  | text => match text.takeWhile isBare with
    | [] => none
    | cs => some (String.ofList cs, text.dropWhile isBare)

/-- A key: parts with dots between them. -/
def key? : (bound : Nat) → List Char → Option (List String × List Char)
  | 0, _ => none
  | bound + 1, text => do
    let (part, rest) ← keyPart? (skipBlank text)
    match skipBlank rest with
    | '.' :: rest => do
      let (parts, rest) ← key? bound rest
      return (part :: parts, rest)
    | rest => some ([part], rest)

end Toml

end Provisioning
