import Cascade.Json.Node

/-! # Reading JSON text

A reader takes what it can from the front of the text and gives back the rest. Texts are read
strictly: no comments, no trailing commas, no leading zeros, no raw control characters in strings.
-/
namespace Cascade.Json

abbrev Reader (α : Type) := List Char → Option (α × List Char)

def isBlank (c : Char) : Bool := c = ' ' || c = '\t' || c = '\n' || c = '\r'

def skipBlanks (cs : List Char) : List Char := cs.dropWhile isBlank

def hexValue? (c : Char) : Option Nat :=
  if '0' ≤ c ∧ c ≤ '9' then some (c.toNat - 48)
  else if 'a' ≤ c ∧ c ≤ 'f' then some (c.toNat - 87)
  else if 'A' ≤ c ∧ c ≤ 'F' then some (c.toNat - 55)
  else none

def shortEscape? (c : Char) : Option Char :=
  match c with
  | '"' => some '"'
  | '\\' => some '\\'
  | '/' => some '/'
  | 'b' => some '\x08'
  | 'f' => some '\x0c'
  | 'n' => some '\n'
  | 'r' => some '\r'
  | 't' => some '\t'
  | _ => none

/-- Reads a string literal behind its opening quote, the closing quote included. -/
def readLiteral : Reader Literal
  | '"' :: rest => some ([], rest)
  | '\\' :: 'u' :: a :: b :: c :: d :: rest => do
    let unit := (((← hexValue? a) * 16 + (← hexValue? b)) * 16 + (← hexValue? c)) * 16
      + (← hexValue? d)
    let (glyphs, rest) ← readLiteral rest
    return (.unit unit :: glyphs, rest)
  | '\\' :: e :: rest => do
    let c ← shortEscape? e
    let (glyphs, rest) ← readLiteral rest
    return (.char c :: glyphs, rest)
  | c :: rest =>
    if c = '\\' || c.toNat < 32 then none
    else do
      let (glyphs, rest) ← readLiteral rest
      return (.char c :: glyphs, rest)
  | [] => none

def readDigits : Reader (List Char) := fun cs =>
  match cs.takeWhile Char.isDigit with
  | [] => none
  | ds => some (ds, cs.dropWhile Char.isDigit)

/-- Reads a lone zero, or digits that start with none. -/
def readWhole : Reader (List Char) := fun cs => do
  let (ds, rest) ← readDigits cs
  if ds.head? = some '0' ∧ ds ≠ ['0'] then none else return (ds, rest)

def readFraction : Reader (List Char)
  | '.' :: rest => readDigits rest
  | rest => some ([], rest)

def readExponent : Reader (Option Int)
  | e :: rest =>
    if e = 'e' || e = 'E' then
      match rest with
      | '-' :: rest => do
        let (ds, rest) ← readDigits rest
        return (some (-(Nat.ofDigitChars 10 ds 0 : Int)), rest)
      | '+' :: rest => do
        let (ds, rest) ← readDigits rest
        return (some (Nat.ofDigitChars 10 ds 0), rest)
      | rest => do
        let (ds, rest) ← readDigits rest
        return (some (Nat.ofDigitChars 10 ds 0), rest)
    else some (none, e :: rest)
  | [] => some (none, [])

def readUnsigned (negative : Bool) : Reader Numeral := fun cs => do
  let (whole, cs) ← readWhole cs
  let (fraction, cs) ← readFraction cs
  let (exponent, cs) ← readExponent cs
  return (⟨negative, whole, fraction, exponent⟩, cs)

def readNumeral : Reader Numeral
  | '-' :: rest => readUnsigned true rest
  | rest => readUnsigned false rest

/-- Reads a field name with its opening quote and the colon behind it. -/
def readName (cs : List Char) : Option (Literal × List Char) :=
  match skipBlanks cs with
  | '"' :: rest => do
    let (name, rest) ← readLiteral rest
    match skipBlanks rest with
    | ':' :: rest => return (name, rest)
    | _ => none
  | _ => none

mutual

def readNode (n : Nat) (cs : List Char) : Option (Node × List Char) :=
  match n with
  | 0 => none
  | n + 1 => match skipBlanks cs with
    | 'n' :: 'u' :: 'l' :: 'l' :: rest => some (.null, rest)
    | 't' :: 'r' :: 'u' :: 'e' :: rest => some (.bool true, rest)
    | 'f' :: 'a' :: 'l' :: 's' :: 'e' :: rest => some (.bool false, rest)
    | '"' :: rest => do
      let (s, rest) ← readLiteral rest
      return (.string s, rest)
    | '[' :: rest => match skipBlanks rest with
      | ']' :: rest => some (.array [], rest)
      | rest => do
        let (items, rest) ← readItems n rest
        return (.array items, rest)
    | '\x7b' :: rest => match skipBlanks rest with
      | '\x7d' :: rest => some (.object [], rest)
      | rest => do
        let (fields, rest) ← readFields n rest
        return (.object fields, rest)
    | rest => do
      let (numeral, rest) ← readNumeral rest
      return (.number numeral, rest)

/-- Reads the items from one on, with the closing bracket. -/
def readItems (n : Nat) (cs : List Char) : Option (List Node × List Char) :=
  match n with
  | 0 => none
  | n + 1 => do
    let (item, rest) ← readNode n cs
    match skipBlanks rest with
    | ']' :: rest => return ([item], rest)
    | ',' :: rest => do
      let (items, rest) ← readItems n rest
      return (item :: items, rest)
    | _ => none

/-- Reads the fields from one on, with the closing brace. -/
def readFields (n : Nat) (cs : List Char) : Option (List (Literal × Node) × List Char) :=
  match n with
  | 0 => none
  | n + 1 => do
    let (name, rest) ← readName cs
    let (value, rest) ← readNode n rest
    match skipBlanks rest with
    | '\x7d' :: rest => return ([(name, value)], rest)
    | ',' :: rest => do
      let (fields, rest) ← readFields n rest
      return ((name, value) :: fields, rest)
    | _ => none

end

/-- The node that the whole text spells, blanks around it allowed. A reader consumes a character
before it calls another one, so twice the length of the text bounds their nesting. -/
def Node.ofText? (text : String) : Option Node := do
  let (node, rest) ← readNode (2 * text.length + 1) text.toList
  guard (skipBlanks rest).isEmpty
  return node

end Cascade.Json
