import Cascade.Json.Value
import Cascade.Json.Reader

/-! # From spelling to values

Escaped units become characters, digits become numbers, and fields become an entry list in key
order, the last of equal names winning. A node without a value: a lone surrogate, a number too big
for a finite float, or more nesting than the reader of values allows.
-/
namespace Cascade.Json

/-- Two escaped units may spell one character beyond the basic plane; neither of them may stand
alone. -/
def Literal.chars? : Literal → Option (List Char)
  | [] => some []
  | .char c :: rest => (chars? rest).map (c :: ·)
  | .unit hi :: .unit lo :: rest =>
    if hi < 0xD800 ∨ 0xE000 ≤ hi then (chars? (.unit lo :: rest)).map (Char.ofNat hi :: ·)
    else if 0xDC00 ≤ hi ∨ lo < 0xDC00 ∨ 0xE000 ≤ lo then none
    else (chars? rest).map (Char.ofNat (0x10000 + (hi - 0xD800) * 0x400 + (lo - 0xDC00)) :: ·)
  | .unit u :: rest =>
    if u < 0xD800 ∨ 0xE000 ≤ u then (chars? rest).map (Char.ofNat u :: ·) else none

def Literal.string? (s : Literal) : Option String := s.chars?.map String.ofList

/-! ## Numbers -/

def wordBound : Nat := UInt64.size

/-- The number that leading digits make, as many of them as fit an unsigned 64-bit word, and the
digits left over. -/
def wordOfDigits (acc : Nat) : List Char → Nat × List Char
  | [] => (acc, [])
  | c :: rest =>
    let next := 10 * acc + (c.toNat - 48)
    if next < wordBound then wordOfDigits next rest else (acc, c :: rest)

/-- `significand * 10 ^ exponent` in float arithmetic, by one multiplication or at most two
divisions; below `10 ^ (-616)` nothing is left of a word. -/
def scaled? (significand : Nat) (exponent : Int) : Option Float :=
  let x := Float.ofNat significand
  let pow (e : Nat) := Float.ofScientific 1 false e
  if 308 < exponent then if x == 0 then some x else none
  else if 0 ≤ exponent then
    let y := x * pow exponent.toNat
    if y.isInf then none else some y
  else if -308 ≤ exponent then some (x / pow (-exponent).toNat)
  else if -616 ≤ exponent then some (x / pow 308 / pow (-exponent - 308).toNat)
  else some 0

/-- A numeral without fraction and exponent that fits a signed or unsigned 64-bit word is an
integer, negative zero apart. For any other one the digits that fit a word are scaled: digits of the
whole part that do not fit count as zeros, those of the fraction are dropped. -/
def Numeral.number? (n : Numeral) : Option Number :=
  let (whole, rest) := wordOfDigits 0 n.whole
  if rest.isEmpty && n.fraction.isEmpty && n.exponent.isNone
      && (!n.negative || (0 < whole && 2 * whole ≤ wordBound)) then
    some (.int (if n.negative then -whole else whole))
  else
    let (significand, dropped) := wordOfDigits whole n.fraction
    let places : Int := rest.length - (n.fraction.length - dropped.length : Nat)
    (scaled? significand (places + n.exponent.getD 0)).map fun x =>
      .float (if n.negative then -x else x)

def Numeral.word? (n : Numeral) : Option Nat :=
  match n.number? with
  | some (.int (.ofNat m)) => some m
  | _ => none

/-! ## Values -/

mutual

/-- The value of a node with at most `depth` arrays and objects around any part of it. -/
def Node.value? (depth : Nat) : Node → Option Value
  | .null => some .null
  | .bool b => some (.bool b)
  | .number n => n.number?.map .number
  | .string s => s.string?.map .string
  | .array items => match depth with
    | 0 => none
    | depth + 1 => (Node.values? depth items).map .array
  | .object fields => match depth with
    | 0 => none
    | depth + 1 => (Node.entries? depth [] fields).map .object

def Node.values? (depth : Nat) : List Node → Option (List Value)
  | [] => some []
  | item :: rest => do
    let v ← Node.value? depth item
    return v :: (← Node.values? depth rest)

def Node.entries? (depth : Nat) (entries : List (String × Value)) :
    List (Literal × Node) → Option (List (String × Value))
  | [] => some entries
  | (name, node) :: rest => do
    let key ← name.string?
    let v ← Node.value? depth node
    Node.entries? depth (Entries.insert key v entries) rest

end

def maxDepth : Nat := 127

/-- The value that a text spells, with at most `depth` levels of nesting. -/
def Value.ofTextWithin? (depth : Nat) (text : String) : Option Value :=
  (Node.ofText? text).bind (Node.value? depth)

def Value.ofText? (text : String) : Option Value := Value.ofTextWithin? maxDepth text

end Cascade.Json
