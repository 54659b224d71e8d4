import Cascade.Json.Value
import Cascade.Decimal.Layout

/-! # The text of a value

Compact: no blanks, fields in key order. Only quotes, backslashes and the characters below the
blank are escaped, so a text is a single line.
-/
namespace Cascade.Json

/-- Floats between `10 ^ (-5)` and `10 ^ 16` are written with all their places. -/
def floatLayout : Decimal.Layout := ⟨-5, 15⟩

def intText (n : Int) : List Char :=
  if n < 0 then '-' :: Nat.toDigits 10 n.natAbs else Nat.toDigits 10 n.natAbs

def Number.chars : Number → List Char
  | int n => intText n
  | float x => floatLayout.floatText x

def hexDigit (n : Nat) : Char := Nat.digitChar n

def escaped (c : Char) : List Char :=
  if c = '"' then ['\\', '"']
  else if c = '\\' then ['\\', '\\']
  else if c = '\n' then ['\\', 'n']
  else if c = '\r' then ['\\', 'r']
  else if c = '\t' then ['\\', 't']
  else if c = '\x08' then ['\\', 'b']
  else if c = '\x0c' then ['\\', 'f']
  else if c.toNat < 32 then ['\\', 'u', '0', '0', hexDigit (c.toNat / 16), hexDigit (c.toNat % 16)]
  else [c]

def quoted (s : String) : List Char := '"' :: s.toList.flatMap escaped ++ ['"']

namespace Value

mutual

def chars : Value → List Char
  | null => ['n', 'u', 'l', 'l']
  | bool true => ['t', 'r', 'u', 'e']
  | bool false => ['f', 'a', 'l', 's', 'e']
  | number n => n.chars
  | string s => quoted s
  | array items => '[' :: itemChars items
  | object fields => '\x7b' :: fieldChars fields

/-- The items from one on, with the closing bracket. -/
def itemChars : List Value → List Char
  | [] => [']']
  | [v] => chars v ++ [']']
  | v :: rest => chars v ++ ',' :: itemChars rest

def fieldChars : List (String × Value) → List Char
  | [] => ['\x7d']
  | [(k, v)] => quoted k ++ ':' :: chars v ++ ['\x7d']
  | (k, v) :: rest => quoted k ++ ':' :: chars v ++ ',' :: fieldChars rest

end

def text (v : Value) : String := String.ofList v.chars

end Value

end Cascade.Json
