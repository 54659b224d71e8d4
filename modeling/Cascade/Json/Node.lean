/-! # JSON text as it is spelled

A node keeps what the text says before anything is decided about it: digits are not yet numbers,
escapes not yet characters, and a name may occur twice in an object.
-/
namespace Cascade.Json

/-- What a string literal is made of: characters, and escaped UTF-16 units. -/
inductive Glyph where
  | char (c : Char)
  | unit (u : Nat)
deriving DecidableEq, Repr

abbrev Literal := List Glyph

/-- `-whole.fraction` times ten to the power, digit by digit; `fraction` is empty if there is no
point. -/
structure Numeral where
  negative : Bool
  whole : List Char
  fraction : List Char
  exponent : Option Int
deriving DecidableEq, Repr

inductive Node where
  | null
  | bool (b : Bool)
  | number (n : Numeral)
  | string (s : Literal)
  | array (items : List Node)
  | object (fields : List (Literal × Node))
deriving Inhabited

end Cascade.Json
