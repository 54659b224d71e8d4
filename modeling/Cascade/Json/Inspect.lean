import Cascade.Json.Text
import Cascade.Text.Spelled

/-! # Values for inspection

Every value is written with the name of its form.
-/
namespace Cascade.Json

open Cascade.Text

namespace Value

mutual

def inspect : Value → String
  | null => "Null"
  | bool b => "Bool(" ++ flag b ++ ")"
  | number n => "Number(" ++ String.ofList n.chars ++ ")"
  | string s => "String(" ++ spelled s ++ ")"
  | array items => "Array " ++ bracketed (inspectItems items)
  | object fields => "Object " ++ braced (inspectFields fields)

def inspectItems : List Value → List String
  | [] => []
  | v :: rest => inspect v :: inspectItems rest

def inspectFields : List (String × Value) → List String
  | [] => []
  | (k, v) :: rest => (spelled k ++ ": " ++ inspect v) :: inspectFields rest

end

end Value

def inspectMap (m : SortedMap Value) : String := braced (Value.inspectFields m.entries)

end Cascade.Json
