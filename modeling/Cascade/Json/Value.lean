import Cascade.SortedMap

/-! # JSON values

A number is an integer or a finite binary64; the integer `1` and the float `1.0` are different
values. The fields of an object are an entry list in key order.
-/
namespace Cascade.Json

inductive Number where
  | int (n : Int)
  | float (x : Float)
deriving DecidableEq, Inhabited

/-- Integers and floats are never equal; `0.0` and `-0.0` are. -/
def Number.beq : Number → Number → Bool
  | int m, int n => m == n
  | float x, float y => x == y
  | _, _ => false

inductive Value where
  | null
  | bool (b : Bool)
  | number (n : Number)
  | string (s : String)
  | array (items : List Value)
  | object (fields : List (String × Value))
deriving Inhabited

namespace Value

abbrev int (n : Int) : Value := number (.int n)

def ofNat (n : Nat) : Value := int n

def strings (ss : List String) : Value := array (ss.map string)

/-- Everything but `null` and `false` is truthy. -/
def truthy : Value → Bool
  | null | bool false => false
  | _ => true

def isNull : Value → Bool
  | null => true
  | _ => false

theorem truthy_eq_false_iff {v : Value} : v.truthy = false ↔ v = null ∨ v = bool false := by
  cases v with
  | bool b => cases b <;> simp [truthy]
  | _ => simp [truthy]

@[simp] theorem isNull_iff {v : Value} : v.isNull = true ↔ v = null := by
  cases v <;> simp [isNull]

def ofMap (m : SortedMap Value) : Value := object m.entries

def field? (v : Value) (name : String) : Option Value :=
  match v with
  | object fields => Entries.get? name fields
  | _ => none

def string? : Value → Option String
  | string s => some s
  | _ => none

/-- The integer held, if it fits a signed 64-bit word. -/
def int64? : Value → Option Int
  | number (.int n) =>
    if Int64.minValue.toInt ≤ n ∧ n ≤ Int64.maxValue.toInt then some n else none
  | _ => none

mutual

def beq : Value → Value → Bool
  | null, null => true
  | bool a, bool b => a == b
  | number m, number n => m.beq n
  | string s, string t => s == t
  | array xs, array ys => itemsBeq xs ys
  | object fs, object gs => fieldsBeq fs gs
  | _, _ => false

def itemsBeq : List Value → List Value → Bool
  | [], [] => true
  | x :: xs, y :: ys => beq x y && itemsBeq xs ys
  | _, _ => false

def fieldsBeq : List (String × Value) → List (String × Value) → Bool
  | [], [] => true
  | (k, x) :: xs, (l, y) :: ys => k == l && beq x y && fieldsBeq xs ys
  | _, _ => false

end

instance : BEq Value := ⟨beq⟩

end Value

end Cascade.Json
