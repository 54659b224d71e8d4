import Cascade.Fault
import Cascade.Json.Decode
import Cascade.Json.Inspect

/-! # Options

The options of an instruction are fixed when it is declared. Two of them are rules of the run,
`fail` and `fail_fast`; all others are for the handler.
-/
namespace Cascade

open Json (Value)

structure Options where
  entries : SortedMap Value

namespace Options

def empty : Options := ⟨.empty⟩

instance : Inhabited Options := ⟨empty⟩

@[ext] theorem ext {a b : Options} (h : a.entries = b.entries) : a = b := by
  cases a
  cases h
  rfl

def get? (o : Options) (key : String) : Option Value := o.entries.get? key

def insert (o : Options) (key : String) (value : Value) : Options := ⟨o.entries.insert key value⟩

def ofList (entries : List (String × Value)) : Options := ⟨.ofList entries⟩

/-- An option of `null` counts as missing. -/
def contains (o : Options) (key : String) : Bool :=
  match o.get? key with
  | some v => !v.isNull
  | none => false

/-- Whether the option is truthy, or `fallback` if it is missing. -/
def flag (o : Options) (key : String) (fallback : Bool) : Bool :=
  match o.get? key with
  | some v => v.truthy
  | none => fallback

def fail (o : Options) : Bool := o.flag "fail" true

def failFast (o : Options) : Bool := o.flag "fail_fast" false

def size (o : Options) : Nat := o.entries.size

def isEmpty (o : Options) : Bool := o.entries.isEmpty

def value (o : Options) : Value := .ofMap o.entries

def text (o : Options) : String := o.value.text

/-- The fields of an object; nothing for `null`. -/
def ofValue : Value → Except Fault Options
  | .object fields => .ok (ofList fields)
  | .null => .ok empty
  | other => .error (.argument (.notAnObject other))

/-- The fields of the parameters if they are an object, else nothing. -/
def ofParams : Option Value → Options
  | some (.object fields) => ofList fields
  | _ => empty

def ofText? (text : String) : Option Options :=
  match Value.ofText? text with
  | some (.object fields) => some (ofList fields)
  | _ => none

instance : BEq Options := ⟨fun a b => a.value == b.value⟩

def inspect (o : Options) : String := "Options(" ++ Json.inspectMap o.entries ++ ")"

@[simp] theorem ofValue_value (o : Options) : ofValue o.value = .ok o := by
  simp [ofValue, value, Value.ofMap, ofList]

@[simp] theorem get?_insert (o : Options) (key k : String) (value : Value) :
    (o.insert key value).get? k = if key = k then some value else o.get? k :=
  SortedMap.get?_insert o.entries key k value

end Options

end Cascade
