import Cascade.Key
import Cascade.Json.Inspect

/-! # State

The entries that the handlers of a run share, and whether the run has failed. Entries are held
under symbolic keys only. Nothing takes the failed mark back.

A look-up after a change finds what was put, misses what was removed, and is otherwise the look-up
before it. Setting an entry is refused exactly for keys that are not symbolic, and no change of the
entries touches the failed mark.
-/
namespace Cascade

open Json (Value)

structure State where
  data : SortedMap Value
  failed : Bool
  symbolic : ∀ key ∈ data.keys, Key.isSymbolic key = true

namespace State

def empty : State := ⟨.empty, false, by simp [SortedMap.keys, SortedMap.empty]⟩

instance : Inhabited State := ⟨empty⟩

@[ext] theorem ext {s t : State} (data : s.data = t.data) (failed : s.failed = t.failed) :
    s = t := by
  obtain ⟨d, f, _⟩ := s
  cases data
  cases failed
  rfl

def get? (s : State) (key : String) : Option Value := s.data.get? key

/-- An entry of `null` counts as missing. -/
def contains (s : State) (key : String) : Bool :=
  match s.get? key with
  | some v => !v.isNull
  | none => false

def put (s : State) (key : Key) (value : Value) : State where
  data := s.data.insert key.raw value
  failed := s.failed
  symbolic k h := by
    rcases SortedMap.mem_keys_insert.1 h with rfl | h
    · exact key.symbolic
    · exact s.symbolic k h

/-- The state with the entry set, unless the key is not symbolic. -/
def set (s : State) (key : String) (value : Value) : Except Fault State := do
  return s.put (← Key.ofString key) value

def remove (s : State) (key : String) : State where
  data := s.data.erase key
  failed := s.failed
  symbolic k h := s.symbolic k (SortedMap.mem_keys_erase.1 h).2

def fail (s : State) : State := { s with failed := true }

def successful (s : State) : Bool := !s.failed

def withParams (params : Value) : State := empty.put Key.params params

def params? (s : State) : Option Value := s.get? Key.params.raw

def param? (s : State) (name : String) : Option Value := s.params?.bind (·.field? name)

/-- A parameter of `null` counts as missing. -/
def containsParam (s : State) (name : String) : Bool :=
  match s.param? name with
  | some v => !v.isNull
  | none => false

def keys (s : State) : List String := s.data.keys

def size (s : State) : Nat := s.data.size

def isEmpty (s : State) : Bool := s.data.isEmpty

def value (s : State) : Value := .ofMap s.data

/-- The entries as an object; the failed mark is not shown. -/
def text (s : State) : String := s.value.text

def inspect (s : State) : String :=
  let entry (e : String × Value) := "Key(" ++ Text.spelled e.1 ++ "): " ++ e.2.inspect
  Text.record "State"
    [("data", Text.braced (s.data.entries.map entry)), ("failed", Text.flag s.failed)]

@[simp] theorem get?_put (s : State) (key : Key) (value : Value) (k : String) :
    (s.put key value).get? k = if key.raw = k then some value else s.get? k :=
  SortedMap.get?_insert s.data key.raw k value

@[simp] theorem get?_remove (s : State) (key k : String) :
    (s.remove key).get? k = if key = k then none else s.get? k :=
  SortedMap.get?_erase s.data key k

@[simp] theorem get?_fail (s : State) (k : String) : s.fail.get? k = s.get? k := rfl

@[simp] theorem failed_put (s : State) (key : Key) (value : Value) :
    (s.put key value).failed = s.failed := rfl

@[simp] theorem failed_remove (s : State) (key : String) : (s.remove key).failed = s.failed := rfl

@[simp] theorem failed_fail (s : State) : s.fail.failed = true := rfl

theorem set_of_symbolic {key : String} (h : Key.isSymbolic key = true) (s : State) (value : Value) :
    s.set key value = .ok (s.put ⟨key, h⟩ value) := by
  unfold set
  rw [Key.ofString_of_symbolic h]
  rfl

theorem set_of_not_symbolic {key : String} (h : Key.isSymbolic key = false) (s : State)
    (value : Value) : s.set key value = .error (.invalidKey key) := by
  unfold set
  rw [Key.ofString_of_not_symbolic h]
  rfl

/-- What is not symbolic is never found. -/
theorem get?_of_not_symbolic {key : String} (h : Key.isSymbolic key = false) (s : State) :
    s.get? key = none := by
  cases hg : s.get? key with
  | none => rfl
  | some v =>
    have := s.symbolic key (SortedMap.mem_keys_iff.2 (by rw [← get?, hg]; rfl))
    exact absurd this (by simp [h])

end State

end Cascade
