import Cascade.Fault
import Cascade.Text.Spelled

/-! # Symbolic keys

A key is spelled like an identifier: a letter or underscore, then letters, digits or underscores,
then at most one `?` or `!`. Letters and digits are those of ASCII. A spelling has at most one key,
and a key is read back from its spelling.
-/
namespace Cascade

namespace Key

def isInitial (c : Char) : Bool := c.isAlpha || c == '_'

def isInner (c : Char) : Bool := c.isAlphanum || c == '_'

def isMark (c : Char) : Bool := c == '?' || c == '!'

/-- What may follow the inner characters: nothing, or one mark. -/
def isEnding : List Char → Bool
  | [] => true
  | [c] => isMark c
  | _ => false

def symbolicChars : List Char → Bool
  | [] => false
  | c :: cs => isInitial c && isEnding (cs.dropWhile isInner)

def isSymbolic (raw : String) : Bool := symbolicChars raw.toList

end Key

structure Key where
  raw : String
  symbolic : Key.isSymbolic raw = true
deriving DecidableEq

namespace Key

def ofString? (raw : String) : Option Key :=
  if h : isSymbolic raw = true then some ⟨raw, h⟩ else none

def ofString (raw : String) : Except Fault Key :=
  match ofString? raw with
  | some k => .ok k
  | none => .error (.invalidKey raw)

theorem ofString?_eq_none_iff {raw : String} : ofString? raw = none ↔ isSymbolic raw = false := by
  unfold ofString?
  split <;> simp_all

theorem raw_of_ofString? {raw : String} {k : Key} (h : ofString? raw = some k) : k.raw = raw := by
  unfold ofString? at h
  split at h
  · cases h
    rfl
  · cases h

theorem ofString?_of_symbolic {raw : String} (h : isSymbolic raw = true) :
    ofString? raw = some ⟨raw, h⟩ := dif_pos h

theorem ofString_of_symbolic {raw : String} (h : isSymbolic raw = true) :
    ofString raw = .ok ⟨raw, h⟩ := by
  unfold ofString
  rw [ofString?_of_symbolic h]

theorem ofString_of_not_symbolic {raw : String} (h : isSymbolic raw = false) :
    ofString raw = .error (.invalidKey raw) := by
  unfold ofString
  rw [ofString?_eq_none_iff.2 h]

def params : Key := ⟨"params", by decide⟩

instance : ToString Key := ⟨raw⟩

def inspect (k : Key) : String := "Key(" ++ Text.spelled k.raw ++ ")"

end Key

end Cascade
