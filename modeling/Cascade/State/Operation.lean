import Cascade.State.Basic

/-! # Operations on a state

What the owner of a state may do with it. Setting and removing an entry answer with the value that
was there before. An operation that is refused answers with its fault and leaves the state as it is.
-/
namespace Cascade

open Json (Value)

/-- A key is given as one that is known to be symbolic, or as a spelling. -/
inductive KeyForm where
  | key (k : Key)
  | spelling (raw : String)

def KeyForm.resolve : KeyForm → Except Fault Key
  | key k => .ok k
  | spelling raw => Key.ofString raw

namespace State

inductive Operation where
  | set (form : KeyForm) (value : Value)
  | remove (key : String)
  | fail
  /-- Goes on with a copy. -/
  | clone

/-- Whether only entries are changed. -/
def Operation.isData : Operation → Bool
  | set .. | remove _ => true
  | fail | clone => false

/-- The answer, and the state after it. -/
def perform (s : State) : Operation → Except Fault (Option Value) × State
  | .set form value =>
    match form.resolve with
    | .ok k => (.ok (s.get? k.raw), s.put k value)
    | .error f => (.error f, s)
  | .remove key => (.ok (s.get? key), s.remove key)
  | .fail => (.ok none, s.fail)
  | .clone => (.ok none, s)

/-- Under a spelling, `perform` sets what `set` does, and is refused where `set` is. -/
theorem perform_set_spelling (s : State) (raw : String) (value : Value) :
    s.perform (.set (.spelling raw) value) = match s.set raw value with
      | .ok t => (.ok (s.get? raw), t)
      | .error f => (.error f, s) := by
  cases h : Key.isSymbolic raw with
  | true =>
    rw [set_of_symbolic h]
    show (match Key.ofString raw with | .ok k => _ | .error f => _) = _
    rw [Key.ofString_of_symbolic h]
  | false =>
    rw [set_of_not_symbolic h]
    show (match Key.ofString raw with | .ok k => _ | .error f => _) = _
    rw [Key.ofString_of_not_symbolic h]

end State

end Cascade
