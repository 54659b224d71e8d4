import Cascade.State.CallLog

/-! # Expectations of a final state

What a check of a state says when it does not hold.
-/
namespace Cascade.State

open Json (Value)

def objectionToSuccess (s : State) : Option String :=
  if s.failed then some ("Expected success, got failed state: " ++ s.text) else none

def objectionToFailure (s : State) : Option String :=
  if s.failed then none else some ("Expected failure, got successful state: " ++ s.text)

def holds (s : State) (key : String) (expected : Value) : Bool :=
  match s.get? key with
  | some v => v == expected
  | none => false

def hasCalls (s : State) (names : List String) : Bool := CallLog.calls s == names

end Cascade.State
