import Cascade.State.CallLog
import Cascade.Level
import Cascade.Options

/-! # Handler programs

What a handler does, one act after the other: it reads the state, changes it through the operations
of `State` only, starts pipelines, and runs its continuation if it has one. `ι` names the pipelines.
-/
namespace Cascade

open Json (Value)

inductive Change where
  | set (key : String) (value : Value)
  | remove (key : String)
  | fail
  | record (name : String)

def Change.apply : Change → State → Except Fault State
  | set key value, s => s.set key value
  | remove key, s => .ok (s.remove key)
  | fail, s => .ok s.fail
  | record name, s => CallLog.record s name

/-- What a handler may have run for it. -/
inductive Call (ι : Type) where
  /-- The continuation; its value tells whether the state is still successful. -/
  | next
  /-- The tree of a pipeline; its value is `null`. -/
  | run (pipeline : ι) (level : Level)
  | invoke (pipeline : ι) (options : Options) (level : Level)

inductive Program (ι : Type) where
  | done (value : Value)
  | raise (fault : Fault)
  | read (rest : State → Program ι)
  | change (c : Change) (rest : Program ι)
  | count (rest : Nat → Program ι)
  /-- Goes on with the value; a fault ends the program. -/
  | call (c : Call ι) (rest : Value → Program ι)
  | attempt (c : Call ι) (rest : Except Fault Value → Program ι)

/-- A program, or one for each set of options. -/
inductive Callable (ι : Type) where
  | bare (p : Program ι)
  | withOptions (p : Options → Program ι)

def Callable.program {ι : Type} (options : Options) : Callable ι → Program ι
  | bare p => p
  | withOptions p => p options

end Cascade
