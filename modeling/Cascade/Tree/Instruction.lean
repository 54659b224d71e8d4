import Cascade.Gate
import Cascade.Handler.Basic

/-! # Instructions

The nodes of a tree. Only wraps have children; a gate has neither handler nor options.
-/
namespace Cascade

open Json (Value)

inductive Instruction (ι : Type) where
  | step (handler : Handler ι) (options : Options)
  | failure (handler : Handler ι) (options : Options)
  | wrap (handler : Handler ι) (options : Options) (children : List (Instruction ι))
  | gate (g : Gate)

namespace Instruction

variable {ι : Type}

def kind : Instruction ι → String
  | step .. => "step"
  | failure .. => "failure"
  | wrap .. => "wrap"
  | gate _ => "depend"

def isStep : Instruction ι → Bool
  | step .. => true
  | _ => false

def isFailure : Instruction ι → Bool
  | failure .. => true
  | _ => false

def isWrap : Instruction ι → Bool
  | wrap .. => true
  | _ => false

def gate? : Instruction ι → Option Gate
  | gate g => some g
  | _ => none

def handler : Instruction ι → Handler ι
  | step h _ | failure h _ | wrap h _ _ => h
  | gate _ => .noop

def options : Instruction ι → Options
  | step _ o | failure _ o | wrap _ o _ => o
  | gate _ => .empty

def children : Instruction ι → List (Instruction ι)
  | wrap _ _ children => children
  | _ => []

/-- Whether `result` fails the state: it is falsy, and neither a failure handler nor the options
say otherwise. -/
def canFail (i : Instruction ι) (result : Value) : Bool :=
  !i.isFailure && !result.truthy && i.options.fail

mutual

def depth : Instruction ι → Nat
  | wrap _ _ children => 1 + depthOf children
  | _ => 1

/-- The greatest depth in a list; nothing has depth zero. -/
def depthOf : List (Instruction ι) → Nat
  | [] => 0
  | i :: rest => max (depth i) (depthOf rest)

end

mutual

def inspect (sig : Signature ι) (i : Instruction ι) : String :=
  let form := match i with
    | step .. => "Step"
    | failure .. => "Failure"
    | wrap .. => "Wrap"
    | gate g => "Dependency(" ++ g.inspect ++ ")"
  let inner := match i with
    | wrap _ _ children => inspectAll sig children
    | _ => []
  Text.record "Instruction"
    [("kind", form), ("handler", i.handler.inspect sig), ("options", i.options.inspect),
      ("children", Text.bracketed inner)]

def inspectAll (sig : Signature ι) : List (Instruction ι) → List String
  | [] => []
  | i :: rest => inspect sig i :: inspectAll sig rest

end

end Instruction

end Cascade
