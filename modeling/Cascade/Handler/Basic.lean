import Cascade.Handler.Program

/-! # Handlers

What an instruction runs. Only some handlers can stand in a step or failure position, and only some
in that of a wrap.
-/
namespace Cascade

open Json (Value)

/-- A named callable of the pipeline that declares the instruction. Around methods take the
continuation. -/
structure Method (ι : Type) where
  name : String
  around : Bool
  callable : Callable ι

def Method.arity {ι : Type} (m : Method ι) : String :=
  match m.around, m.callable with
  | false, .bare _ => "bare"
  | false, .withOptions _ => "options"
  | true, .bare _ => "around"
  | true, .withOptions _ => "around_options"

/-- What pipelines show to others: a name, and whether they have an around entry. -/
structure Signature (ι : Type) where
  name : ι → String
  wraps : ι → Bool

inductive Handler (ι : Type) where
  | noop
  | function (p : Program ι)
  | around (p : Program ι)
  | method (m : Method ι)
  | pipeline (q : ι)
  /-- A pipeline looked up in the container when the instruction is reached. -/
  | named (entry : String)

namespace Handler

variable {ι : Type}

def name (sig : Signature ι) : Handler ι → String
  | noop => "none"
  | function _ => "function"
  | around _ => "around"
  | method m => m.name
  | pipeline q => sig.name q
  | named entry => entry

def canStep : Handler ι → Bool
  | function _ | pipeline _ | named _ => true
  | method m => !m.around
  | noop | around _ => false

def canWrap (sig : Signature ι) : Handler ι → Bool
  | around _ => true
  | method m => m.around
  | pipeline q => sig.wraps q
  | noop | function _ | named _ => false

def arity : Handler ι → String
  | method m => m.arity
  | _ => ""

def form : Handler ι → String
  | noop => "Noop"
  | function _ => "Function"
  | around _ => "Around"
  | method _ => "Method"
  | pipeline _ => "Operation"
  | named _ => "Registry"

def inspect (sig : Signature ι) (h : Handler ι) : String := h.form ++ "(" ++ h.name sig ++ ")"

def recordingStep (name : String) (result : Value) : Handler ι :=
  function (.change (.record name) (.done result))

/-- Records its name on entering and on leaving, and runs the continuation in between if it is told
to. -/
def recordingWrap (name : String) (runChildren : Bool) : Handler ι :=
  let leave : Program ι := .change (.record (name ++ ":exit")) (.done (.bool true))
  around (.change (.record (name ++ ":enter"))
    (if runChildren then .call .next fun _ => leave else leave))

end Handler

end Cascade
