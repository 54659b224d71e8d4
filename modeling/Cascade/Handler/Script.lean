import Cascade.Handler.Program

/-! # Scripts

A script is a handler body as data: actions that run in order. It becomes a program by handing each
action what comes after it, so that a `give` inside a branch ends the whole script.
-/
namespace Cascade

open Json (Value)

inductive Action (ι : Type) where
  | set (key : String) (value : Value)
  | remove (key : String)
  | fail
  | record (name : String)
  | param (name key : String)
  | option (name key : String)
  /-- Sets `key` to all options, `null` for a handler without options. -/
  | options (key : String)
  | copy (source key : String)
  /-- Sets `key` to whether the state is failed and whether it is successful. -/
  | flags (key : String)
  /-- Adds one to a signed 64-bit integer; anything else becomes one. -/
  | increment (key : String)
  /-- Runs the continuation and sets `key`, if given, to whether the state is successful. -/
  | next (key : Option String)
  /-- The same, but a fault is caught and set as an object. -/
  | nextCatch (key : Option String)
  | count (key : Option String)
  | raise (fault : Fault)
  | ifTruthy (key : String) (yes no : List (Action ι))
  /-- Anything but a signed 64-bit integer counts as zero. -/
  | ifBelow (key : String) (bound : Int) (yes no : List (Action ι))
  | run (q : ι) (level : Level)
  | invoke (q : ι) (options : Options) (level : Level) (key : Option String)
  | give (value : Value)
  | giveKey (key : String)
  | giveOption (name : String)
  | giveSuccess

abbrev Script (ι : Type) := List (Action ι)

namespace Program

variable {ι : Type}

def store (key : Option String) (value : Value) (rest : Program ι) : Program ι :=
  match key with
  | some k => change (.set k value) rest
  | none => rest

def derive (key : String) (value : State → Value) (rest : Program ι) : Program ι :=
  read fun s => change (.set key (value s)) rest

end Program

def valueOf (v : Option Value) : Value := v.getD .null

def outcomeValue : Except Fault Value → Value
  | .ok v => v
  | .error f => f.value

variable {ι : Type}

mutual

def Action.andThen (options : Option Options) (rest : Program ι) : Action ι → Program ι
  | .set key value => .change (.set key value) rest
  | .remove key => .change (.remove key) rest
  | .fail => .change .fail rest
  | .record name => .change (.record name) rest
  | .param name key => .derive key (fun s => valueOf (s.param? name)) rest
  | .option name key => .change (.set key (valueOf (options.bind (·.get? name)))) rest
  | .options key => .change (.set key (valueOf (options.map Options.value))) rest
  | .copy source key => .derive key (fun s => valueOf (s.get? source)) rest
  | .flags key => .derive key (fun s => .array [.bool s.failed, .bool s.successful]) rest
  | .increment key => .derive key
      (fun s => match (s.get? key).bind Value.int64? with
        | some n => .int (n + 1)
        | none => .int 1) rest
  | .next key => .call .next fun v => .store key v rest
  | .nextCatch key => .attempt .next fun r => .store key (outcomeValue r) rest
  | .count key => .count fun n => .store key (.ofNat n) rest
  | .raise fault => .raise fault
  | .ifTruthy key yes no => .read fun s =>
      if (valueOf (s.get? key)).truthy then Action.allThen options rest yes
      else Action.allThen options rest no
  | .ifBelow key bound yes no => .read fun s =>
      if ((s.get? key).bind Value.int64?).getD 0 < bound then Action.allThen options rest yes
      else Action.allThen options rest no
  | .run q level => .call (.run q level) fun _ => rest
  | .invoke q o level key => .call (.invoke q o level) fun v => .store key v rest
  | .give value => .done value
  | .giveKey key => .read fun s => .done (valueOf (s.get? key))
  | .giveOption name => .done (valueOf (options.bind (·.get? name)))
  | .giveSuccess => .read fun s => .done (.bool s.successful)

def Action.allThen (options : Option Options) (rest : Program ι) : List (Action ι) → Program ι
  | [] => rest
  | a :: as => Action.andThen options (Action.allThen options rest as) a

end

namespace Script

/-- The program of a script, `true` if nothing else is given. -/
def program (options : Option Options) (script : Script ι) : Program ι :=
  Action.allThen options (.done (.bool true)) script

def bare (script : Script ι) : Callable ι := .bare (script.program none)

def withOptions (script : Script ι) : Callable ι :=
  .withOptions fun o => script.program (some o)

end Script

end Cascade
