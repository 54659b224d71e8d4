import Cascade.Category
import Cascade.Json.Text

/-! # Faults

A fault is a defect of a declaration or a handler and ends the run that meets it. Failing is not a
fault: it is recorded in the state. Each fault names its cause; `message` has the wording.
-/
namespace Cascade

open Json (Value)

inductive Role where
  | step
  | wrap
  | failure
deriving DecidableEq, Repr

def Role.name : Role → String
  | step => "step"
  | wrap => "wrap"
  | failure => "failure"

inductive ArgumentFault where
  | noKeys (category : Category)
  | notAnObject (value : Value)
  | stated (text : String)

def ArgumentFault.text : ArgumentFault → String
  | noKeys category => category.name ++ " dependency keys cannot be empty"
  | notAnObject value => "options must be an object, got " ++ value.text
  | stated text => text

/-- What is wrong with the place or the surroundings of a handler. -/
inductive Misuse where
  | declared (handler : String) (role : Role)
  | dispatched (handler : String) (role : Role)
  | noAroundEntry (pipeline : String)
  | notACallLog (value : Value)
  | stated (text : String)

def Misuse.text : Misuse → String
  | declared handler role => "handler '" ++ handler ++ "' cannot be used as a " ++ role.name
  | dispatched handler role => "handler '" ++ handler ++ "' cannot run as a " ++ role.name
  | noAroundEntry pipeline => pipeline ++ " has no around entry and cannot be used as a wrap"
  | notACallLog value => "'calls' holds " ++ value.text ++ ", not a call log"
  | stated text => text

inductive Fault where
  | invalidKey (key : String)
  | argument (cause : ArgumentFault)
  /-- A gate did not find a key on the state with this text. -/
  | missingKey (category : Category) (key : String) (state : String)
  /-- A gate did not find a key in the options with this text. -/
  | missingOption (key : String) (options : String)
  /-- A name was to be looked up without a container. -/
  | noContainer (entry : String)
  | unknownEntry (entry : String)
  | misconfigured (cause : Misuse)
  | handler (text : String)
  | serialization (text : String)

namespace Fault

/-- A short name that stays the same whatever the wording. -/
def kind : Fault → String
  | invalidKey _ => "InvalidKey"
  | argument _ => "ArgumentError"
  | missingKey .. => "MissingKey"
  | missingOption .. => "MissingOption"
  | noContainer _ => "NoContainer"
  | unknownEntry _ => "UnknownEntry"
  | misconfigured _ => "Misconfigured"
  | handler _ => "HandlerError"
  | serialization _ => "SerializationError"

def message : Fault → String
  | invalidKey key => "Invalid key '" ++ key ++ "': state keys must be symbolic identifiers"
  | argument cause => "Argument error: " ++ cause.text
  | missingKey category key state =>
    "Cannot find required " ++ category.name ++ " key :" ++ key ++ " on " ++ state
  | missingOption key options => "Cannot find required option :" ++ key ++ " on " ++ options
  | noContainer entry =>
    "Can't execute container's entry '" ++ entry
      ++ "'. You have to attach container to operation"
  | unknownEntry entry => "Can't execute container's entry '" ++ entry ++ "'. Not found"
  | misconfigured cause => "Misconfigured handler: " ++ cause.text
  | handler text => "Handler error: " ++ text
  | serialization text => "Serialization error: " ++ text

def details : Fault → List (String × Value)
  | invalidKey key | missingOption key _ => [("key", .string key)]
  | missingKey category key _ => [("category", .string category.name), ("key", .string key)]
  | noContainer entry | unknownEntry entry => [("entry", .string entry)]
  | _ => []

def dict (f : Fault) : Value :=
  .ofMap (.ofList (("type", .string f.kind) :: ("message", .string f.message) :: f.details))

def value (f : Fault) : Value :=
  .ofMap (.ofList [("error", .string f.kind), ("message", .string f.message)])

end Fault

end Cascade
