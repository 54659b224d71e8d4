import Cascade.Run.Exec

/-! # Running instructions

The instructions of a level run in order until the state is failed before one of them; then the
failure handlers from there on take over and the level ends. A gate on options binds the steps and
failure handlers after it on its own level, until the next such gate.
-/
namespace Cascade

open Json (Value)

/-- How handlers start pipelines. -/
structure Launch (ι : Type) where
  run : ι → Level → Exec ι Unit
  invoke : ι → Options → Level → Exec ι Value

variable {ι : Type}

/-! ## Programs -/

def noContinuation : Fault := .handler "no continuation"

namespace Call

def runs : Call ι → Nat
  | next => 1
  | _ => 0

def exec? (launch : Launch ι) (continuation : Option (Exec ι Unit)) :
    Call ι → Option (Exec ι Value)
  | next => continuation.map fun children => do
    children
    return .bool (← Exec.state).successful
  | run q level => some do
    launch.run q level
    return .null
  | invoke q options level => some (launch.invoke q options level)

end Call

/-- Runs a program that has run its continuation `runs` times before; gives its value and how often
it has run the continuation in all. -/
def Program.exec (launch : Launch ι) (continuation : Option (Exec ι Unit)) :
    Program ι → Nat → Exec ι (Value × Nat)
  | done v, runs => pure (v, runs)
  | raise f, _ => Exec.raise f
  | read rest, runs => do
    (rest (← Exec.state)).exec launch continuation runs
  | change c rest, runs => do
    Exec.change c
    rest.exec launch continuation runs
  | count rest, runs => match continuation with
    | some _ => (rest runs).exec launch continuation runs
    | none => Exec.raise noContinuation
  | call c rest, runs => match c.exec? launch continuation with
    | some x => do
      let v ← x
      (rest v).exec launch continuation (runs + c.runs)
    | none => Exec.raise noContinuation
  | attempt c rest, runs => match c.exec? launch continuation with
    | some x => do
      let r ← x.attempt
      (rest r).exec launch continuation (runs + c.runs)
    | none => Exec.raise noContinuation

def Program.value (launch : Launch ι) (p : Program ι) : Exec ι Value := do
  return (← p.exec launch none 0).1

/-! ## Instructions -/

structure Site (ι : Type) where
  pipeline : ι
  settings : Settings ι
  level : Level

namespace Gate

/-- The first key that the state, or its parameters, lack. Options are looked at when instructions
run. -/
def missing? (g : Gate) (s : State) : Option Key :=
  match g.category with
  | .state => g.keys.find? fun k => !s.contains k.raw
  | .params => g.keys.find? fun k => !s.containsParam k.raw
  | .options => none

def check (g : Gate) : Exec ι Unit := do
  let s ← Exec.state
  match g.missing? s with
  | some k => Exec.raise (.missingKey g.category k.raw s.text)
  | none => return

def requiredAfter (g : Gate) (required : List Key) : List Key :=
  if g.category = .options then g.keys else required

end Gate

def Options.lacking? (o : Options) (required : List Key) : Option Key :=
  required.find? fun k => !o.contains k.raw

variable (family : Family ι) (launch : Launch ι)

namespace Site

variable (site : Site ι)

def deeper : Site ι := { site with level := site.level + 1 }

def record (i : Instruction ι) (s : State) : Trace.Record where
  message := "Execute"
  level := site.level
  kind := i.kind
  handler := i.handler.name family.signature
  options := i.options.text
  state := s.text

def announce (i : Instruction ι) : Exec ι Unit := do
  let s ← Exec.state
  Exec.emit (.executing site.pipeline site.level i s)
  if site.settings.debug then
    Exec.emit (.logged site.settings.logger (site.record family i s))

/-- The pipeline that a name stands for in the container. -/
def resolve (entry : String) : Exec ι ι := do
  match site.settings.container with
  | none => Exec.raise (.noContainer entry)
  | some registry => match registry.resolve? entry with
    | none => Exec.raise (.unknownEntry entry)
    | some registration => return registration.pipelineFor (← Exec.state)

def dispatch (role : Role) (options : Options) : Handler ι → Exec ι Value
  | .function p => p.value launch
  | .pipeline q => launch.invoke q options (site.level + 1)
  | .named entry => do
    let q ← site.resolve entry
    launch.invoke q options (site.level + 1)
  | h@(.method m) =>
    if m.around then Exec.raise (.misconfigured (.dispatched (h.name family.signature) role))
    else (m.callable.program options).value launch
  | h => Exec.raise (.misconfigured (.dispatched (h.name family.signature) role))

/-- Runs a step or failure handler; a falsy result may fail the state. -/
def leaf (required : List Key) (role : Role) (i : Instruction ι) : Exec ι Unit := do
  match i.options.lacking? required with
  | some k => Exec.raise (.missingOption k.raw i.options.text)
  | none => do
    site.announce family i
    let result ← site.dispatch family launch role i.options i.handler
    Exec.emit (.returned site.pipeline site.level i result)
    if i.canFail result then Exec.setState (← Exec.state).fail

/-- Runs failure handlers up to the first that stops the cascade. -/
def runFailures (required : List Key) : List (Instruction ι) → Exec ι Unit
  | [] => return
  | i :: rest => do
    site.leaf family launch required .failure i
    if i.options.failFast then return else runFailures required rest

/-- Lets the failure handlers among the instructions that are left take over. -/
def cascade (required : List Key) (remaining : List (Instruction ι)) : Exec ι Unit := do
  Exec.emit (.cascading site.pipeline site.level)
  site.runFailures family launch required (remaining.filter Instruction.isFailure)

end Site

/-- Runs a pipeline in a wrap position; how deep it runs is up to its continuation. -/
def Family.invokeAround (q : ι) (options : Options) (continuation : Exec ι Unit) :
    Exec ι (Value × Nat) :=
  match (family q).around with
  | some c => (c.program options).exec launch (some continuation) 0
  | none => Exec.raise (.misconfigured (.noAroundEntry (family q).name))

def Handler.wrap (options : Options) (continuation : Exec ι Unit) :
    Handler ι → Exec ι (Value × Nat)
  | around p => p.exec launch (some continuation) 0
  | pipeline q => family.invokeAround launch q options continuation
  | h@(method m) =>
    if m.around then (m.callable.program options).exec launch (some continuation) 0
    else Exec.raise (.misconfigured (.dispatched (h.name family.signature) .wrap))
  | h => Exec.raise (.misconfigured (.dispatched (h.name family.signature) .wrap))

namespace Site

mutual

/-- Executes an instruction in a state that is not failed, and gives the required keys from there
on. Failure handlers are passed over. -/
def execute (site : Site ι) (required : List Key) : Instruction ι → Exec ι (List Key)
  | .step h o => do
    site.leaf family launch required .step (.step h o)
    return required
  | .failure .. => return required
  | .wrap h o children => do
    site.announce family (.wrap h o children)
    let (result, _) ← h.wrap family launch o (traverse site.deeper [] children)
    Exec.emit (.returned site.pipeline site.level (.wrap h o children) result)
    return required
  | .gate g => do
    site.announce family (.gate g)
    g.check
    return g.requiredAfter required

def traverse (site : Site ι) (required : List Key) : List (Instruction ι) → Exec ι Unit
  | [] => return
  | i :: rest => do
    if (← Exec.state).failed then site.cascade family launch required (i :: rest)
    else traverse site (← execute site required i) rest

end

end Site

end Cascade
