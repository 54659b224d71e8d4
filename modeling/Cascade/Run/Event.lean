import Cascade.Tree.Builder

/-! # Events

What happens in a run, in order: what the diagnostics and the loggers are told, and what handlers do
and give back.
-/
namespace Cascade

open Json (Value)
open Trace (Report Severity Record Logger)

inductive Event (ι : Type) where
  | declaring (q : ι)
  | probed (p : Probe)
  | compiled (q : ι)
  | started (q : ι) (level : Level)
  | finished (q : ι) (level : Level) (success : Bool)
  /-- The failure handlers that are left on a level take over. -/
  | cascading (q : ι) (level : Level)
  /-- An instruction of `q` is executed in the state `before`. -/
  | executing (q : ι) (level : Level) (i : Instruction ι) (before : State)
  | logged (logger : Logger) (r : Record)
  | returned (q : ι) (level : Level) (i : Instruction ι) (result : Value)
  | entered (q : ι) (options : Options)
  | changed (c : Change)
  | raised (f : Fault) (s : State)

namespace Event

variable {ι : Type}

def report? (sig : Signature ι) : Event ι → Option Report
  | compiled q => some ⟨.debug, "Compiled instruction tree", [("operation", .string (sig.name q))]⟩
  | started q level =>
    some ⟨.debug, "Pipeline started",
      [("operation", .string (sig.name q)), ("level", .ofNat level.toNat)]⟩
  | finished q level success =>
    some ⟨.debug, "Pipeline finished",
      [("operation", .string (sig.name q)), ("level", .ofNat level.toNat),
        ("success", .bool success)]⟩
  | cascading q level =>
    some ⟨.debug, "Running failure handlers",
      [("operation", .string (sig.name q)), ("level", .ofNat level.toNat)]⟩
  | executing q level i _ =>
    some ⟨.trace, "Executing instruction",
      [("operation", .string (sig.name q)), ("level", .ofNat level.toNat), ("kind", .string i.kind),
        ("handler", .string (i.handler.name sig))]⟩
  | logged logger r => logger.report? r
  | _ => none

def collected? : Event ι → Option (String × Record)
  | logged (.collector id) r => some (id, r)
  | _ => none

end Event

end Cascade
