import Cascade.Registry
import Cascade.Trace.Logger

/-! # Settings

What a pipeline carries beside its tree: the container for handlers given by name, whether its
instructions are traced, and where the records go.
-/
namespace Cascade

structure Settings (ι : Type) where
  container : Option (Registry ι) := none
  debug : Bool := false
  logger : Trace.Logger := .default

/-- The logger is not shown. -/
def Settings.inspect {ι : Type} (s : Settings ι) : String :=
  Text.partOfRecord "Settings"
    [("container", Text.flag s.container.isSome), ("debug", Text.flag s.debug)]

end Cascade
