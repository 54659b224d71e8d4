import Cascade.Tree.Instruction
import Cascade.Settings

/-! # Declarations

A pipeline is declared by a list of declarations; those in the body of a wrap become its children.
-/
namespace Cascade

inductive Declaration (ι : Type) where
  | step (handler : Handler ι) (options : Options)
  | failure (handler : Handler ι) (options : Options)
  | wrap (handler : Handler ι) (options : Options) (body : List (Declaration ι))
  | dependsOn (category : Category) (keys : List String)
  | container (registry : Registry ι)
  | debug (on : Bool)
  | logger (logger : Trace.Logger)
  /-- Notes how far the declaration has come. -/
  | probe

/-- A pipeline: its declarations, and the callables that answer for it when it is a handler of
others. The entry also ends every run of its tree. -/
structure Pipeline (ι : Type) where
  name : String
  declarations : List (Declaration ι)
  entry : Option (Callable ι) := none
  around : Option (Callable ι) := none

/-- The pipelines that know of each other, each under its index. -/
abbrev Family (ι : Type) := ι → Pipeline ι

def Family.signature {ι : Type} (family : Family ι) : Signature ι where
  name q := (family q).name
  wraps q := (family q).around.isSome

structure Tree (ι : Type) where
  roots : List (Instruction ι)
  settings : Settings ι

def Tree.depth {ι : Type} (t : Tree ι) : Nat := Instruction.depthOf t.roots

def Tree.inspect {ι : Type} (sig : Signature ι) (t : Tree ι) : String :=
  Text.record "Instructions"
    [("roots", Text.bracketed (Instruction.inspectAll sig t.roots)),
      ("settings", t.settings.inspect)]

end Cascade
