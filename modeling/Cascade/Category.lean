/-! # Categories

What the keys of a gate are looked for in: the state, the parameters of the call, or the options of
the instructions that follow.
-/
namespace Cascade

inductive Category where
  | state
  | params
  | options
deriving DecidableEq, Repr

def Category.name : Category → String
  | state => "state"
  | params => "params"
  | options => "options"

def Category.inspect : Category → String
  | state => "State"
  | params => "Params"
  | options => "Options"

end Cascade
