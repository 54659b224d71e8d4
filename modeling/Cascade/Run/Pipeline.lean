import Cascade.Run.Traversal

/-! # Running pipelines

A pipeline is compiled when its tree is first needed; a tree is kept, a fault is not. A run starts
with the tree and ends with the entry point, if there is one. Pipelines may start each other to a
depth that is given.
-/
namespace Cascade

open Json (Value)

variable {ι : Type} (family : Family ι)

def Family.build (q : ι) : Exec ι (Tree ι) := do
  Exec.emit (.declaring q)
  Exec.emitAll ((family.declared q).probes.map .probed)
  let tree ← Exec.ofExcept (family.compile q)
  Exec.emit (.compiled q)
  return tree

/-- The tree of a pipeline, built if it was not needed before. -/
def Family.tree [DecidableEq ι] (q : ι) : Exec ι (Tree ι) := fun w =>
  match w.forest.find? q with
  | some tree => ⟨.ok tree, w, []⟩
  | none =>
    (do
      let tree ← family.build q
      fun w => ⟨.ok tree, { w with forest := (q, tree) :: w.forest }, []⟩ : Exec ι (Tree ι)) w

variable (launch : Launch ι)

def enter (q : ι) (entry : Callable ι) (options : Options) : Exec ι Value := do
  Exec.emit (.entered q options)
  (entry.program options).value launch

/-- Runs a tree for a pipeline. The entry is given the parameters as the tree left them; what it
gives back does not matter. -/
def Tree.run (tree : Tree ι) (q : ι) (level : Level) : Exec ι Unit := do
  Exec.emit (.started q level)
  Site.traverse family launch ⟨q, tree.settings, level⟩ [] tree.roots
  if let some entry := (family q).entry then
    let s ← Exec.state
    let _ ← enter launch q entry (.ofParams s.params?)
  Exec.emit (.finished q level (← Exec.state).successful)

/-- Runs a pipeline as a handler: its entry if it has one, else its tree; then the value tells
whether the state is still successful. -/
def Family.invokeWith (need : ι → Exec ι (Tree ι)) (q : ι) (options : Options) (level : Level) :
    Exec ι Value :=
  match (family q).entry with
  | some entry => enter launch q entry options
  | none => do
    (← need q).run family launch q level
    return .bool (← Exec.state).successful

/-- Starts pipelines within each other up to `depth` times; `need` gives their trees. -/
def Family.launchWith (need : ι → Exec ι (Tree ι)) : Nat → Launch ι
  | 0 => ⟨fun _ _ => Exec.tooDeep, fun _ _ _ => Exec.tooDeep⟩
  | depth + 1 =>
    { run := fun q level => do (← need q).run family (launchWith need depth) q level
      invoke := fun q options level =>
        family.invokeWith (launchWith need depth) need q options level }

namespace Family

variable [DecidableEq ι]

def run (depth : Nat) (q : ι) (level : Level) : Exec ι Unit :=
  (family.launchWith family.tree depth).run q level

def invoke (depth : Nat) (q : ι) (options : Options) (level : Level) : Exec ι Value :=
  (family.launchWith family.tree depth).invoke q options level

/-- Runs a pipeline on parameters: the world it leaves has the final state. -/
def call (depth : Nat) (q : ι) (params : Value) : Exec ι Unit := do
  Exec.setState (.withParams params)
  family.run depth q 0

end Family

end Cascade
