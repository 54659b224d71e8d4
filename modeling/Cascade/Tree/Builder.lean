import Cascade.Tree.Declaration

/-! # Building trees

A wrap is opened, its body declared, and then closed: what is declared meanwhile becomes a child of
the wrap opened last. A fault does not stop the declaration; the first one is kept, and no tree is
built.
-/
namespace Cascade

structure Scope (ι : Type) where
  handler : Handler ι
  options : Options
  children : List (Instruction ι)

/-- How far a declaration has come: wraps open, instructions at the top. -/
structure Probe where
  opened : Nat
  roots : Nat
deriving DecidableEq, Repr

structure Builder (ι : Type) where
  roots : List (Instruction ι) := []
  opened : List (Scope ι) := []
  settings : Settings ι := {}
  fault : Option Fault := none
  probes : List Probe := []

namespace Builder

variable {ι : Type}

def attach (b : Builder ι) (i : Instruction ι) : Builder ι :=
  match b.opened with
  | [] => { b with roots := b.roots ++ [i] }
  | scope :: outer =>
    { b with opened := { scope with children := scope.children ++ [i] } :: outer }

/-- Keeps the fault unless there is one. -/
def note (b : Builder ι) (f : Fault) : Builder ι := { b with fault := b.fault.or (some f) }

/-- Notes that the handler cannot stand in that position, if so. -/
def require (sig : Signature ι) (role : Role) (h : Handler ι) (fits : Bool) (b : Builder ι) :
    Builder ι :=
  if fits then b else b.note (.misconfigured (.declared (h.name sig) role))

def openScope (b : Builder ι) (h : Handler ι) (o : Options) : Builder ι :=
  { b with opened := ⟨h, o, []⟩ :: b.opened }

/-- Attaches the wrap opened last to the one opened before it. -/
def closeScope (b : Builder ι) : Builder ι :=
  match b.opened with
  | [] => b
  | scope :: outer =>
    { b with opened := outer }.attach (.wrap scope.handler scope.options scope.children)

def attachGate (b : Builder ι) (category : Category) (raws : List String) : Builder ι :=
  match Gate.ofStrings category raws with
  | .error f => b.note f
  | .ok g => if g.keys.isEmpty then b.note (.argument (.noKeys category)) else b.attach (.gate g)

mutual

def declare (sig : Signature ι) (b : Builder ι) : Declaration ι → Builder ι
  | .step h o => (b.require sig .step h h.canStep).attach (.step h o)
  | .failure h o => (b.require sig .failure h h.canStep).attach (.failure h o)
  | .wrap h o body =>
    (declareAll sig ((b.require sig .wrap h (h.canWrap sig)).openScope h o) body).closeScope
  | .dependsOn category keys => b.attachGate category keys
  | .container r => { b with settings := { b.settings with container := some r } }
  | .debug on => { b with settings := { b.settings with debug := on } }
  | .logger l => { b with settings := { b.settings with logger := l } }
  | .probe => { b with probes := b.probes ++ [⟨b.opened.length, b.roots.length⟩] }

def declareAll (sig : Signature ι) (b : Builder ι) : List (Declaration ι) → Builder ι
  | [] => b
  | d :: rest => declareAll sig (declare sig b d) rest

end

def finish (b : Builder ι) : Except Fault (Tree ι) :=
  match b.fault with
  | some f => .error f
  | none => .ok ⟨b.roots, b.settings⟩

end Builder

namespace Family

variable {ι : Type} (family : Family ι)

def declared (q : ι) : Builder ι :=
  Builder.declareAll family.signature {} (family q).declarations

def compile (q : ι) : Except Fault (Tree ι) := (family.declared q).finish

end Family

end Cascade
