import Cascade.Proofs.Leeway.Basic
import Cascade.Proofs.Level.Dispatch

/-! # Other options for steps that nest pipelines

A step may nest a pipeline: in every state its handler stands for one that has no entry. Such a step
may be given other options, as long as these have the keys that are required where it stands.
-/
namespace Cascade

variable {ι : Type} {family family' : Family ι}

/-- In every state the handler stands for a pipeline without entry. -/
def Handler.Nests (family : Family ι) (container : Option (Registry ι)) (h : Handler ι) : Prop :=
  ∀ s, ∃ q, h.StandsFor container s q ∧ (family q).entry = none

/-- A name does so if whatever is picked for it has no entry. -/
theorem Handler.nests_named {registry : Registry ι} {entry : String} {registration : Registration ι}
    (hr : registry.resolve? entry = some registration)
    (he : ∀ s, (family (registration.pipelineFor s)).entry = none) :
    (named entry).Nests family (some registry) :=
  fun s => ⟨_,.named rfl hr,he s⟩

/-- Some steps of the first list, at any depth, that nest pipelines have other options in the
second. Both have the keys that are required of the step. -/
inductive Instruction.Reoptions (family : Family ι) (container : Option (Registry ι)) :
    List Key → List (Instruction ι) → List (Instruction ι) → Prop where
  | nil {required : List Key} : Reoptions family container required [] []
  | keep {required : List Key} (i : Instruction ι) {is is' : List (Instruction ι)}
    (hr : Reoptions family container (i.requiredAfter required) is is') :
    Reoptions family container required (i :: is) (i :: is')
  | wrap {required : List Key} {h : Handler ι} {o : Options}
    {children children' is is' : List (Instruction ι)}
    (hc : Reoptions family container [] children children')
    (hr : Reoptions family container required is is') :
    Reoptions family container required (.wrap h o children :: is) (.wrap h o children' :: is')
  | step {required : List Key} {h : Handler ι} {o o' : Options} {is is' : List (Instruction ι)}
    (hn : h.Nests family container) (ho : o.lacking? required = none)
    (ho' : o'.lacking? required = none) (hr : Reoptions family container required is is') :
    Reoptions family container required (.step h o :: is) (.step h o' :: is')

/-- Trees with the same settings, in which steps that nest pipelines may have other options. -/
structure Tree.Reoptions (family : Family ι) (tree tree' : Tree ι) : Prop where
  settings : tree.settings = tree'.settings
  roots : Instruction.Reoptions family tree.settings.container [] tree.roots tree'.roots

/-- The second family declares the same up to options. In the trees that compile these differ for
steps that nest pipelines at most. -/
structure Family.Reoptions (family family' : Family ι) : Prop where
  name (q : ι) : (family q).name = (family' q).name
  entry (q : ι) : (family q).entry = (family' q).entry
  around (q : ι) : (family q).around = (family' q).around
  declarations (q : ι) :
    Declaration.UpTo (fun _ _ => True) (family q).declarations (family' q).declarations
  trees {q : ι} {tree tree' : Tree ι} (hc : family.compile q = .ok tree)
    (hc' : family'.compile q = .ok tree') :
    Instruction.Reoptions family tree.settings.container [] tree.roots tree'.roots

namespace Family.Reoptions

variable (h : family.Reoptions family')
include h

theorem signature : family.signature = family'.signature := signature_eq h.name h.around

theorem compile (q : ι) :
    (∃ tree tree', family.compile q = .ok tree ∧ family'.compile q = .ok tree' ∧
      tree.Reoptions family tree') ∨
    ∃ f, family.compile q = .error f ∧ family'.compile q = .error f := by
  have hagree : Declaration.Agree family.signature (family q).declarations
      (family' q).declarations := (h.declarations q).agree
  refine (compile_of_agree h.signature hagree).imp_left fun ⟨hc,hc'⟩ => ?_
  exact ⟨_,_,hc,hc',rfl,h.trees hc hc'⟩

end Family.Reoptions

end Cascade
