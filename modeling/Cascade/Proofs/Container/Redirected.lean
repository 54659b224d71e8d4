import Cascade.Proofs.Declared.Settled
import Cascade.Proofs.Level.Dispatch
import Cascade.Proofs.Likeness.Run

/-! # Names replaced by what they stand for

A step or failure handler that is given by a name may be replaced by the pipeline registered under
it. For a registration that names a pipeline this is done where the instruction is declared. For one
that chooses by the state it is done when the instruction is reached.
-/
namespace Cascade

variable {ι : Type}

/-! ## Instructions that stand for the same -/

/-- The same kind of instruction, with the same options and gate. -/
structure Instruction.Akin (i i' : Instruction ι) : Prop where
  kind : i.kind = i'.kind
  options : i.options = i'.options
  gate : i.gate? = i'.gate?

namespace Instruction.Akin

variable {i i' : Instruction ι}

theorem isStep (h : i.Akin i') : i.isStep = i'.isStep := by
  have hk := h.kind
  cases i <;> cases i' <;> first | rfl | simp [Instruction.kind] at hk

theorem isFailure (h : i.Akin i') : i.isFailure = i'.isFailure := by
  have hk := h.kind
  cases i <;> cases i' <;> first | rfl | simp [Instruction.kind] at hk

theorem canFail (h : i.Akin i') (result : Json.Value) : i.canFail result = i'.canFail result := by
  unfold Instruction.canFail
  rw [h.isFailure, h.options]

theorem verdict (h : i.Akin i') : i.verdict = i'.verdict := by
  funext result s
  unfold Instruction.verdict
  rw [h.isStep, h.canFail]

theorem lacking? (h : i.Akin i') (required : List Key) :
    i.lacking? required = i'.lacking? required := by
  rw [lacking?_eq, lacking?_eq, h.isStep, h.isFailure, h.options]

theorem inStep (h : i.Akin i') (required : List Key) : i.InStep required i' := by
  refine ⟨h.isFailure,fun _ => congrArg Options.failFast h.options,?_⟩
  rw [requiredAfter_eq, requiredAfter_eq, h.gate]

theorem trans {i'' : Instruction ι} (h : i.Akin i') (h' : i'.Akin i'') : i.Akin i'' :=
  ⟨h.kind.trans h'.kind,h.options.trans h'.options,h.gate.trans h'.gate⟩

end Instruction.Akin

theorem Instruction.Mates.akin {i i' : Instruction ι} (h : i.Mates i') : i.Akin i' := by
  cases h with
  | refl => exact ⟨rfl,rfl,rfl⟩
  | wrap => exact ⟨rfl,rfl,rfl⟩

/-- An instruction is another one, or both invoke the same pipeline in this state. -/
def Instruction.Stands (container : Option (Registry ι)) (s : State) (i i' : Instruction ι) :
    Prop :=
  i = i' ∨ (i.isStep = true ∨ i.isFailure = true) ∧ i.Akin i' ∧
    ∃ q, i.handler.StandsFor container s q ∧ i'.handler.StandsFor container s q

/-! ## Replaced in the declarations -/

/-- The container that a list of declarations settles is the last one in the document. -/
theorem Declaration.container_settingsOf (ds : List (Declaration ι)) :
    (settingsOf ds).container = ((documentOf ds).filterMap container?).getLast? := by
  rw [settingsOf_eq]
  rfl

/-- Some names of the first list, at any depth, are replaced by the pipelines that the container has
under them. -/
inductive Declaration.Redirects (container : Option (Registry ι)) :
    List (Declaration ι) → List (Declaration ι) → Prop where
  | nil : Redirects container [] []
  | keep (d : Declaration ι) {ds ds' : List (Declaration ι)} (h : Redirects container ds ds') :
    Redirects container (d :: ds) (d :: ds')
  | step {registry : Registry ι} {entry : String} {q : ι} {o : Options}
    {ds ds' : List (Declaration ι)} (hc : container = some registry)
    (hr : registry.resolve? entry = some (.pipeline q)) (h : Redirects container ds ds') :
    Redirects container (.step (.named entry) o :: ds) (.step (.pipeline q) o :: ds')
  | failure {registry : Registry ι} {entry : String} {q : ι} {o : Options}
    {ds ds' : List (Declaration ι)} (hc : container = some registry)
    (hr : registry.resolve? entry = some (.pipeline q)) (h : Redirects container ds ds') :
    Redirects container (.failure (.named entry) o :: ds) (.failure (.pipeline q) o :: ds')
  | wrap {handler : Handler ι} {o : Options} {body body' ds ds' : List (Declaration ι)}
    (hb : Redirects container body body') (h : Redirects container ds ds') :
    Redirects container (.wrap handler o body :: ds) (.wrap handler o body' :: ds')

/-- The second family declares the same, but for names that are replaced. -/
structure Family.Redirects (family family' : Family ι) : Prop where
  name (q : ι) : (family q).name = (family' q).name
  entry (q : ι) : (family q).entry = (family' q).entry
  around (q : ι) : (family q).around = (family' q).around
  declarations (q : ι) : Declaration.Redirects
    (Declaration.settingsOf (family q).declarations).container (family q).declarations
      (family' q).declarations

/-- Instructions of which some are replaced by others that stand for the same pipeline in every
state. -/
inductive Instruction.Redirects (container : Option (Registry ι)) :
    List (Instruction ι) → List (Instruction ι) → Prop where
  | nil : Redirects container [] []
  | keep {i : Instruction ι} {is is' : List (Instruction ι)} (hi : i.isWrap = false)
    (h : Redirects container is is') : Redirects container (i :: is) (i :: is')
  | step {q : ι} {h h' : Handler ι} {o : Options} {is is' : List (Instruction ι)}
    (hq : ∀ s, h.StandsFor container s q) (hq' : ∀ s, h'.StandsFor container s q)
    (hs : Redirects container is is') :
    Redirects container (.step h o :: is) (.step h' o :: is')
  | failure {q : ι} {h h' : Handler ι} {o : Options} {is is' : List (Instruction ι)}
    (hq : ∀ s, h.StandsFor container s q) (hq' : ∀ s, h'.StandsFor container s q)
    (hs : Redirects container is is') :
    Redirects container (.failure h o :: is) (.failure h' o :: is')
  | wrap {h : Handler ι} {o : Options} {children children' is is' : List (Instruction ι)}
    (hc : Redirects container children children') (hs : Redirects container is is') :
    Redirects container (.wrap h o children :: is) (.wrap h o children' :: is')

namespace Instruction.Redirects

variable {container : Option (Registry ι)}

theorem append {is is' js js' : List (Instruction ι)} (h : Redirects container is is')
    (hj : Redirects container js js') : Redirects container (is ++ js) (is' ++ js') := by
  induction h with
  | nil => exact hj
  | keep hi _ ih => exact .keep hi ih
  | step hq hq' _ ih => exact .step hq hq' ih
  | failure hq hq' _ ih => exact .failure hq hq' ih
  | wrap hc _ _ ih => exact .wrap hc ih

theorem refl_of {is : List (Instruction ι)} (h : ∀ i ∈ is, Redirects container [i] [i]) :
    Redirects container is is := by
  induction is with
  | nil => exact .nil
  | cons i rest ih =>
    exact (h i List.mem_cons_self).append (ih fun j hj => h j (List.mem_cons_of_mem i hj))

theorem refl (is : List (Instruction ι)) : Redirects container is is := by
  refine refl_of fun i hi => ?_
  clear hi
  induction i using Instruction.induction with
  | step _ _ | failure _ _ | gate _ => exact .keep rfl .nil
  | wrap h o children ih => exact .wrap (refl_of ih) .nil

end Instruction.Redirects

namespace Declaration.Redirects

open Declaration

variable {container : Option (Registry ι)} {ds ds' : List (Declaration ι)}

theorem imageOf_redirects (h : Redirects container ds ds') :
    Instruction.Redirects container (imageOf ds) (imageOf ds') := by
  induction h with
  | nil => exact .nil
  | keep d _ ih => exact (Instruction.Redirects.refl d.image).append ih
  | step hc hr _ ih => exact .step (fun _ => .named hc hr) (fun _ => .pipeline _) ih
  | failure hc hr _ ih => exact .failure (fun _ => .named hc hr) (fun _ => .pipeline _) ih
  | wrap _ _ ihb ih =>
    rw [imageOf, imageOf, image, image]
    exact .wrap ihb ih

/-- Both names and pipelines can stand where names do, and neither settles anything. -/
theorem agree (sig : Signature ι) (h : Redirects container ds ds') : Agree sig ds ds' := by
  induction h with
  | nil => exact .refl []
  | keep d _ ih => exact (Agree.refl [d]).append ih
  | step _ _ _ ih => exact .cons ⟨rfl,fun _ => rfl⟩ ih
  | failure _ _ _ ih => exact .cons ⟨rfl,fun _ => rfl⟩ ih
  | @wrap handler o _ _ _ _ _ _ ihb ih => exact (ihb.wrap handler o).append ih

end Declaration.Redirects

theorem Declaration.Redirects.probesOf_eq {container : Option (Registry ι)}
    {ds ds' : List (Declaration ι)} (h : Redirects container ds ds') (opened roots : Nat) :
    probesOf opened roots ds = probesOf opened roots ds' := by
  induction h generalizing opened roots with
  | nil => rfl
  | keep d _ ih => rw [probesOf, probesOf, ih]
  | step _ _ _ ih => exact ih _ _
  | failure _ _ _ ih => exact ih _ _
  | wrap _ _ ihb ih =>
    have hb := ihb (opened + 1) roots
    rw [probesOf, probesOf, Declaration.probes, Declaration.probes, hb, ih]
    rfl

theorem Family.Redirects.signature {family family' : Family ι} (h : family.Redirects family') :
    family.signature = family'.signature := signature_eq h.name h.around

/-- Trees with the same settings, whose instructions stand for the same pipelines. -/
structure Tree.Redirects (tree tree' : Tree ι) : Prop where
  settings : tree.settings = tree'.settings
  roots : Instruction.Redirects tree.settings.container tree.roots tree'.roots

/-- The trees of both families, where they compile, have names replaced. -/
theorem Family.Redirects.compile {family family' : Family ι} (h : family.Redirects family')
    (q : ι) :
    (∃ tree tree', family.compile q = .ok tree ∧ family'.compile q = .ok tree' ∧
      tree.Redirects tree') ∨
    ∃ f, family.compile q = .error f ∧ family'.compile q = .error f := by
  have hagree := (h.declarations q).agree family.signature
  refine (compile_of_agree h.signature hagree).imp_left fun ⟨hc,hc'⟩ => ?_
  exact ⟨_,_,hc,hc',rfl,(h.declarations q).imageOf_redirects⟩

theorem Family.Redirects.declaring {family family' : Family ι} (h : family.Redirects family')
    (q : ι) : family.declaring q = family'.declaring q := by
  unfold Family.declaring
  rw [declared_eq, declared_eq, (h.declarations q).probesOf_eq]

/-! ## Replaced when reached -/

/-- The handler that a name stands for in a state; any other handler stands for itself. -/
def Handler.direct (container : Option (Registry ι)) (s : State) : Handler ι → Handler ι
  | named entry => match container.bind (·.resolve? entry) with
    | some registration => .pipeline (registration.pipelineFor s)
    | none => .named entry
  | h => h

def Instruction.direct (container : Option (Registry ι)) (s : State) :
    Instruction ι → Instruction ι
  | step h o => .step (h.direct container s) o
  | failure h o => .failure (h.direct container s) o
  | i => i

section

variable {container : Option (Registry ι)} {s : State}

theorem Handler.StandsFor.direct {h : Handler ι} {q : ι} (hq : h.StandsFor container s q) :
    (h.direct container s).StandsFor container s q := by
  cases hq with
  | pipeline => exact .pipeline q
  | named hc hr =>
    simp only [Handler.direct, hc, Option.bind_some, hr]
    exact .pipeline _

theorem Handler.direct_eq_or (container : Option (Registry ι)) (s : State) (h : Handler ι) :
    h.direct container s = h ∨ ∃ q, h.StandsFor container s q := by
  cases h with
  | named entry =>
    cases container with
    | none => exact Or.inl rfl
    | some registry =>
      cases hr : registry.resolve? entry with
      | none =>
        simp [Handler.direct, hr]
      | some registration => exact Or.inr ⟨_,.named rfl hr⟩
  | _ => exact Or.inl rfl

theorem Instruction.akin_direct (i : Instruction ι) : i.Akin (i.direct container s) := by
  cases i <;> exact ⟨rfl,rfl,rfl⟩

theorem Instruction.handler_direct {i : Instruction ι} (hi : i.isStep = true ∨ i.isFailure = true) :
    (i.direct container s).handler = i.handler.direct container s := by
  cases i with
  | step _ _ | failure _ _ => rfl
  | wrap _ _ _ | gate _ => rcases hi with h | h <;> cases h

theorem Instruction.stands_direct (container : Option (Registry ι)) (s : State)
    (i : Instruction ι) : i.Stands container s (i.direct container s) := by
  cases i with
  | step h o =>
    rcases h.direct_eq_or container s with heq | ⟨q,hq⟩
    · exact Or.inl (congrArg (step · o) heq.symm)
    · exact Or.inr ⟨Or.inl rfl,akin_direct _,q,hq,hq.direct⟩
  | failure h o =>
    rcases h.direct_eq_or container s with heq | ⟨q,hq⟩
    · exact Or.inl (congrArg (failure · o) heq.symm)
    · exact Or.inr ⟨Or.inr rfl,akin_direct _,q,hq,hq.direct⟩
  | wrap _ _ _ | gate _ => exact Or.inl rfl

/-- What stands for an instruction still does so once it is replaced. -/
theorem Instruction.Stands.direct {i i' : Instruction ι} (h : i.Stands container s i') :
    i.Stands container s (i'.direct container s) := by
  rcases h with rfl | ⟨hleaf,hk,q,hq,hq'⟩
  · exact i.stands_direct container s
  · refine Or.inr ⟨hleaf,hk.trans (akin_direct i'),q,hq,?_⟩
    rw [hk.isStep, hk.isFailure] at hleaf
    rw [handler_direct hleaf]
    exact hq'.direct

end

/-- Which instructions are replaced when they are reached. -/
abbrev Choice (ι : Type) := Site ι → State → Instruction ι → Bool

variable (family : Family ι) (choice : Choice ι) (launch : Launch ι)

namespace Site

/-- Executes what the instruction is replaced by in the state that it is reached in. -/
def enactDirect (site : Site ι) (required : List Key) (i : Instruction ι) : Exec ι Unit := do
  let s ← Exec.state
  site.enact family launch required
    (if choice site s i then i.direct site.settings.container s else i)

mutual

def performDirect (site : Site ι) (required : List Key) : Instruction ι → Exec ι Unit
  | .wrap h o children =>
    site.surround family launch h o children (traverseDirect site.deeper [] children)
  | i => site.enactDirect family choice launch required i

/-- A level whose instructions are replaced when they are reached. -/
def traverseDirect (site : Site ι) (required : List Key) : List (Instruction ι) → Exec ι Unit
  | [] => return
  | i :: rest => do
    if (← Exec.state).failed then
      Exec.emit (.cascading site.pipeline site.level)
      (Instruction.cascade (i :: rest)).forM (site.enactDirect family choice launch required)
    else if i.isFailure then traverseDirect site required rest
    else
      performDirect site required i
      traverseDirect site (i.requiredAfter required) rest

end

end Site

namespace Site

theorem performDirect_of_not_isWrap {site : Site ι} {i : Instruction ι} (hi : i.isWrap = false)
    (required : List Key) : site.performDirect family choice launch required i =
      site.enactDirect family choice launch required i := by
  cases i with
  | wrap h o children => cases hi
  | _ => simp only [performDirect]

theorem traverseDirect_eq_walk (site : Site ι) (required : List Key) (is : List (Instruction ι)) :
    site.traverseDirect family choice launch required is =
      site.walk (site.performDirect family choice launch) required is := by
  have hleaf : ∀ required (i : Instruction ι), i.isFailure = true →
      site.enactDirect family choice launch required i =
        site.performDirect family choice launch required i := by
    intro required i hi
    cases i with
    | failure h o => exact (performDirect_of_not_isWrap family choice launch rfl required).symm
    | _ => cases hi
  induction is generalizing required with
  | nil => simp only [traverseDirect, walk]
  | cons i rest ih =>
    rw [traverseDirect, walk, Instruction.forM_cascade_congr fun j _ => hleaf required j]
    simp only [ih]

/-- If no instruction is chosen, none is replaced. -/
theorem performDirect_never (site : Site ι) (required : List Key) (i : Instruction ι) :
    site.performDirect family (fun _ _ _ => false) launch required i =
      site.enact family launch required i := by
  induction i using Instruction.induction generalizing site required with
  | step _ _ | failure _ _ | gate _ =>
    rw [performDirect_of_not_isWrap _ _ _ rfl]
    ext w
    exact Exec.bind_of_ok (Exec.state_apply w)
  | wrap h o children ih =>
    have hc : site.deeper.traverseDirect family (fun _ _ _ => false) launch [] children =
        site.deeper.traverse family launch [] children := by
      rw [traverseDirect_eq_walk, traverse_eq_walk]
      exact walk_congr (fun c hc keys => ih c hc site.deeper keys) []
    rw [performDirect, hc, enact_eq]
    rfl

theorem traverseDirect_never (site : Site ι) (required : List Key) (is : List (Instruction ι)) :
    site.traverseDirect family (fun _ _ _ => false) launch required is =
      site.traverse family launch required is := by
  rw [traverseDirect_eq_walk, traverse_eq_walk]
  exact walk_congr (fun i _ keys => performDirect_never family launch site keys i) required

end Site

namespace Family

def runDirect (need : ι → Exec ι (Tree ι)) (q : ι) (level : Level) : Exec ι Unit := do
  let tree ← start need q level
  family.round launch q level
    (Site.traverseDirect family choice launch ⟨q, tree.settings, level⟩ [] tree.roots)

/-- Pipelines whose instructions are replaced when they are reached. -/
def launchDirect (need : ι → Exec ι (Tree ι)) : Nat → Launch ι :=
  family.launchBy fun launch => family.runDirect choice launch need

theorem launchDirect_never (need : ι → Exec ι (Tree ι)) (depth : Nat) :
    family.launchDirect (fun _ _ _ => false) need depth = family.launchWith need depth := by
  rw [launchWith_eq]
  unfold launchDirect runDirect runWith
  simp only [Site.traverseDirect_never]

end Family

end Cascade
