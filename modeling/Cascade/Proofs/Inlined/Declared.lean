import Cascade.Proofs.Placement
import Cascade.Proofs.Declared.Agree
import Cascade.Proofs.Level.Required

/-! # Pipelines declared in place

A step whose handler is a pipeline may be replaced by a wrap that does nothing but run its
continuation: the instructions of the pipeline are declared in its body then, without the settings.
The trees are the same but for such steps.
-/
namespace Cascade

open Declaration

variable {ι : Type}

/-! ## Declarations without settings -/

namespace Declaration

mutual

/-- The declaration without settings and notes in it; none if it is one. -/
def plain : Declaration ι → List (Declaration ι)
  | wrap h o body => [wrap h o (plainOf body)]
  | container _ | debug _ | logger _ | probe => []
  | d => [d]

def plainOf : List (Declaration ι) → List (Declaration ι)
  | [] => []
  | d :: rest => plain d ++ plainOf rest

end

theorem imageOf_plainOf_of {ds : List (Declaration ι)} (hd : ∀ d ∈ ds, imageOf d.plain = d.image) :
    imageOf (plainOf ds) = imageOf ds := by
  induction ds with
  | nil => rfl
  | cons d rest ih =>
    rw [plainOf, imageOf_append, imageOf, hd d List.mem_cons_self,
      ih fun e he => hd e (List.mem_cons_of_mem d he)]

theorem imageOf_plain (d : Declaration ι) : imageOf d.plain = d.image := by
  induction d using Declaration.induction with
  | wrap h o body ih =>
    simp only [plain, imageOf, image, imageOf_plainOf_of ih, List.append_nil]
  | step _ _ | failure _ _ | dependsOn _ _ => exact List.append_nil _
  | container _ | debug _ | logger _ | probe => rfl

theorem imageOf_plainOf (ds : List (Declaration ι)) : imageOf (plainOf ds) = imageOf ds :=
  imageOf_plainOf_of fun d _ => d.imageOf_plain

/-- It has no flaw and settles nothing. -/
def Harmless (sig : Signature ι) (d : Declaration ι) : Prop :=
  d.flaw? sig = none ∧ ∀ s, settle s d = s

variable {sig : Signature ι}

theorem harmless_plainOf_of {ds : List (Declaration ι)}
    (hd : ∀ d ∈ ds, ∀ e ∈ documentOf d.plain, e.Harmless sig) :
    ∀ e ∈ documentOf (plainOf ds), e.Harmless sig := by
  induction ds with
  | nil => exact fun e he => absurd he List.not_mem_nil
  | cons d rest ih =>
    intro e he
    rw [plainOf, documentOf_append, List.mem_append] at he
    rcases he with he | he
    · exact hd d List.mem_cons_self e he
    · exact ih (fun c hc => hd c (List.mem_cons_of_mem d hc)) e he

theorem mem_documentOf_of_mem {ds : List (Declaration ι)} {d e : Declaration ι} (hd : d ∈ ds)
    (he : e ∈ d.document) : e ∈ documentOf ds := by
  induction ds with
  | nil => cases hd
  | cons c rest ih =>
    rw [documentOf, List.mem_append]
    rcases List.mem_cons.1 hd with rfl | hd
    · exact Or.inl he
    · exact Or.inr (ih hd)

theorem harmless_plain (d : Declaration ι) (hd : ∀ e ∈ d.document, e.flaw? sig = none) :
    ∀ e ∈ documentOf d.plain, e.Harmless sig := by
  induction d using Declaration.induction with
  | wrap h o body ih =>
    have hbody : ∀ e ∈ documentOf (plainOf body), e.Harmless sig := by
      refine harmless_plainOf_of fun c hc => ih c hc fun e he => hd e ?_
      rw [document]
      exact List.mem_cons_of_mem _ (mem_documentOf_of_mem hc he)
    have hself : (wrap h o body).flaw? sig = none := by
      refine hd _ ?_
      rw [document]
      exact List.mem_cons_self
    intro e he
    rw [plain, documentOf, documentOf, document, List.append_nil] at he
    rcases List.mem_cons.1 he with rfl | he
    · exact ⟨hself,fun _ => rfl⟩
    · exact hbody e he
  | step _ _ | failure _ _ | dependsOn _ _ =>
    intro e he
    cases List.mem_singleton.1 he
    exact ⟨hd _ (List.mem_singleton_self _),fun _ => rfl⟩
  | container _ | debug _ | logger _ | probe => exact fun e he => absurd he List.not_mem_nil

theorem harmless_plainOf {ds : List (Declaration ι)}
    (hd : ∀ d ∈ documentOf ds, d.flaw? sig = none) :
    ∀ e ∈ documentOf (plainOf ds), e.Harmless sig :=
  harmless_plainOf_of fun d hd' => d.harmless_plain fun e he => hd e (mem_documentOf_of_mem hd' he)

end Declaration

/-! ## Handlers that run their continuation -/

/-- The program ends with a value, and does nothing but to look. -/
def Program.Ends : Program ι → Prop
  | done _ => True
  | read rest => ∀ s, (rest s).Ends
  | count rest => ∀ n, (rest n).Ends
  | raise _ | change .. | call .. | attempt .. => False

/-- The program runs its continuation once, and does nothing but to look before and after. -/
def Program.PassesThrough : Program ι → Prop
  | read rest => ∀ s, (rest s).PassesThrough
  | count rest => ∀ n, (rest n).PassesThrough
  | call .next rest => ∀ v, (rest v).Ends
  | attempt .next rest => (∀ v, (rest (.ok v)).Ends) ∧ ∀ f, rest (.error f) = .raise f
  | _ => False

variable {family family' : Family ι}

/-! ## Replaced in the declarations -/

/-- In the place of a step of `p`, the pipeline `q` can be declared instead: it has no entry, it
compiles, and its names stand for the same in both containers. -/
structure Family.Inlinable (family : Family ι) (p q : ι) : Prop where
  entry : (family q).entry = none
  compiles : ∃ tree, family.compile q = .ok tree
  names : (settingsOf (family q).declarations).container =
      (settingsOf (family p).declarations).container ∨
    ∀ i, family.Has q i → ∀ entry, i.handler ≠ .named entry

open Instruction (inForce inForce_append)

/-- Some steps of the first list, at any depth, are replaced; their options meet the keys in force
after the declarations before them. -/
inductive Declaration.Inlines (family : Family ι) (p : ι) :
    List (Declaration ι) → List (Declaration ι) → List (Declaration ι) → Prop where
  | nil {before : List (Declaration ι)} : Inlines family p before [] []
  | keep {before : List (Declaration ι)} (d : Declaration ι) {ds ds' : List (Declaration ι)}
    (h : Inlines family p (before ++ [d]) ds ds') : Inlines family p before (d :: ds) (d :: ds')
  | wrap {before : List (Declaration ι)} {handler : Handler ι} {o : Options}
    {body body' ds ds' : List (Declaration ι)} (hb : Inlines family p [] body body')
    (h : Inlines family p (before ++ [.wrap handler o body]) ds ds') :
    Inlines family p before (.wrap handler o body :: ds) (.wrap handler o body' :: ds')
  | step {before : List (Declaration ι)} {q : ι} {handler : Handler ι} {o o' : Options}
    {program : Program ι} {ds ds' : List (Declaration ι)} (hq : family.Inlinable p q)
    (hl : o.lacking? (inForce (imageOf before)) = none)
    (hs : handler.Surrounds family o' program) (hp : program.PassesThrough)
    (h : Inlines family p (before ++ [.step (.pipeline q) o]) ds ds') :
    Inlines family p before (.step (.pipeline q) o :: ds)
      (.wrap handler o' (plainOf (family q).declarations) :: ds')

/-- The second family declares the same, but for steps that are replaced. -/
structure Family.Inlines (family family' : Family ι) : Prop where
  name (q : ι) : (family q).name = (family' q).name
  entry (q : ι) : (family q).entry = (family' q).entry
  around (q : ι) : (family q).around = (family' q).around
  declarations (q : ι) :
    Declaration.Inlines family q [] (family q).declarations (family' q).declarations

/-- Instructions of which some steps are replaced, after others on the same level. -/
inductive Instruction.Inlines (family : Family ι) (p : ι) :
    List (Instruction ι) → List (Instruction ι) → List (Instruction ι) → Prop where
  | nil {before : List (Instruction ι)} : Inlines family p before [] []
  | keep {before : List (Instruction ι)} (i : Instruction ι) {is is' : List (Instruction ι)}
    (h : Inlines family p (before ++ [i]) is is') : Inlines family p before (i :: is) (i :: is')
  | wrap {before : List (Instruction ι)} {handler : Handler ι} {o : Options}
    {children children' is is' : List (Instruction ι)}
    (hc : Inlines family p [] children children')
    (h : Inlines family p (before ++ [.wrap handler o children]) is is') :
    Inlines family p before (.wrap handler o children :: is) (.wrap handler o children' :: is')
  | step {before : List (Instruction ι)} {q : ι} {tree : Tree ι} {handler : Handler ι}
    {o o' : Options} {program : Program ι} {is is' : List (Instruction ι)}
    (hq : family.Inlinable p q) (ht : family.compile q = .ok tree)
    (hl : o.lacking? (inForce before) = none) (hs : handler.Surrounds family o' program)
    (hp : program.PassesThrough)
    (h : Inlines family p (before ++ [.step (.pipeline q) o]) is is') :
    Inlines family p before (.step (.pipeline q) o :: is) (.wrap handler o' tree.roots :: is')

theorem Instruction.Inlines.keepAll {p : ι} {before is is' : List (Instruction ι)}
    (js : List (Instruction ι)) (h : Inlines family p (before ++ js) is is') :
    Inlines family p before (js ++ is) (js ++ is') := by
  induction js generalizing before with
  | nil =>
    rw [List.append_nil] at h
    exact h
  | cons j rest ih =>
    rw [List.append_cons] at h
    exact .keep j (ih h)

namespace Declaration.Inlines

variable {p : ι} {before ds ds' : List (Declaration ι)}

theorem imageOf_inlines (h : Declaration.Inlines family p before ds ds') :
    Instruction.Inlines family p (imageOf before) (imageOf ds) (imageOf ds') := by
  induction h with
  | nil => exact .nil
  | keep d _ ih =>
    rw [imageOf_concat] at ih
    exact ih.keepAll d.image
  | wrap _ _ ihb ih =>
    rw [imageOf_concat] at ih
    rw [imageOf, imageOf, image, image]
    rw [image] at ih
    exact .wrap ihb ih
  | @step before q handler o o' program ds ds' hq hl hs hp _ ih =>
    obtain ⟨tree,ht⟩ := hq.compiles
    have hroots : imageOf (family q).declarations = tree.roots := by
      obtain ⟨_,rfl⟩ := (family.compile_eq_ok_iff q).1 ht
      rfl
    rw [imageOf_concat] at ih
    rw [imageOf, imageOf, image, image, imageOf_plainOf, hroots]
    exact .step hq ht hl hs hp ih

/-- Neither a step that is replaced nor what it is replaced by has a flaw or settles anything. -/
theorem agree (h : Declaration.Inlines family p before ds ds') :
    Agree family.signature ds ds' := by
  induction h with
  | nil => exact .refl []
  | keep d _ ih => exact (Agree.refl [d]).append ih
  | @wrap _ handler o _ _ _ _ _ _ ihb ih => exact (ihb.wrap handler o).append ih
  | @step _ q handler o o' program _ _ hq _ hs _ _ ih =>
    obtain ⟨tree,ht⟩ := hq.compiles
    obtain ⟨hflaw,_⟩ := (family.compile_eq_ok_iff q).1 ht
    refine .cons (.of_plain ?_ ?_) ih
    · intro d hd
      cases List.mem_singleton.1 hd
      exact ⟨rfl,fun _ => rfl⟩
    · intro d hd
      rw [documentOf, documentOf, document, List.append_nil] at hd
      rcases List.mem_cons.1 hd with rfl | hd
      · refine ⟨?_,fun _ => rfl⟩
        rw [flaw?, hs.canWrap]
        rfl
      · exact harmless_plainOf hflaw d hd

end Declaration.Inlines

/-- Trees with the same settings, in which some steps are replaced. -/
structure Tree.Inlines (family : Family ι) (p : ι) (tree tree' : Tree ι) : Prop where
  settings : tree.settings = tree'.settings
  container : tree.settings.container = (settingsOf (family p).declarations).container
  roots : Instruction.Inlines family p [] tree.roots tree'.roots

namespace Family.Inlines

variable (h : family.Inlines family')
include h

theorem signature : family.signature = family'.signature := signature_eq h.name h.around

theorem compile (q : ι) :
    (∃ tree tree', family.compile q = .ok tree ∧ family'.compile q = .ok tree' ∧
      tree.Inlines family q tree') ∨
    ∃ f, family.compile q = .error f ∧ family'.compile q = .error f := by
  refine (compile_of_agree h.signature (h.declarations q).agree).imp_left fun ⟨hc,hc'⟩ => ?_
  exact ⟨_,_,hc,hc',rfl,rfl,(h.declarations q).imageOf_inlines⟩

end Family.Inlines

end Cascade
