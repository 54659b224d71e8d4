import Cascade.Proofs.Inlined.Declared

/-! # Wraps that are flattened

A wrap that does nothing but run its continuation may be left out, and what stands in its body be
declared in its place. The instructions that are moved up must not bear on those that they come to
stand among, nor be asked for option keys there. The trees are the same but for such wraps.
-/
namespace Cascade

open Declaration
open Instruction (inForce inForce_append)

variable {ι : Type}

/-! ## What may be moved -/

namespace Instruction

/-- It is no failure handler, and asks the others on its level for no option keys. -/
structure Movable (i : Instruction ι) : Prop where
  isFailure : i.isFailure = false
  optionKeys : i.optionKeys? = none

/-- The wrap only runs its children, and all of these may be moved. -/
inductive Transparent (family : Family ι) : Instruction ι → Prop where
  | wrap {h : Handler ι} {o : Options} {p : Program ι} {children : List (Instruction ι)}
    (hs : h.Surrounds family o p) (hp : p.PassesThrough) (hc : ∀ i ∈ children, i.Movable) :
    Transparent family (.wrap h o children)

theorem Movable.requiredAfter {i : Instruction ι} (hi : i.Movable) (required : List Key) :
    i.requiredAfter required = required := by
  cases i with
  | gate g =>
    have hg : (if g.category = .options then some g.keys else none) = none := hi.optionKeys
    have hcategory : g.category ≠ .options := fun h => by simp [h] at hg
    exact if_neg hcategory
  | _ => rfl

theorem filter_of_movable {is : List (Instruction ι)} (h : ∀ i ∈ is, i.Movable) :
    is.filter isFailure = [] :=
  List.filter_eq_nil_iff.2 fun i hi => by simp [(h i hi).isFailure]

theorem movable_wrap (h : Handler ι) (o : Options) (children : List (Instruction ι)) :
    (Instruction.wrap h o children).Movable := ⟨rfl,rfl⟩

end Instruction

/-! ## Declarations and instructions -/

/-- Some wraps of the first list, at any depth, are flattened, where the declarations before them
leave no option keys in force. All of these are `lifted`. -/
inductive Declaration.Flattens (family : Family ι) (lifted : Instruction ι → Prop) :
    List (Declaration ι) → List (Declaration ι) → List (Declaration ι) → Prop where
  | nil {before : List (Declaration ι)} : Flattens family lifted before [] []
  | keep {before : List (Declaration ι)} (d : Declaration ι) {ds ds' : List (Declaration ι)}
    (h : Flattens family lifted (before ++ [d]) ds ds') :
    Flattens family lifted before (d :: ds) (d :: ds')
  | wrap {before : List (Declaration ι)} (handler : Handler ι) (o : Options)
    {body body' ds ds' : List (Declaration ι)} (hb : Flattens family lifted [] body body')
    (h : Flattens family lifted (before ++ [.wrap handler o body]) ds ds') :
    Flattens family lifted before (.wrap handler o body :: ds) (.wrap handler o body' :: ds')
  | lift {before : List (Declaration ι)} {handler : Handler ι} {o : Options}
    {body body' ds ds' : List (Declaration ι)} (hl : lifted (.wrap handler o (imageOf body)))
    (ht : Instruction.Transparent family (.wrap handler o (imageOf body)))
    (hk : inForce (imageOf before) = []) (hb : Flattens family lifted [] body body')
    (h : Flattens family lifted (before ++ [.wrap handler o body]) ds ds') :
    Flattens family lifted before (.wrap handler o body :: ds) (body' ++ ds')

/-- The second family declares the same, but for wraps that are flattened. -/
structure Family.Flattens (family : Family ι) (lifted : ι → Instruction ι → Prop)
    (family' : Family ι) : Prop where
  name (q : ι) : (family q).name = (family' q).name
  entry (q : ι) : (family q).entry = (family' q).entry
  around (q : ι) : (family q).around = (family' q).around
  declarations (q : ι) : Declaration.Flattens family (lifted q) [] (family q).declarations
    (family' q).declarations

/-- Instructions of which some wraps are flattened, after others on the same level. -/
inductive Instruction.Flattens (family : Family ι) (lifted : Instruction ι → Prop) :
    List (Instruction ι) → List (Instruction ι) → List (Instruction ι) → Prop where
  | nil {before : List (Instruction ι)} : Flattens family lifted before [] []
  | keep {before : List (Instruction ι)} (i : Instruction ι) {is is' : List (Instruction ι)}
    (h : Flattens family lifted (before ++ [i]) is is') :
    Flattens family lifted before (i :: is) (i :: is')
  | wrap {before : List (Instruction ι)} (handler : Handler ι) (o : Options)
    {children children' is is' : List (Instruction ι)}
    (hc : Flattens family lifted [] children children')
    (h : Flattens family lifted (before ++ [.wrap handler o children]) is is') :
    Flattens family lifted before (.wrap handler o children :: is)
      (.wrap handler o children' :: is')
  | lift {before : List (Instruction ι)} {handler : Handler ι} {o : Options}
    {children children' is is' : List (Instruction ι)} (hl : lifted (.wrap handler o children))
    (ht : Transparent family (.wrap handler o children)) (hk : inForce before = [])
    (hc : Flattens family lifted [] children children')
    (h : Flattens family lifted (before ++ [.wrap handler o children]) is is') :
    Flattens family lifted before (.wrap handler o children :: is) (children' ++ is')

/-- Trees with the same settings, in which some wraps are flattened. -/
structure Tree.Flattens (family : Family ι) (lifted : Instruction ι → Prop) (tree tree' : Tree ι) :
    Prop where
  settings : tree.settings = tree'.settings
  roots : Instruction.Flattens family lifted [] tree.roots tree'.roots

variable {family family' : Family ι}

namespace Instruction.Flattens

variable {lifted : Instruction ι → Prop} {before is is' : List (Instruction ι)}

theorem keepAll (js : List (Instruction ι)) (h : Flattens family lifted (before ++ js) is is') :
    Flattens family lifted before (js ++ is) (js ++ is') := by
  induction js generalizing before with
  | nil =>
    rw [List.append_nil] at h
    exact h
  | cons j rest ih =>
    rw [List.append_cons] at h
    exact .keep j (ih h)

theorem movable (h : Flattens family lifted before is is') (hi : ∀ i ∈ is, i.Movable) :
    ∀ i ∈ is', i.Movable := by
  induction h with
  | nil => exact hi
  | keep i _ ih =>
    rw [List.forall_mem_cons] at hi ⊢
    exact ⟨hi.1,ih hi.2⟩
  | wrap handler o _ _ _ ih =>
    rw [List.forall_mem_cons] at hi ⊢
    exact ⟨movable_wrap handler o _,ih hi.2⟩
  | lift _ ht _ _ _ ihc ih =>
    obtain ⟨_,_,hc⟩ := ht
    rw [List.forall_mem_append]
    exact ⟨ihc hc,ih (List.forall_mem_cons.1 hi).2⟩

/-- The failure handlers of a level stay. -/
theorem filter_isFailure (h : Flattens family lifted before is is') :
    is.filter isFailure = is'.filter isFailure := by
  induction h with
  | nil => rfl
  | keep i _ ih => rw [List.filter_cons, List.filter_cons, ih]
  | wrap _ _ _ _ _ ih => exact ih
  | lift _ ht _ hc _ _ ih =>
    obtain ⟨_,_,hmovable⟩ := ht
    rw [List.filter_append, filter_of_movable (hc.movable hmovable)]
    exact ih

end Instruction.Flattens

namespace Declaration.Flattens

variable {lifted : Instruction ι → Prop} {before ds ds' : List (Declaration ι)}

theorem imageOf_flattens (h : Declaration.Flattens family lifted before ds ds') :
    Instruction.Flattens family lifted (imageOf before) (imageOf ds) (imageOf ds') := by
  induction h with
  | nil => exact .nil
  | keep d _ ih =>
    rw [imageOf_concat] at ih
    exact ih.keepAll d.image
  | wrap handler o _ _ ihb ih =>
    rw [imageOf_concat, image] at ih
    rw [imageOf, imageOf, image, image]
    exact .wrap handler o ihb ih
  | lift hl ht hk _ _ ihb ih =>
    rw [imageOf_concat, image] at ih
    rw [imageOf, imageOf_append, image]
    exact .lift hl ht hk ihb ih

/-- A wrap that is flattened has no flaw of its own and settles nothing by itself. -/
theorem agree (h : Declaration.Flattens family lifted before ds ds') :
    Agree family.signature ds ds' := by
  induction h with
  | nil => exact .refl []
  | keep d _ ih => exact .cons (.refl [d]) ih
  | wrap handler o _ _ ihb ih => exact (ihb.wrap handler o).append ih
  | @lift _ handler o body body' _ _ _ ht _ _ _ ihb ih =>
    obtain ⟨hs,_,_⟩ := ht
    have hself : (Declaration.wrap handler o body).flaw? family.signature = none := by
      rw [flaw?, hs.canWrap]
      rfl
    have hopened : Agree family.signature [.wrap handler o body] body := by
      constructor
      · rw [documentOf, documentOf, document, List.append_nil, List.findSome?_cons, hself]
      · intro s
        rw [documentOf, documentOf, document, List.append_nil, List.foldl_cons]
        rfl
    exact (hopened.trans ihb).append ih

end Declaration.Flattens

namespace Family.Flattens

variable {lifted : ι → Instruction ι → Prop} (h : family.Flattens lifted family')
include h

theorem signature : family.signature = family'.signature := signature_eq h.name h.around

theorem compile (q : ι) :
    (∃ tree tree', family.compile q = .ok tree ∧ family'.compile q = .ok tree' ∧
      tree.Flattens family (lifted q) tree') ∨
    ∃ f, family.compile q = .error f ∧ family'.compile q = .error f := by
  refine (compile_of_agree h.signature (h.declarations q).agree).imp_left fun ⟨hc,hc'⟩ => ?_
  exact ⟨_,_,hc,hc',rfl,(h.declarations q).imageOf_flattens⟩

end Family.Flattens

end Cascade
