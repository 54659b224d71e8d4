import Cascade.Proofs.Declared.Built

/-! # Well-formed trees

In a tree that is built every handler fits the position it stands in, at every depth: those of steps
and failure handlers can step, those of wraps can wrap, and gates have keys.
-/
namespace Cascade

variable {ι : Type}

/-- The faults of a handler that is dispatched in a position it does not fit. -/
def Fault.misplaced : Fault → Bool
  | misconfigured (.dispatched ..) | misconfigured (.noAroundEntry _) => true
  | _ => false

namespace Instruction

mutual

/-- An instruction and all below it. -/
def nodes : Instruction ι → List (Instruction ι)
  | wrap h o children => wrap h o children :: nodesOf children
  | i => [i]

def nodesOf : List (Instruction ι) → List (Instruction ι)
  | [] => []
  | i :: rest => nodes i ++ nodesOf rest

end

/-- The handler fits its position; only wraps have children, and gates have symbolic keys. -/
structure Fits (sig : Signature ι) (i : Instruction ι) : Prop where
  leaf : i.isStep = true ∨ i.isFailure = true → i.handler.canStep = true
  wrap : i.isWrap = true → i.handler.canWrap sig = true
  gate (g : Gate) : i.gate? = some g → g.keys ≠ [] ∧ ∀ k ∈ g.keys, Key.isSymbolic k.raw = true
  childless : i.isWrap = false → i.children = []

theorem mem_nodes_self (i : Instruction ι) : i ∈ i.nodes := by
  cases i <;> simp [nodes]

theorem nodesOf_append (is js : List (Instruction ι)) :
    nodesOf (is ++ js) = nodesOf is ++ nodesOf js := by
  induction is with
  | nil => rfl
  | cons i rest ih => rw [List.cons_append, nodesOf, nodesOf, ih, List.append_assoc]

theorem mem_nodesOf_of_mem {i j : Instruction ι} {is : List (Instruction ι)} (hi : i ∈ is)
    (hj : j ∈ i.nodes) : j ∈ nodesOf is := by
  induction is with
  | nil => cases hi
  | cons k rest ih =>
    rw [nodesOf, List.mem_append]
    rcases List.mem_cons.1 hi with rfl | hi
    · exact Or.inl hj
    · exact Or.inr (ih hi)

end Instruction

namespace Declaration

open Instruction (nodesOf)

theorem exists_of_mem_nodesOf_of {ds : List (Declaration ι)}
    (hd : ∀ d ∈ ds, ∀ i ∈ nodesOf d.image, ∃ e ∈ d.document, i ∈ e.image)
    {i : Instruction ι} (hi : i ∈ nodesOf (imageOf ds)) : ∃ e ∈ documentOf ds, i ∈ e.image := by
  induction ds with
  | nil => cases hi
  | cons d rest ih =>
    rw [imageOf, Instruction.nodesOf_append, List.mem_append] at hi
    rw [documentOf]
    rcases hi with hi | hi
    · obtain ⟨e,he,hie⟩ := hd d List.mem_cons_self i hi
      exact ⟨e,List.mem_append_left _ he,hie⟩
    · obtain ⟨e,he,hie⟩ := ih (fun c hc => hd c (List.mem_cons_of_mem d hc)) hi
      exact ⟨e,List.mem_append_right _ he,hie⟩

/-- Every instruction of a tree, at any depth, is the image of a declaration of the document. -/
theorem exists_of_mem_nodesOf_image (d : Declaration ι) {i : Instruction ι}
    (hi : i ∈ nodesOf d.image) : ∃ e ∈ d.document, i ∈ e.image := by
  induction d using Declaration.induction generalizing i with
  | step _ _ | failure _ _ => exact ⟨_,List.mem_singleton_self _,hi⟩
  | wrap h o body ih =>
    have hnodes : nodesOf (wrap h o body).image =
        .wrap h o (imageOf body) :: nodesOf (imageOf body) := by
      simp [image, nodesOf, Instruction.nodes]
    rw [hnodes, List.mem_cons] at hi
    rw [document]
    rcases hi with rfl | hi
    · refine ⟨_,List.mem_cons_self,?_⟩
      rw [image]
      exact List.mem_singleton_self _
    · obtain ⟨e,he,hie⟩ := exists_of_mem_nodesOf_of (fun c hc i hi => ih c hc hi) hi
      exact ⟨e,List.mem_cons_of_mem _ he,hie⟩
  | dependsOn category keys =>
    refine ⟨_,List.mem_singleton_self _,?_⟩
    rw [image] at hi ⊢
    split at hi
    · rename_i hc
      rw [if_pos hc]
      exact hi
    · cases hi
  | container _ | debug _ | logger _ | probe => cases hi

theorem exists_of_mem_nodesOf {ds : List (Declaration ι)} {i : Instruction ι}
    (hi : i ∈ nodesOf (imageOf ds)) : ∃ e ∈ documentOf ds, i ∈ e.image :=
  exists_of_mem_nodesOf_of (fun d _ _ => d.exists_of_mem_nodesOf_image) hi

/-- Without a flaw, the position of a handler is one that it fits. -/
theorem fits_of_mem_image {sig : Signature ι} {d : Declaration ι} (h : d.flaw? sig = none)
    {i : Instruction ι} (hi : i ∈ d.image) : i.Fits sig := by
  cases d with
  | step handler o =>
    cases List.mem_singleton.1 hi
    have hc : handler.canStep = true := by simpa [flaw?] using h
    exact ⟨fun _ => hc,by simp [Instruction.isWrap],by simp [Instruction.gate?],fun _ => rfl⟩
  | failure handler o =>
    cases List.mem_singleton.1 hi
    have hc : handler.canStep = true := by simpa [flaw?] using h
    exact ⟨fun _ => hc,by simp [Instruction.isWrap],by simp [Instruction.gate?],fun _ => rfl⟩
  | wrap handler o body =>
    rw [image] at hi
    cases List.mem_singleton.1 hi
    have hc : handler.canWrap sig = true := by simpa [flaw?] using h
    exact ⟨by simp [Instruction.isStep, Instruction.isFailure],fun _ => hc,
      by simp [Instruction.gate?],by simp [Instruction.isWrap]⟩
  | dependsOn category keys =>
    obtain ⟨g,hg,_,_,hkeys⟩ := image_dependsOn h
    rw [hg] at hi
    cases List.mem_singleton.1 hi
    refine ⟨by simp [Instruction.isStep, Instruction.isFailure],by simp [Instruction.isWrap],?_,
      fun _ => rfl⟩
    intro g' hg'
    cases hg'
    exact ⟨hkeys,fun k _ => k.symbolic⟩
  | container _ | debug _ | logger _ | probe => cases hi

end Declaration

/-- What is wrong with a declaration is found before anything is dispatched. -/
theorem Declaration.placed_of_flaw? {sig : Signature ι} {d : Declaration ι} {f : Fault}
    (h : d.flaw? sig = some f) : f.misplaced = false := by
  cases d with
  | step _ _ | failure _ _ | wrap _ _ _ =>
    rw [flaw?] at h
    split at h <;> cases h
    rfl
  | dependsOn category keys =>
    rw [flaw?] at h
    split at h
    · cases h
      rfl
    · split at h <;> cases h
      rfl
  | container _ | debug _ | logger _ | probe => cases h

/-- Trees that are built are well formed. -/
theorem Family.fits_of_compile {family : Family ι} {q : ι} {tree : Tree ι}
    (h : family.compile q = .ok tree) {i : Instruction ι}
    (hi : i ∈ Instruction.nodesOf tree.roots) : i.Fits family.signature := by
  obtain ⟨hflaw,rfl⟩ := (family.compile_eq_ok_iff q).1 h
  obtain ⟨d,hd,hid⟩ := Declaration.exists_of_mem_nodesOf hi
  exact Declaration.fits_of_mem_image (hflaw d hd) hid

end Cascade
