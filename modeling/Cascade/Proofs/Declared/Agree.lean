import Cascade.Proofs.Declared.Built

/-! # Declarations that agree

Two lists of declarations agree if they settle the same and meet the same first flaw. Then both
build trees with the same settings, or both are refused with the same fault. They build the same if
they meet the same first flaw, and declare and note the same; what they settle may differ then.
-/
namespace Cascade

variable {ι : Type} {sig : Signature ι}

open Declaration

structure Declaration.Agree (sig : Signature ι) (ds es : List (Declaration ι)) : Prop where
  flaw : (documentOf ds).findSome? (flaw? sig) = (documentOf es).findSome? (flaw? sig)
  settled (s : Settings ι) : (documentOf ds).foldl settle s = (documentOf es).foldl settle s

namespace Declaration.Agree

theorem refl (ds : List (Declaration ι)) : Agree sig ds ds := ⟨rfl,fun _ => rfl⟩

theorem trans {ds es fs : List (Declaration ι)} (h : Agree sig ds es) (h' : Agree sig es fs) :
    Agree sig ds fs := ⟨h.flaw.trans h'.flaw,fun s => (h.settled s).trans (h'.settled s)⟩

theorem append {ds es ds' es' : List (Declaration ι)} (h : Agree sig ds es)
    (h' : Agree sig ds' es') : Agree sig (ds ++ ds') (es ++ es') where
  flaw := by
    rw [documentOf_append, documentOf_append, List.findSome?_append, List.findSome?_append,
      h.flaw, h'.flaw]
  settled s := by
    rw [documentOf_append, documentOf_append, List.foldl_append, List.foldl_append, h.settled,
      h'.settled]

theorem cons {d e : Declaration ι} {ds es : List (Declaration ι)} (hd : Agree sig [d] [e])
    (h : Agree sig ds es) : Agree sig (d :: ds) (e :: es) := hd.append h

theorem wrap {body body' : List (Declaration ι)} (hb : Agree sig body body') (h : Handler ι)
    (o : Options) : Agree sig [.wrap h o body] [.wrap h o body'] where
  flaw := by
    simp only [documentOf, document, List.append_nil, List.findSome?_cons, flaw?, hb.flaw]
  settled s := by
    simp only [documentOf, document, List.append_nil, List.foldl_cons, settle, hb.settled]

/-- Declarations without flaws that settle nothing agree, whatever they declare. -/
theorem of_plain {ds es : List (Declaration ι)}
    (hd : ∀ d ∈ documentOf ds, d.flaw? sig = none ∧ ∀ s, settle s d = s)
    (he : ∀ d ∈ documentOf es, d.flaw? sig = none ∧ ∀ s, settle s d = s) : Agree sig ds es := by
  have hflaw : ∀ {ds : List (Declaration ι)},
      (∀ d ∈ documentOf ds, d.flaw? sig = none ∧ ∀ s, settle s d = s) →
      (documentOf ds).findSome? (flaw? sig) = none :=
    fun h => List.findSome?_eq_none_iff.2 fun d hd => (h d hd).1
  have hsettled : ∀ (ds : List (Declaration ι)) (s : Settings ι),
      (∀ d ∈ ds, d.flaw? sig = none ∧ ∀ s, settle s d = s) → ds.foldl settle s = s := by
    intro ds s h
    induction ds with
    | nil => rfl
    | cons d rest ih =>
      rw [List.foldl_cons, (h d List.mem_cons_self).2]
      exact ih fun c hc => h c (List.mem_cons_of_mem d hc)
  constructor
  · rw [hflaw hd, hflaw he]
  · intro s
    rw [hsettled _ s hd, hsettled _ s he]

end Declaration.Agree

/-- Both declare the same but for settings. -/
structure Declaration.Builds (ds es : List (Declaration ι)) : Prop where
  image : imageOf ds = imageOf es
  flaw (sig : Signature ι) : (documentOf ds).findSome? (flaw? sig) =
    (documentOf es).findSome? (flaw? sig)
  probes (opened roots : Nat) : probesOf opened roots ds = probesOf opened roots es

namespace Declaration.Builds

theorem refl (ds : List (Declaration ι)) : Builds ds ds := ⟨rfl,fun _ => rfl,fun _ _ => rfl⟩

theorem symm {ds es : List (Declaration ι)} (h : Builds ds es) : Builds es ds where
  image := h.image.symm
  flaw sig := (h.flaw sig).symm
  probes opened roots := (h.probes opened roots).symm

theorem trans {cs ds es : List (Declaration ι)} (h : Builds cs ds) (h' : Builds ds es) :
    Builds cs es where
  image := h.image.trans h'.image
  flaw sig := (h.flaw sig).trans (h'.flaw sig)
  probes opened roots := (h.probes opened roots).trans (h'.probes opened roots)

theorem append {ds es ds' es' : List (Declaration ι)} (h : Builds ds es) (h' : Builds ds' es') :
    Builds (ds ++ ds') (es ++ es') where
  image := by rw [imageOf_append, imageOf_append, h.image, h'.image]
  flaw sig := by
    rw [documentOf_append, documentOf_append, List.findSome?_append, List.findSome?_append,
      h.flaw, h'.flaw]
  probes opened roots := by
    rw [probesOf_append, probesOf_append, h.probes, h.image, h'.probes]

theorem wrap {body body' : List (Declaration ι)} (hb : Builds body body') (h : Handler ι)
    (o : Options) : Builds [.wrap h o body] [.wrap h o body'] where
  image := by simp only [imageOf, Declaration.image, hb.image]
  flaw sig := by
    simp only [documentOf, document, List.append_nil, List.findSome?_cons, flaw?, hb.flaw]
  probes opened roots := by
    simp only [probesOf, Declaration.probes, List.append_nil, hb.probes]

end Declaration.Builds

namespace Family

variable {family family' : Family ι} {q : ι}

theorem signature_eq (hn : ∀ q, (family q).name = (family' q).name)
    (ha : ∀ q, (family q).around = (family' q).around) : family.signature = family'.signature := by
  unfold signature
  rw [Signature.mk.injEq]
  refine ⟨funext hn,funext fun q => ?_⟩
  rw [ha]

/-- Both compile, to trees with the same settings, or both are refused with the same fault. -/
theorem compile_of_agree (hs : family.signature = family'.signature)
    (h : Agree family.signature (family q).declarations (family' q).declarations) :
    (family.compile q =
        .ok ⟨imageOf (family q).declarations, settingsOf (family q).declarations⟩ ∧
      family'.compile q =
        .ok ⟨imageOf (family' q).declarations, settingsOf (family q).declarations⟩) ∨
    ∃ f, family.compile q = .error f ∧ family'.compile q = .error f := by
  unfold compile Builder.finish
  rw [declared_eq, declared_eq, ← hs, ← h.flaw]
  have hsettings : settingsOf (family' q).declarations = settingsOf (family q).declarations :=
    (h.settled {}).symm
  cases (documentOf (family q).declarations).findSome? (flaw? family.signature) with
  | some f => exact Or.inr ⟨f,rfl,rfl⟩
  | none =>
    rw [hsettings]
    exact Or.inl ⟨rfl,rfl⟩

end Family

end Cascade
