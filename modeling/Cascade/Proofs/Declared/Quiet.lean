import Cascade.Proofs.Declared.Agree
import Cascade.Proofs.Declared.Need

/-! # Declarations without diagnostics

Tracing a pipeline, and where the records go, is declared. Leaving these declarations out, at any
depth, changes neither the instructions nor the flaws, nor anything else that is settled or noted.
-/
namespace Cascade

variable {ι : Type}

namespace Declaration

mutual

/-- The declaration without debug and logger declarations in it; none if it is one. -/
def quiet : Declaration ι → List (Declaration ι)
  | wrap h o body => [wrap h o (quietOf body)]
  | debug _ | logger _ => []
  | d => [d]

def quietOf : List (Declaration ι) → List (Declaration ι)
  | [] => []
  | d :: rest => quiet d ++ quietOf rest

end

end Declaration

def Family.quiet (family : Family ι) : Family ι := fun q =>
  { family q with declarations := Declaration.quietOf (family q).declarations }

def Settings.quiet (s : Settings ι) : Settings ι := { container := s.container }

theorem Settings.container_of_quiet {s t : Settings ι} (h : s.quiet = t.quiet) :
    s.container = t.container := by
  have hc := congrArg Settings.container h
  exact hc

def Tree.quiet (t : Tree ι) : Tree ι := { t with settings := t.settings.quiet }

namespace Declaration

/-- Two lists of declarations that build the same, but for settings of the diagnostics. -/
structure Matches (ds es : List (Declaration ι)) : Prop extends Builds ds es where
  settled {s t : Settings ι} (h : s.quiet = t.quiet) :
    ((documentOf ds).foldl settle s).quiet = ((documentOf es).foldl settle t).quiet

namespace Matches

theorem symm {ds es : List (Declaration ι)} (h : Matches ds es) : Matches es ds where
  toBuilds := h.toBuilds.symm
  settled ht := (h.settled ht.symm).symm

theorem trans {cs ds es : List (Declaration ι)} (h : Matches cs ds) (h' : Matches ds es) :
    Matches cs es where
  toBuilds := h.toBuilds.trans h'.toBuilds
  settled ht := (h.settled ht).trans (h'.settled rfl)

theorem nil : Matches ([] : List (Declaration ι)) [] := ⟨.refl [],id⟩

theorem append {ds es ds' es' : List (Declaration ι)} (h : Matches ds es)
    (h' : Matches ds' es') : Matches (ds ++ ds') (es ++ es') where
  toBuilds := h.toBuilds.append h'.toBuilds
  settled ht := by
    rw [documentOf_append, documentOf_append, List.foldl_append, List.foldl_append]
    exact h'.settled (h.settled ht)

theorem wrap {body body' : List (Declaration ι)} (hb : Matches body body') (h : Handler ι)
    (o : Options) : Matches [.wrap h o body] [.wrap h o body'] where
  toBuilds := hb.toBuilds.wrap h o
  settled ht := by
    simp only [documentOf, document, List.append_nil, List.foldl_cons, settle]
    exact hb.settled ht

/-- A declaration that is a document by itself and keeps what is settled besides diagnostics. -/
theorem self {d : Declaration ι} (hd : d.document = [d])
    (hs : ∀ {s t : Settings ι}, s.quiet = t.quiet → (settle s d).quiet = (settle t d).quiet) :
    Matches [d] [d] where
  toBuilds := .refl [d]
  settled ht := by
    simp only [documentOf, hd, List.append_nil, List.foldl_cons, List.foldl_nil]
    exact hs ht

end Matches

theorem matches_quietOf_of {ds : List (Declaration ι)}
    (hd : ∀ d ∈ ds, Matches [d] (quiet d)) : Matches ds (quietOf ds) := by
  induction ds with
  | nil => exact .nil
  | cons d rest ih =>
    rw [quietOf]
    exact (hd d List.mem_cons_self).append (ih fun e he => hd e (List.mem_cons_of_mem d he))

/-- By induction on how deep the declaration goes. -/
theorem matches_quiet (d : Declaration ι) : Matches [d] (quiet d) := by
  induction d using Declaration.induction with
  | step _ _ | failure _ _ => exact .self rfl id
  | wrap h o body ih =>
    rw [quiet]
    exact (matches_quietOf_of ih).wrap h o
  | dependsOn category keys => exact .self rfl id
  | container r => exact .self rfl fun _ => rfl
  | debug _ | logger _ => exact ⟨⟨rfl,fun _ => rfl,fun _ _ => rfl⟩,id⟩
  | probe => exact .self rfl id

theorem matches_quietOf (ds : List (Declaration ι)) : Matches ds (quietOf ds) :=
  matches_quietOf_of fun d _ => d.matches_quiet

end Declaration

namespace Family

variable {family family' : Family ι} (h : family.quiet = family'.quiet)
include h

theorem signature_of_quiet : family.signature = family'.signature := by
  show family.quiet.signature = family'.quiet.signature
  rw [h]

theorem entry_of_quiet (q : ι) : (family q).entry = (family' q).entry := by
  have he := congrArg (fun f : Family ι => (f q).entry) h
  exact he

theorem around_of_quiet (q : ι) : (family q).around = (family' q).around := by
  have ha := congrArg (fun f : Family ι => (f q).around) h
  exact ha

theorem matches_of_quiet (q : ι) :
    Declaration.Matches (family q).declarations (family' q).declarations := by
  have hd : Declaration.quietOf (family q).declarations =
      Declaration.quietOf (family' q).declarations :=
    congrArg (fun f : Family ι => (f q).declarations) h
  have hf := Declaration.matches_quietOf (family q).declarations
  rw [hd] at hf
  exact hf.trans (Declaration.matches_quietOf _).symm

theorem declaring_of_quiet (q : ι) : family.declaring q = family'.declaring q := by
  unfold declaring
  rw [declared_eq, declared_eq, (matches_of_quiet h q).probes]

theorem compile_of_quiet (q : ι) :
    (family.compile q).map Tree.quiet = (family'.compile q).map Tree.quiet := by
  have hm := matches_of_quiet h q
  have hs : (Declaration.settingsOf (family q).declarations).quiet =
      (Declaration.settingsOf (family' q).declarations).quiet := hm.settled rfl
  unfold compile Builder.finish
  rw [declared_eq, declared_eq, ← signature_of_quiet h, hm.flaw, hm.image]
  cases (Declaration.documentOf (family' q).declarations).findSome?
    (Declaration.flaw? family.signature) with
  | some f => rfl
  | none =>
    simp only [Except.map, Tree.quiet, hs]

theorem compile_ok_of_quiet {q : ι} {t : Tree ι} (hc : family.compile q = .ok t) :
    ∃ t', family'.compile q = .ok t' ∧ t.quiet = t'.quiet := by
  have hm := compile_of_quiet h q
  rw [hc] at hm
  cases hc' : family'.compile q with
  | ok t' =>
    rw [hc'] at hm
    exact ⟨t',rfl,Except.ok.inj hm⟩
  | error f =>
    rw [hc'] at hm
    cases hm

theorem compile_error_of_quiet {q : ι} {f : Fault} (hc : family.compile q = .error f) :
    family'.compile q = .error f := by
  have hm := compile_of_quiet h q
  rw [hc] at hm
  cases hc' : family'.compile q with
  | ok t' =>
    rw [hc'] at hm
    cases hm
  | error f' =>
    rw [hc'] at hm
    cases hm
    rfl

end Family

end Cascade
