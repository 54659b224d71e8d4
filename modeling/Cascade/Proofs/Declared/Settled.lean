import Cascade.Proofs.Declared.Agree

/-! # What declarations settle

Settings are declared among the instructions, in any body. Each of them is settled by itself: the
last declaration of it in the document wins, wherever it stands. So settings may be declared
elsewhere, as long as those of one kind keep their order.
-/
namespace Cascade

variable {ι : Type}

namespace Declaration

def container? : Declaration ι → Option (Registry ι)
  | container r => some r
  | _ => none

def debug? : Declaration ι → Option Bool
  | debug on => some on
  | _ => none

def logger? : Declaration ι → Option Trace.Logger
  | logger l => some l
  | _ => none

/-- The last declaration of each kind wins, and what is not declared stays. -/
theorem foldl_settle (ds : List (Declaration ι)) (s : Settings ι) : ds.foldl settle s =
    { container := (ds.filterMap container?).getLast?.or s.container
      debug := (ds.filterMap debug?).getLast?.getD s.debug
      logger := (ds.filterMap logger?).getLast?.getD s.logger } := by
  induction ds generalizing s with
  | nil => rfl
  | cons d rest ih =>
    rw [List.foldl_cons, ih, List.filterMap_cons, List.filterMap_cons, List.filterMap_cons]
    cases d with
    | container r =>
      simp only [settle, container?, debug?, logger?, List.getLast?_cons]
      cases (rest.filterMap container?).getLast? <;> rfl
    | debug on => simp only [settle, container?, debug?, logger?, List.getLast?_cons]; rfl
    | logger l => simp only [settle, container?, debug?, logger?, List.getLast?_cons]; rfl
    | step _ _ | failure _ _ | wrap _ _ _ | dependsOn _ _ | probe => rfl

/-- Each setting is the last that is declared of its kind, in whatever body, or the default. -/
def lastOf (ds : List (Declaration ι)) : Settings ι where
  container := ((documentOf ds).filterMap container?).getLast?
  debug := ((documentOf ds).filterMap debug?).getLast?.getD false
  logger := ((documentOf ds).filterMap logger?).getLast?.getD .default

theorem settingsOf_eq (ds : List (Declaration ι)) : settingsOf ds = lastOf ds := by
  unfold settingsOf lastOf
  rw [foldl_settle]
  simp

/-! ## Settings declared elsewhere -/

mutual

/-- The declaration without settings in its bodies; none if it is a setting itself. -/
def bare : Declaration ι → List (Declaration ι)
  | wrap h o body => [wrap h o (bareOf body)]
  | container _ | debug _ | logger _ => []
  | d => [d]

def bareOf : List (Declaration ι) → List (Declaration ι)
  | [] => []
  | d :: rest => bare d ++ bareOf rest

end

/-- Nothing but settings stands elsewhere, and those of each kind stand in the same order. -/
structure Moved (ds es : List (Declaration ι)) : Prop where
  bare : bareOf ds = bareOf es
  container : (documentOf ds).filterMap container? = (documentOf es).filterMap container?
  debug : (documentOf ds).filterMap debug? = (documentOf es).filterMap debug?
  logger : (documentOf ds).filterMap logger? = (documentOf es).filterMap logger?

theorem builds_bareOf_of {ds : List (Declaration ι)} (hd : ∀ d ∈ ds, Builds [d] (bare d)) :
    Builds ds (bareOf ds) := by
  induction ds with
  | nil => exact .refl []
  | cons d rest ih =>
    rw [bareOf]
    exact (hd d List.mem_cons_self).append (ih fun e he => hd e (List.mem_cons_of_mem d he))

/-- By induction on how deep the declaration goes. -/
theorem builds_bare (d : Declaration ι) : Builds [d] (bare d) := by
  induction d using Declaration.induction with
  | step _ _ | failure _ _ | dependsOn _ _ | probe => exact .refl _
  | wrap h o body ih =>
    rw [bare]
    exact (builds_bareOf_of ih).wrap h o
  | container _ | debug _ | logger _ => exact ⟨rfl,fun _ => rfl,fun _ _ => rfl⟩

theorem builds_bareOf (ds : List (Declaration ι)) : Builds ds (bareOf ds) :=
  builds_bareOf_of fun d _ => d.builds_bare

/-- Whatever was declared before, a builder comes to the same. -/
theorem Moved.declareAll_eq {ds es : List (Declaration ι)} (h : Moved ds es) (sig : Signature ι)
    (b : Builder ι) : Builder.declareAll sig b ds = Builder.declareAll sig b es := by
  have hd := builds_bareOf ds
  have he := builds_bareOf es
  rw [← h.bare] at he
  rw [Builder.declareAll_eq, Builder.declareAll_eq]
  unfold Builder.after
  rw [foldl_settle, foldl_settle, h.container, h.debug, h.logger, hd.image, he.image, hd.flaw,
    he.flaw, hd.probes, he.probes]

end Declaration

/-- The same pipelines, with settings declared elsewhere. -/
structure Family.Rearranged (family family' : Family ι) : Prop where
  name (q : ι) : (family q).name = (family' q).name
  around (q : ι) : (family q).around = (family' q).around
  moved (q : ι) : Declaration.Moved (family q).declarations (family' q).declarations

theorem Family.Rearranged.declared_eq {family family' : Family ι} (h : family.Rearranged family')
    (q : ι) : family.declared q = family'.declared q := by
  unfold declared
  rw [← Family.signature_eq h.name h.around, (h.moved q).declareAll_eq]

end Cascade
