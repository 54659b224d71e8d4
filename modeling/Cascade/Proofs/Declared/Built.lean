import Cascade.Proofs.Declared.Image

/-! # Building follows the document

Whatever has been declared before, a list of declarations adds its image to the scope that is open,
its settings to the settings, its notes to the notes, and its first flaw if there was none before.
Scopes opened on the way are closed again.
-/
namespace Cascade

variable {ι : Type}

open Declaration

namespace Builder

/-- Attaches instructions to the wrap opened last, or at the top if none is open. -/
def attachAll (b : Builder ι) (is : List (Instruction ι)) : Builder ι :=
  match b.opened with
  | [] => { b with roots := b.roots ++ is }
  | scope :: outer =>
    { b with opened := { scope with children := scope.children ++ is } :: outer }

/-- What a builder has come to once instructions, settings, flaws and notes are added to it. -/
def extend (b : Builder ι) (is : List (Instruction ι)) (settled : Settings ι)
    (flaw : Option Fault) (noted : List Probe) : Builder ι :=
  { b.attachAll is with
    settings := settled
    fault := b.fault.or flaw
    probes := b.probes ++ noted }

variable (sig : Signature ι)

def afterOne (b : Builder ι) (d : Declaration ι) : Builder ι :=
  b.extend d.image (d.document.foldl settle b.settings) (d.document.findSome? (flaw? sig))
    (d.probes b.opened.length b.roots.length)

def after (b : Builder ι) (ds : List (Declaration ι)) : Builder ι :=
  b.extend (imageOf ds) ((documentOf ds).foldl settle b.settings)
    ((documentOf ds).findSome? (flaw? sig)) (probesOf b.opened.length b.roots.length ds)

theorem attachAll_nil (b : Builder ι) : b.attachAll [] = b := by
  rcases b with ⟨roots, _ | ⟨scope, outer⟩, settings, fault, probes⟩ <;> simp [attachAll]

@[simp] theorem length_opened_extend (b : Builder ι) (is : List (Instruction ι)) (s : Settings ι)
    (f : Option Fault) (ps : List Probe) :
    (b.extend is s f ps).opened.length = b.opened.length := by
  rcases b with ⟨roots, _ | ⟨scope, outer⟩, settings, fault, probes⟩ <;> rfl

@[simp] theorem length_roots_extend (b : Builder ι) (is : List (Instruction ι)) (s : Settings ι)
    (f : Option Fault) (ps : List Probe) : (b.extend is s f ps).roots.length =
      if b.opened.length = 0 then b.roots.length + is.length else b.roots.length := by
  rcases b with ⟨roots, _ | ⟨scope, outer⟩, settings, fault, probes⟩ <;>
    simp [extend, attachAll]

@[simp] theorem settings_extend (b : Builder ι) (is : List (Instruction ι)) (s : Settings ι)
    (f : Option Fault) (ps : List Probe) : (b.extend is s f ps).settings = s := rfl

@[simp] theorem extend_extend (b : Builder ι) (is js : List (Instruction ι)) (s t : Settings ι)
    (f g : Option Fault) (ps qs : List Probe) :
    (b.extend is s f ps).extend js t g qs = b.extend (is ++ js) t (f.or g) (ps ++ qs) := by
  rcases b with ⟨roots, _ | ⟨scope, outer⟩, settings, fault, probes⟩ <;>
    simp [extend, attachAll, Option.or_assoc]

@[simp] theorem extend_refl (b : Builder ι) : b.extend [] b.settings none [] = b := by
  unfold extend
  rw [attachAll_nil, Option.or_none, List.append_nil]

theorem after_nil (b : Builder ι) : b.after sig [] = b := b.extend_refl

theorem after_cons (b : Builder ι) (d : Declaration ι) (rest : List (Declaration ι)) :
    b.after sig (d :: rest) = (b.afterOne sig d).after sig rest := by
  unfold after afterOne
  rw [extend_extend, length_opened_extend, length_roots_extend, settings_extend, imageOf,
    documentOf, probesOf, List.foldl_append, List.findSome?_append]

/-! ## Single declarations -/

theorem attach_eq (b : Builder ι) (i : Instruction ι) :
    b.attach i = b.extend [i] b.settings none [] := by
  rcases b with ⟨roots, _ | ⟨scope, outer⟩, settings, fault, probes⟩ <;>
    simp [attach, extend, attachAll]

theorem note_eq (b : Builder ι) (f : Fault) : b.note f = b.extend [] b.settings (some f) [] := by
  unfold extend
  rw [attachAll_nil, List.append_nil]
  rfl

theorem require_eq (role : Role) (h : Handler ι) (fits : Bool) (b : Builder ι) :
    b.require sig role h fits = b.extend [] b.settings
      (if fits then none else some (.misconfigured (.declared (h.name sig) role))) [] := by
  unfold require
  cases fits with
  | true => exact b.extend_refl.symm
  | false => exact b.note_eq _

/-- What is added to a scope between its opening and its closing goes into its wrap. -/
theorem closeScope_extend (b : Builder ι) (h : Handler ι) (o : Options)
    (is : List (Instruction ι)) (s : Settings ι) (f : Option Fault) (ps : List Probe) :
    ((b.openScope h o).extend is s f ps).closeScope = b.extend [.wrap h o is] s f ps := by
  have hclose : ((b.openScope h o).extend is s f ps).closeScope =
      (Builder.mk b.roots b.opened s (b.fault.or f) (b.probes ++ ps)).attach (.wrap h o is) := rfl
  rw [hclose, attach_eq]
  unfold extend
  rw [Option.or_none, List.append_nil]
  rcases b with ⟨roots, _ | ⟨scope, outer⟩, settings, fault, probes⟩ <;> rfl

theorem attachGate_eq (b : Builder ι) (category : Category) (keys : List String) :
    b.attachGate category keys = b.extend (Declaration.image (.dependsOn category keys)) b.settings
      (Declaration.flaw? sig (.dependsOn category keys)) [] := by
  unfold attachGate
  rw [Gate.ofStrings_eq, image, flaw?]
  cases hfind : keys.find? fun raw => !Key.isSymbolic raw with
  | some raw =>
    have hall : keys.all Key.isSymbolic = false := by
      obtain ⟨hraw,before,after,rfl,_⟩ := List.find?_eq_some_iff_append.1 hfind
      simp_all
    simp only [hall]
    exact b.note_eq _
  | none =>
    have hall : keys.all Key.isSymbolic = true := by
      simpa using hfind
    cases keys with
    | nil => exact b.note_eq _
    | cons raw rest =>
      have hraw : Key.isSymbolic raw = true := by
        rw [List.all_cons, Bool.and_eq_true] at hall
        exact hall.1
      simp only [hall, List.filterMap_cons, Key.ofString?_of_symbolic hraw]
      exact b.attach_eq _

theorem declareAll_eq_of {ds : List (Declaration ι)}
    (hd : ∀ d ∈ ds, ∀ b : Builder ι, declare sig b d = b.afterOne sig d) (b : Builder ι) :
    declareAll sig b ds = b.after sig ds := by
  induction ds generalizing b with
  | nil => exact (b.after_nil sig).symm
  | cons d rest ih =>
    rw [declareAll, hd d List.mem_cons_self, ih fun e he => hd e (List.mem_cons_of_mem d he),
      after_cons]

/-- By induction on how deep the declaration goes. -/
theorem declare_eq (d : Declaration ι) (b : Builder ι) : declare sig b d = b.afterOne sig d := by
  induction d using Declaration.induction generalizing b with
  | step h o =>
    rw [declare, require_eq, attach_eq]
    simp [afterOne, image, document, flaw?, Declaration.probes, settle]
  | failure h o =>
    rw [declare, require_eq, attach_eq]
    simp [afterOne, image, document, flaw?, Declaration.probes, settle]
  | wrap h o body ih =>
    rw [declare, declareAll_eq_of sig ih, after, closeScope_extend, require_eq, extend_extend]
    simp only [afterOne, image, document, Declaration.probes, List.foldl_cons, settle,
      List.findSome?_cons, flaw?]
    cases h.canWrap sig <;> simp [openScope]
  | dependsOn category keys =>
    rw [declare, attachGate_eq sig]
    simp [afterOne, document, Declaration.probes, settle]
  | container _ | debug _ | logger _ | probe =>
    simp [declare, afterOne, extend, attachAll_nil, image, document, Declaration.probes, settle,
      flaw?]

theorem declareAll_eq (ds : List (Declaration ι)) (b : Builder ι) :
    declareAll sig b ds = b.after sig ds :=
  declareAll_eq_of sig (fun d _ => declare_eq sig d) b

example (p : Program ι) : (declareAll sig {}
    [.step (.function p) .empty, .wrap (.around p) .empty [.probe], .probe]).probes =
      [⟨1, 1⟩, ⟨0, 2⟩] := rfl

theorem finish_eq_ok_iff {b : Builder ι} {tree : Tree ι} :
    b.finish = .ok tree ↔ b.fault = none ∧ tree = ⟨b.roots, b.settings⟩ := by
  unfold finish
  cases b.fault <;> simp [eq_comm]

theorem finish_eq_error_iff {b : Builder ι} {f : Fault} :
    b.finish = .error f ↔ b.fault = some f := by
  unfold finish
  cases b.fault <;> simp

end Builder

namespace Family

variable (family : Family ι) (q : ι)

theorem declared_eq : family.declared q =
    { roots := imageOf (family q).declarations
      opened := []
      settings := settingsOf (family q).declarations
      fault := (documentOf (family q).declarations).findSome? (flaw? family.signature)
      probes := probesOf 0 0 (family q).declarations } := by
  unfold declared
  rw [Builder.declareAll_eq]
  rfl

theorem compile_eq_ok_iff {tree : Tree ι} : family.compile q = .ok tree ↔
    (∀ d ∈ documentOf (family q).declarations, d.flaw? family.signature = none) ∧
      tree = ⟨imageOf (family q).declarations, settingsOf (family q).declarations⟩ := by
  unfold compile
  rw [Builder.finish_eq_ok_iff, declared_eq, List.findSome?_eq_none_iff]

theorem compile_eq_error_iff {f : Fault} : family.compile q = .error f ↔
    ∃ before d after, documentOf (family q).declarations = before ++ d :: after ∧
      (∀ e ∈ before, e.flaw? family.signature = none) ∧ d.flaw? family.signature = some f := by
  unfold compile
  rw [Builder.finish_eq_error_iff, declared_eq, List.findSome?_eq_some_iff]
  constructor
  · rintro ⟨before,d,after,hd,hf,hb⟩
    exact ⟨before,d,after,hd,hb,hf⟩
  · rintro ⟨before,d,after,hd,hb,hf⟩
    exact ⟨before,d,after,hd,hf,hb⟩

/-- A tree is built exactly if nothing in the document has a flaw, and then it is the image of the
declarations; each gate has become one with the same keys. Otherwise the first flaw in the document
is the fault. In any case the scopes are closed at the end, and each note tells the bodies it stands
in and the instructions that are at the top before it. -/
theorem compiled_exactly :
    (∀ tree, family.compile q = .ok tree ↔
      (∀ d ∈ documentOf (family q).declarations, d.flaw? family.signature = none) ∧
        tree = ⟨imageOf (family q).declarations, settingsOf (family q).declarations⟩) ∧
    (∀ f, family.compile q = .error f ↔
      ∃ before d after, documentOf (family q).declarations = before ++ d :: after ∧
        (∀ e ∈ before, e.flaw? family.signature = none) ∧
        d.flaw? family.signature = some f) ∧
    (∀ category keys, Declaration.flaw? family.signature (.dependsOn category keys) = none →
      ∃ g : Gate, (Declaration.dependsOn category keys : Declaration ι).image = [.gate g] ∧
        g.category = category ∧ g.keys.map Key.raw = keys ∧ g.keys ≠ []) ∧
    (family.declared q).opened = [] ∧
    (family.declared q).roots = imageOf (family q).declarations ∧
    (family.declared q).probes = probesOf 0 0 (family q).declarations := by
  have hdeclared := family.declared_eq q
  refine ⟨?_,?_,?_,?_,?_,?_⟩
  · intro tree
    exact family.compile_eq_ok_iff q
  · intro f
    exact family.compile_eq_error_iff q
  · intro category keys h
    exact image_dependsOn h
  · exact congrArg Builder.opened hdeclared
  · exact congrArg Builder.roots hdeclared
  · exact congrArg Builder.probes hdeclared

end Family

end Cascade
