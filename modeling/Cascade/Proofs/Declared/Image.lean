import Cascade.Tree.Builder

/-! # What declarations come to

Declarations form a document, in which a wrap comes before its body. A tree is built exactly if no
declaration of the document has a flaw, and then it is their image: the instructions of each scope
in order, each wrap with the image of its body. Else the first flaw of the document is the fault.
-/
namespace Cascade

variable {ι : Type}

namespace Key

theorem raw_filterMap {raws : List String} (h : ∀ raw ∈ raws, isSymbolic raw = true) :
    (raws.filterMap ofString?).map raw = raws := by
  induction raws with
  | nil => rfl
  | cons r rest ih =>
    rw [List.filterMap_cons, ofString?_of_symbolic (h r List.mem_cons_self), List.map_cons,
      ih fun s hs => h s (List.mem_cons_of_mem r hs)]

end Key

namespace Gate

/-- The keys of a gate are read one by one; the first that is not symbolic is the fault. -/
theorem ofStrings_eq (category : Category) (raws : List String) :
    ofStrings category raws = match raws.find? fun raw => !Key.isSymbolic raw with
      | some raw => .error (.invalidKey raw)
      | none => .ok ⟨category, raws.filterMap Key.ofString?⟩ := by
  have hkeys : raws.mapM Key.ofString = match raws.find? fun raw => !Key.isSymbolic raw with
      | some raw => .error (.invalidKey raw)
      | none => .ok (raws.filterMap Key.ofString?) := by
    induction raws with
    | nil => rfl
    | cons raw rest ih =>
      rw [List.mapM_cons, List.find?_cons, List.filterMap_cons]
      cases h : Key.isSymbolic raw with
      | false =>
        rw [Key.ofString_of_not_symbolic h]
        rfl
      | true =>
        have hraw : Key.ofString raw = .ok ⟨raw, h⟩ := by
          unfold Key.ofString
          rw [Key.ofString?_of_symbolic h]
        rw [hraw, ih, Key.ofString?_of_symbolic h]
        cases rest.find? fun raw => !Key.isSymbolic raw <;> rfl
  unfold ofStrings
  rw [hkeys]
  cases raws.find? fun raw => !Key.isSymbolic raw <;> rfl

end Gate

/-! ## Documents -/

namespace Declaration

/-- What is to be shown of a wrap may be assumed of its body. -/
theorem induction {P : Declaration ι → Prop} (step : ∀ h o, P (.step h o))
    (failure : ∀ h o, P (.failure h o))
    (wrap : ∀ h o body, (∀ d ∈ body, P d) → P (.wrap h o body))
    (dependsOn : ∀ category keys, P (.dependsOn category keys))
    (container : ∀ r, P (.container r)) (debug : ∀ on, P (.debug on))
    (logger : ∀ l, P (.logger l)) (probe : P .probe) : ∀ d, P d
  | .step h o => step h o
  | .failure h o => failure h o
  | .wrap h o body => wrap h o body fun d _ =>
    induction step failure wrap dependsOn container debug logger probe d
  | .dependsOn category keys => dependsOn category keys
  | .container r => container r
  | .debug on => debug on
  | .logger l => logger l
  | .probe => probe

mutual

def document : Declaration ι → List (Declaration ι)
  | wrap h o body => wrap h o body :: documentOf body
  | d => [d]

def documentOf : List (Declaration ι) → List (Declaration ι)
  | [] => []
  | d :: rest => document d ++ documentOf rest

end

/-- What is wrong with a declaration, its body apart. -/
def flaw? (sig : Signature ι) : Declaration ι → Option Fault
  | step h _ => if h.canStep then none else some (.misconfigured (.declared (h.name sig) .step))
  | failure h _ =>
    if h.canStep then none else some (.misconfigured (.declared (h.name sig) .failure))
  | wrap h _ _ =>
    if h.canWrap sig then none else some (.misconfigured (.declared (h.name sig) .wrap))
  | dependsOn category keys => match keys.find? fun raw => !Key.isSymbolic raw with
    | some raw => some (.invalidKey raw)
    | none => if keys.isEmpty then some (.argument (.noKeys category)) else none
  | container _ | debug _ | logger _ | probe => none

mutual

/-- What a declaration adds to its scope: one instruction, or none for a gate with a flaw and for
what is no instruction. -/
def image : Declaration ι → List (Instruction ι)
  | step h o => [.step h o]
  | failure h o => [.failure h o]
  | wrap h o body => [.wrap h o (imageOf body)]
  | dependsOn category keys =>
    if keys.all Key.isSymbolic && !keys.isEmpty then
      [.gate ⟨category, keys.filterMap Key.ofString?⟩]
    else []
  | container _ | debug _ | logger _ | probe => []

def imageOf : List (Declaration ι) → List (Instruction ι)
  | [] => []
  | d :: rest => image d ++ imageOf rest

end

def settle (s : Settings ι) : Declaration ι → Settings ι
  | container r => { s with container := some r }
  | debug on => { s with debug := on }
  | logger l => { s with logger := l }
  | step .. | failure .. | wrap .. | dependsOn .. | probe => s

def settingsOf (ds : List (Declaration ι)) : Settings ι := (documentOf ds).foldl settle {}

mutual

/-- What is noted in a declaration that stands in `opened` bodies and is declared after `roots`
instructions at the top. -/
def probes (opened roots : Nat) : Declaration ι → List Probe
  | probe => [⟨opened, roots⟩]
  | wrap _ _ body => probesOf (opened + 1) roots body
  | _ => []

def probesOf (opened roots : Nat) : List (Declaration ι) → List Probe
  | [] => []
  | d :: rest => probes opened roots d ++
      probesOf opened (if opened = 0 then roots + (image d).length else roots) rest

end

theorem imageOf_append (ds es : List (Declaration ι)) :
    imageOf (ds ++ es) = imageOf ds ++ imageOf es := by
  induction ds with
  | nil => rfl
  | cons d rest ih => rw [List.cons_append, imageOf, imageOf, ih, List.append_assoc]

theorem imageOf_concat (ds : List (Declaration ι)) (d : Declaration ι) :
    imageOf (ds ++ [d]) = imageOf ds ++ d.image := by
  rw [imageOf_append, imageOf, imageOf, List.append_nil]

theorem documentOf_append (ds es : List (Declaration ι)) :
    documentOf (ds ++ es) = documentOf ds ++ documentOf es := by
  induction ds with
  | nil => rfl
  | cons d rest ih => rw [List.cons_append, documentOf, documentOf, ih, List.append_assoc]

theorem probesOf_append (opened roots : Nat) (ds es : List (Declaration ι)) :
    probesOf opened roots (ds ++ es) = probesOf opened roots ds ++
      probesOf opened (if opened = 0 then roots + (imageOf ds).length else roots) es := by
  induction ds generalizing roots with
  | nil => simp [probesOf, imageOf]
  | cons d rest ih =>
    rw [List.cons_append, probesOf, probesOf, ih, List.append_assoc, imageOf]
    split <;> simp [Nat.add_assoc]

/-- A gate without a flaw keeps its category and all its keys, of which there is at least one. -/
theorem image_dependsOn {sig : Signature ι} {category : Category} {keys : List String}
    (h : flaw? sig (.dependsOn category keys) = none) : ∃ g : Gate,
      image (.dependsOn category keys : Declaration ι) = [.gate g] ∧ g.category = category ∧
        g.keys.map Key.raw = keys ∧ g.keys ≠ [] := by
  rw [flaw?] at h
  cases hfind : keys.find? fun raw => !Key.isSymbolic raw with
  | some raw => simp [hfind] at h
  | none =>
    have hall : ∀ raw ∈ keys, Key.isSymbolic raw = true := by simpa using hfind
    have hempty : keys.isEmpty = false := by simpa [hfind] using h
    have hraw : (keys.filterMap Key.ofString?).map Key.raw = keys := Key.raw_filterMap hall
    refine ⟨⟨category,keys.filterMap Key.ofString?⟩,?_,rfl,hraw,?_⟩
    · rw [image, if_pos]
      rw [hempty, List.all_eq_true.2 hall]
      rfl
    · intro hnil
      have hk : keys.filterMap Key.ofString? = [] := hnil
      rw [hk] at hraw
      rw [← hraw] at hempty
      cases hempty

end Declaration

end Cascade
