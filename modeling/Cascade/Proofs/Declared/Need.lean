import Cascade.Run.Pipeline
import Cascade.Proofs.Declared.Placed

/-! # Needs of trees

A tree that is needed is taken from the forest, or declared and compiled. What a forest holds that
grew in this way is what compiling gives.
-/
namespace Cascade

variable {ι : Type} (family : Family ι)

namespace Family

/-- The events of declaring a pipeline: the declaration itself and what is noted in it. -/
def declaring (q : ι) : List (Event ι) :=
  .declaring q :: (family.declared q).probes.map .probed

variable {family} in
theorem forall_declaring {P : Event ι → Prop} {q : ι} (hq : P (.declaring q))
    (hp : ∀ p, P (.probed p)) : ∀ e ∈ family.declaring q, P e := by
  intro e he
  rcases List.mem_cons.1 he with rfl | he
  · exact hq
  · obtain ⟨p,_,rfl⟩ := List.mem_map.1 he
    exact hp p

theorem build_of_ok {q : ι} {tree : Tree ι} (h : family.compile q = .ok tree) (w : World ι) :
    family.build q w = ⟨.ok tree, w, family.declaring q ++ [.compiled q]⟩ := by
  have hc : (Exec.ofExcept (family.compile q) : Exec ι (Tree ι)) w = ⟨.ok tree, w, []⟩ := by
    rw [h]
    rfl
  unfold build
  rw [Exec.bind_of_ok (Exec.emit_apply _ w), Exec.bind_of_ok (Exec.emitAll_apply _ w),
    Exec.bind_of_ok hc, Exec.bind_of_ok (Exec.emit_apply _ w)]
  rfl

theorem build_of_error {q : ι} {f : Fault} (h : family.compile q = .error f) (w : World ι) :
    family.build q w = ⟨.error (.fault f), w, family.declaring q ++ [.raised f w.state]⟩ := by
  have hc : (Exec.ofExcept (family.compile q) : Exec ι (Tree ι)) w =
      ⟨.error (.fault f), w, [.raised f w.state]⟩ := by
    rw [h]
    rfl
  unfold build
  rw [Exec.bind_of_ok (Exec.emit_apply _ w), Exec.bind_of_ok (Exec.emitAll_apply _ w),
    Exec.bind_of_error hc]
  rfl

/-- A declaration is faulty for what it says, never for how it is dispatched. -/
theorem placed_of_compile {q : ι} {f : Fault} (h : family.compile q = .error f) :
    f.misplaced = false := by
  obtain ⟨_,d,_,_,_,hf⟩ := (family.compile_eq_error_iff q).1 h
  exact Declaration.placed_of_flaw? hf

variable [DecidableEq ι]

theorem tree_of_find? {q : ι} {tree : Tree ι} {w : World ι} (h : w.forest.find? q = some tree) :
    family.tree q w = ⟨.ok tree, w, []⟩ := by
  unfold Family.tree
  rw [h]

theorem tree_of_ok {q : ι} {tree : Tree ι} {w : World ι} (hw : w.forest.find? q = none)
    (h : family.compile q = .ok tree) : family.tree q w =
      ⟨.ok tree, { w with forest := (q, tree) :: w.forest },
        family.declaring q ++ [.compiled q]⟩ := by
  unfold Family.tree
  rw [hw]
  refine (Exec.bind_of_ok (family.build_of_ok h w)).trans ?_
  rw [List.append_nil]

theorem tree_of_error {q : ι} {f : Fault} {w : World ι} (hw : w.forest.find? q = none)
    (h : family.compile q = .error f) : family.tree q w =
      ⟨.error (.fault f), w, family.declaring q ++ [.raised f w.state]⟩ := by
  unfold Family.tree
  rw [hw]
  exact Exec.bind_of_error (family.build_of_error h w)

end Family

variable [DecidableEq ι]

/-- The pipelines whose trees are in the forest. -/
def Forest.built (forest : Forest ι) : List ι := forest.map Prod.fst

theorem Forest.find?_eq_none_iff {forest : Forest ι} {q : ι} :
    forest.find? q = none ↔ q ∉ forest.built := by
  induction forest with
  | nil => simp [find?, built]
  | cons entry rest ih =>
    rw [find?, built, List.map_cons, List.mem_cons, not_or]
    split
    · rename_i hq
      simp [hq]
    · rename_i hq
      rw [ih]
      exact ⟨fun h => ⟨Ne.symm hq,h⟩,And.right⟩

/-- The trees in the forest are those of the family. -/
def Forest.Faithful (forest : Forest ι) : Prop :=
  ∀ q tree, forest.find? q = some tree → family.compile q = .ok tree

variable {family}

theorem Forest.faithful_nil : Forest.Faithful family [] := by
  intro q tree h
  cases h

theorem Forest.Faithful.cons {forest : Forest ι} (hf : forest.Faithful family) {q : ι}
    {tree : Tree ι} (h : family.compile q = .ok tree) :
    Forest.Faithful family ((q, tree) :: forest) := by
  intro p t hp
  unfold Forest.find? at hp
  split at hp
  · rename_i he
    cases he
    cases hp
    exact h
  · exact hf p t hp

namespace Family

variable {q : ι} {w : World ι}

theorem tree_of_built {tree : Tree ι} (hc : family.compile q = .ok tree)
    (hw : w.forest.Faithful family) (hq : q ∈ w.forest.built) :
    family.tree q w = ⟨.ok tree, w, []⟩ := by
  cases hfind : w.forest.find? q with
  | none => exact absurd hq (Forest.find?_eq_none_iff.1 hfind)
  | some t =>
    have ht := hw q t hfind
    rw [hc] at ht
    cases ht
    exact family.tree_of_find? hfind

theorem tree_of_not_built {tree : Tree ι} (hc : family.compile q = .ok tree)
    (hq : q ∉ w.forest.built) : family.tree q w =
      ⟨.ok tree, { w with forest := (q, tree) :: w.forest },
        family.declaring q ++ [.compiled q]⟩ :=
  family.tree_of_ok (Forest.find?_eq_none_iff.2 hq) hc

/-- A tree that compiles is given, and at most that it is built is told. -/
theorem tree_of_compile {tree : Tree ι} (hc : family.compile q = .ok tree)
    (hw : w.forest.Faithful family) : ∃ forest events,
      family.tree q w = ⟨.ok tree, { w with forest := forest }, events⟩ ∧
        forest.Faithful family ∧ ∀ e ∈ events, e ∈ family.declaring q ++ [.compiled q] := by
  by_cases hq : q ∈ w.forest.built
  · exact ⟨_,_,tree_of_built hc hw hq,hw,by simp⟩
  · exact ⟨_,_,tree_of_not_built hc hq,hw.cons hc,fun _ he => he⟩

theorem tree_of_flawed {f : Fault} (hc : family.compile q = .error f)
    (hw : w.forest.Faithful family) : family.tree q w =
      ⟨.error (.fault f), w, family.declaring q ++ [.raised f w.state]⟩ := by
  cases hq : w.forest.find? q with
  | some tree =>
    rw [hw q tree hq] at hc
    cases hc
  | none => exact family.tree_of_error hq hc

end Family

end Cascade
