import Cascade.Proofs.Level.Performance
import Cascade.Proofs.Likeness.Basic

/-! # Levels that are alike

Two levels are alike if their instructions are, one against the other: each is executed in the
states that its kind fits, and both levels go over to their failure handlers at the same point.
-/
namespace Cascade

open Exec (Alike AlikeAt)

variable {ι : Type} {like : Likeness ι} {enact enact' : List Key → Instruction ι → Exec ι Unit}

/-- Both instructions lead to the same next one, with the same keys required from there on. -/
structure Instruction.InStep (required : List Key) (i i' : Instruction ι) : Prop where
  isFailure : i.isFailure = i'.isFailure
  failFast : i.isFailure = true → i.options.failFast = i'.options.failFast
  requiredAfter : i.requiredAfter required = i'.requiredAfter required

/-- The keys are those in force when an instruction is reached. Failure handlers are passed over
then, and executed later with keys that came into force meanwhile. -/
inductive Aligned (like : Likeness ι) (enact enact' : List Key → Instruction ι → Exec ι Unit) :
    List Key → List (Instruction ι) → List (Instruction ι) → Prop where
  | nil {required : List Key} : Aligned like enact enact' required [] []
  | cons {required : List Key} {i i' : Instruction ι} {is is' : List (Instruction ι)}
    (hs : i.InStep required i')
    (he : ∀ keys, (i.isFailure = false → keys = required) → ∀ {u v}, like.Joined u v →
      u.state.failed = i.isFailure → AlikeAt like (· = ·) (enact keys i) (enact' keys i') u v)
    (h : Aligned like enact enact' (i.requiredAfter required) is is') :
    Aligned like enact enact' required (i :: is) (i' :: is')

namespace Aligned

/-- In a failed state failure handlers may follow each other, as the mark stays. -/
theorem cascade_alikeAt {required : List Key} {is is' : List (Instruction ι)}
    (h : Aligned like enact enact' required is is') (keys : List Key) {u v : World ι}
    (hj : like.Joined u v) (hu : u.state.failed = true) :
    AlikeAt like (· = ·) ((Instruction.cascade is).forM (enact keys))
      ((Instruction.cascade is').forM (enact' keys)) u v := by
  induction h generalizing u v with
  | nil => exact Exec.alike_pure rfl hj
  | @cons required i i' is is' hs he h ih =>
    have hkind := hs.isFailure
    cases hi : i.isFailure with
    | false =>
      rw [hi] at hkind
      rw [Instruction.cascade_of_not_isFailure hi, Instruction.cascade_of_not_isFailure hkind.symm]
      exact ih hj hu
    | true =>
      rw [hi] at hkind
      have hfirst := he keys (by simp [hi]) hj (hu.trans hi.symm)
      rw [Instruction.cascade_of_isFailure hi, Instruction.cascade_of_isFailure hkind.symm,
        ← hs.failFast hi]
      cases i.options.failFast with
      | true => exact hfirst.bind fun _ hh => Exec.alike_pure rfl (like.joined hh)
      | false => exact hfirst.bind fun _ hh => ih (like.joined hh) (like.sticky hh hu)

theorem walk_alike {site site' : Site ι}
    (hcascading : ∀ {u v}, like.Joined u v → like.Holds u v [.cascading site.pipeline site.level]
      [.cascading site'.pipeline site'.level] u v)
    {required : List Key} {is is' : List (Instruction ι)}
    (h : Aligned like enact enact' required is is') :
    Alike like (· = ·) (site.walk enact required is) (site'.walk enact' required is') := by
  induction h with
  | nil => exact Exec.alike_pure rfl
  | @cons required i i' is is' hs he h ih =>
    intro u v hj
    have hcons := site.walk_cons enact required i is u
    have hcons' := site'.walk_cons enact' required i' is' v
    rw [← like.state_eq hj, ← hs.isFailure, ← hs.requiredAfter] at hcons'
    cases hu : u.state.failed with
    | true =>
      rw [hu, if_pos rfl] at hcons hcons'
      refine AlikeAt.congr hcons hcons' ?_
      have hemit : AlikeAt like (· = ·) (Exec.emit (.cascading site.pipeline site.level))
          (Exec.emit (.cascading site'.pipeline site'.level)) u v :=
        Exec.alikeAt_of_eq (Exec.emit_apply _ u) (Exec.emit_apply _ v) (.ok rfl (hcascading hj))
      refine hemit.bind fun _ hh => ?_
      exact (Aligned.cons hs he h).cascade_alikeAt required (like.joined hh) (like.sticky hh hu)
    | false =>
      rw [hu, if_neg (by simp)] at hcons hcons'
      cases hi : i.isFailure with
      | true =>
        rw [hi, if_pos rfl] at hcons hcons'
        rw [Instruction.requiredAfter_of_isFailure hi] at ih
        exact AlikeAt.congr hcons hcons' (ih hj)
      | false =>
        rw [hi, if_neg (by simp)] at hcons hcons'
        refine AlikeAt.congr hcons hcons' ?_
        have hfirst := he required (fun _ => rfl) hj (hu.trans hi.symm)
        exact hfirst.bind fun _ hh => ih (like.joined hh)

end Aligned

theorem Instruction.inStep_refl (required : List Key) (i : Instruction ι) :
    i.InStep required i := ⟨rfl,fun _ => rfl,rfl⟩

open Instruction (nodesOf mem_nodesOf_of_mem mem_nodes_self)

section

variable {stage : Stage ι} (perform perform' : Site ι → List Key → Instruction ι → Exec ι Unit)
  (hcascading : ∀ {site site' : Site ι}, stage.Sites site site' → ∀ {u v}, like.Joined u v →
    like.Holds u v [.cascading site.pipeline site.level]
      [.cascading site'.pipeline site'.level] u v)
  (hperform : ∀ {site site' : Site ι} {i : Instruction ι}, stage.Sites site site' →
    stage.Runs site site' i i →
    Alike like (· = ·) (site.deeper.walk (perform site.deeper) [] i.children)
      (site'.deeper.walk (perform' site'.deeper) [] i.children) →
    ∀ keys {u v}, like.Joined u v → u.state.failed = i.isFailure →
      AlikeAt like (· = ·) (perform site keys i) (perform' site' keys i) u v)
include hcascading hperform

/-- A level of instructions whose children are executed alike. -/
theorem Stage.level_alike {site site' : Site ι} (hs : stage.Sites site site')
    {is : List (Instruction ι)} (hi : ∀ i ∈ is, stage.Runs site site' i i ∧
      Alike like (· = ·) (site.deeper.walk (perform site.deeper) [] i.children)
        (site'.deeper.walk (perform' site'.deeper) [] i.children)) (required : List Key) :
    Alike like (· = ·) (site.walk (perform site) required is)
      (site'.walk (perform' site') required is) := by
  refine Aligned.walk_alike (hcascading hs) ?_
  induction is generalizing required with
  | nil => exact .nil
  | cons i rest ih =>
    obtain ⟨hrun,hc⟩ := hi i List.mem_cons_self
    refine .cons (i.inStep_refl required) (fun keys _ => hperform hs hrun hc keys) ?_
    exact ih (fun j hj => hi j (List.mem_cons_of_mem i hj)) _

/-- The induction is on how deep an instruction goes. -/
theorem Stage.children_alike (i : Instruction ι) {site site' : Site ι}
    (hs : stage.Sites site site') (hi : ∀ j ∈ i.nodes, stage.Runs site site' j j) :
    Alike like (· = ·) (site.deeper.walk (perform site.deeper) [] i.children)
      (site'.deeper.walk (perform' site'.deeper) [] i.children) := by
  induction i using Instruction.induction generalizing site site' with
  | step _ _ | failure _ _ | gate _ => exact Exec.alike_pure rfl
  | wrap h o children ih =>
    have hruns : ∀ j ∈ nodesOf children, stage.Runs site.deeper site'.deeper j j := by
      intro j hj
      refine stage.runs_deeper (hi j ?_)
      rw [Instruction.nodes]
      exact List.mem_cons_of_mem _ hj
    refine level_alike perform perform' hcascading hperform (stage.deeper hs)
      (fun c hc => ⟨?_,?_⟩) []
    · exact hruns c (mem_nodesOf_of_mem hc (mem_nodes_self c))
    · exact ih c hc (stage.deeper hs) fun j hj => hruns j (mem_nodesOf_of_mem hc hj)

/-- Levels of the same instructions are alike, given that each instruction is executed alike if its
children are. -/
theorem Stage.walk_alike {site site' : Site ι} (hs : stage.Sites site site')
    {is : List (Instruction ι)} (hi : ∀ i ∈ nodesOf is, stage.Runs site site' i i)
    (required : List Key) : Alike like (· = ·) (site.walk (perform site) required is)
      (site'.walk (perform' site') required is) := by
  refine level_alike perform perform' hcascading hperform hs (fun i h => ⟨?_,?_⟩) required
  · exact hi i (mem_nodesOf_of_mem h (mem_nodes_self i))
  · exact children_alike perform perform' hcascading hperform i hs
      fun j hj => hi j (mem_nodesOf_of_mem h hj)

end

end Cascade
