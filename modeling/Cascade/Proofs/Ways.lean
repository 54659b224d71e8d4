import Cascade.Proofs.Forest.Kept
import Cascade.Proofs.Leeway.Run
import Cascade.Proofs.Raised.Session

/-! # Levels tell nothing to a run

A pipeline may be called, run on a level, or invoked if it has no entry, and its tree may be
executed by itself. All this comes to the same, on whatever levels. If no handler gives a level to a
pipeline that it starts, what is told is the same as well, but for the distance of the levels.
-/
namespace Cascade

open Json (Value)

variable {ι : Type}

/-- The ways to run a pipeline on a state. -/
inductive Way where
  | call
  | run (level : Level)
  /-- Executes the tree, which has been asked for before. -/
  | execute (level : Level)
  | invoke (options : Options) (level : Level)

namespace Way

def level : Way → Level
  | call => 0
  | run level | execute level | invoke _ level => level

/-- Pipelines with an entry are invoked by that alone. -/
def Open (family : Family ι) (q : ι) : Way → Prop
  | invoke .. => (family q).entry = none
  | call | run _ | execute _ => True

/-- Other pipelines may be started within this one up to `depth` times; `tree` is its tree. -/
def exec [DecidableEq ι] (family : Family ι) (depth : Nat) (q : ι) (tree : Tree ι) :
    Way → Exec ι Unit
  | call => family.run (depth + 1) q 0
  | run level => family.run (depth + 1) q level
  | execute level => tree.run family (family.launchWith family.tree depth) q level
  | invoke options level => do
    let _ ← family.invoke (depth + 1) q options level

end Way

section

variable [DecidableEq ι] {family : Family ι} {q : ι} {tree : Tree ι} {w : World ι}

theorem Family.call_apply (depth : Nat) (params : Value) :
    family.call depth q params w =
      family.run depth q 0 { w with state := .withParams params } := by
  refine (Exec.bind_of_ok (Exec.setState_apply _ w)).trans ?_
  rw [List.nil_append]

theorem Way.exec_invoke (he : (family q).entry = none) (depth : Nat) (o : Options) (level : Level) :
    (Way.invoke o level).exec family depth q tree = family.run (depth + 1) q level := by
  show (family.invoke (depth + 1) q o level >>= fun _ => pure ()) = _
  rw [Family.invoke_of_open he, Exec.bind_assoc]
  exact Exec.bind_pure_id _

theorem Family.result_invoke (he : (family q).entry = none) (depth : Nat) (o : Options)
    (level : Level) (w : World ι) : (family.invoke (depth + 1) q o level w).result =
      (family.run (depth + 1) q level w).result.map fun _ =>
        .bool (family.run (depth + 1) q level w).world.state.successful := by
  rw [invoke_of_open he, Exec.bind_apply]
  rcases family.run (depth + 1) q level w with ⟨_ | _,_,_⟩ <;> rfl

/-- Whatever the way is, the tree is run, once it is there. -/
theorem Way.exec_apply (hc : family.compile q = .ok tree) (hw : w.forest.Faithful family)
    (depth : Nat) {a : Way} (ha : a.Open family q) : ∃ forest events,
      forest.Faithful family ∧ unbuilding events = [] ∧ a.exec family depth q tree w =
        (tree.run family (family.launchWith family.tree depth) q a.level
          { w with forest := forest }).prepend events := by
  have hrun : ∀ level, ∃ forest events, forest.Faithful family ∧ unbuilding events = [] ∧
      family.run (depth + 1) q level w =
        (tree.run family (family.launchWith family.tree depth) q level
          { w with forest := forest }).prepend events := by
    intro level
    obtain ⟨forest,events,htree,hforest,_⟩ := Family.tree_of_compile hc hw
    exact ⟨forest,events,hforest,Family.unbuilding_of_tree htree,Exec.bind_of_ok htree⟩
  cases a with
  | call => exact hrun 0
  | run level => exact hrun level
  | execute level => exact ⟨w.forest,[],hw,rfl,rfl⟩
  | invoke o level =>
    rw [Way.exec_invoke ha]
    exact hrun level

end

/-! ## The same run on another level -/

/-- Two runs of a family. If levels are fixed, those of the first with `j` added are those of the
second with `k` added. -/
def Simulation.across [DecidableEq ι] (family : Family ι) (fixed : Prop) (j k : Level) :
    Simulation ι where
  Levels m n := fixed → m + j = n + k
  Opts := (· = ·)
  deeper h hf := by rw [Level.add_right_comm, h hf, Level.add_right_comm]
  refl _ := rfl
  agree := .of_eq
  Forests f g := f.Faithful family ∧ g.Faithful family
  Told d e := fixed → (unbuilding d).map (Event.deepen j) = (unbuilding e).map (Event.deepen k)
  tires := True
  told_nil _ := rfl
  told_append h h' hf := by
    rw [unbuilding_append, unbuilding_append, List.map_append, List.map_append, h hf, h' hf]
  told_one {e e'} h hf := by
    have he : e.deepen j = e'.deepen k := by
      refine h.deepen_eq id ?_
      exact fun hl => hl hf
    have hb : e.isBuilding = e'.isBuilding := by
      cases h <;> rfl
    unfold unbuilding
    rw [List.filter_cons, List.filter_cons, hb]
    cases e'.isBuilding with
    | true => rfl
    | false => simp [he]

section

variable [DecidableEq ι] {family : Family ι} {fixed : Prop} {j k : Level}

/-- Handlers may do anything, but give no levels if these are fixed. -/
theorem Family.upTo_across (hf : fixed → ∀ q, (family q).All (Program.StartsOnly fun _ => False)) :
    family.UpTo (Simulation.across family fixed j k).toLeeway (fun _ _ => True) family := by
  refine (Family.suits_of_same id (S := fun _ _ => ¬ fixed) (fun _ => rfl) (fun _ => rfl)
    (fun _ => rfl) (fun q => ?_) (fun _ _ hS => ⟨trivial,fun _ h => absurd h hS⟩)
    (fun _ _ => trivial) (fun _ _ _ _ => trivial) fun _ _ => trivial).upTo_self
  by_cases h : fixed
  · exact (hf h q).imp fun _ hp => hp.mono fun _ => False.elim
  · exact (family q).all_of_forall (Program.startsOnly_of_forall fun _ => h)

theorem Simulation.across_needs
    (hf : fixed → ∀ q, (family q).All (Program.StartsOnly fun _ => False)) :
    (Simulation.across family fixed j k).Needs family family.tree family.tree := by
  have hbuilding : ∀ q, unbuilding (family.declaring q ++ [.compiled q]) = [] := by
    intro q
    rw [unbuilding_append, unbuilding_declaring]
    rfl
  refine Simulation.Grows.needs (Family.upTo_across hf) ⟨id,?_,?_⟩
  · intro f g h q t t' hc hc'
    exact ⟨h.1.cons hc,h.2.cons hc'⟩
  · intro f g h q t t' hc hc'
    refine Or.inr ⟨⟨h.1.cons hc,h.2⟩,fun _ => ?_,⟨h.1,h.2.cons hc'⟩,fun _ => ?_⟩
    · rw [hbuilding]
      rfl
    · rw [hbuilding]
      rfl

end

/-- Two ways to run a pipeline, each from worlds in the same state. -/
theorem Way.exec_paired [DecidableEq ι] {family : Family ι} {fixed : Prop}
    (hf : fixed → ∀ q, (family q).All (Program.StartsOnly fun _ => False)) {q : ι} {tree : Tree ι}
    (hc : family.compile q = .ok tree) (depth : Nat) {a b : Way} (ha : a.Open family q)
    (hb : b.Open family q) {u v : World ι} (hs : u.state = v.state)
    (hu : u.forest.Faithful family) (hv : v.forest.Faithful family) :
    (a.exec family depth q tree u).Paired (.across family fixed b.level a.level) (· = ·)
      (b.exec family depth q tree v) := by
  obtain ⟨f,d,hforest,hd,hx⟩ := Way.exec_apply hc hu depth ha
  obtain ⟨g,e,hforest',he,hy⟩ := Way.exec_apply hc hv depth hb
  have hfamily := Family.upTo_across (j := b.level) (k := a.level) hf
  have hlaunch := Family.launchWith_paired hfamily.toSuits (Simulation.across_needs hf) trivial
    depth
  have hrun := Tree.run_paired hfamily.toSuits (q := q) (hlaunch.mono fun _ _ => trivial) hc
    ⟨Instruction.UpTo.refl (fun _ => rfl) tree.roots,rfl⟩ (fun _ => UInt64.add_comm a.level b.level)
    (u := { u with forest := f }) (v := { v with forest := g }) ⟨hs,hforest,hforest'⟩
  rw [hx, hy]
  refine ⟨hrun.ends,fun h => ?_,hrun.joined⟩
  simp only [Outcome.prepend, unbuilding_append, hd, he, List.nil_append]
  exact hrun.told h

/-- A pipeline that compiles comes to the same in whatever way it is run, from worlds in the same
state. Called on parameters, it starts in the state that holds them. Invoked, it gives whether the
state is successful in the end. If handlers give no levels, what is told is the same as well, apart
from building, once the level of each run is added to those of the other. -/
theorem Way.exec_agree [DecidableEq ι] {family : Family ι} {q : ι} {tree : Tree ι}
    (hc : family.compile q = .ok tree) (depth : Nat) {a b : Way} (ha : a.Open family q)
    (hb : b.Open family q) {u v : World ι} (hs : u.state = v.state)
    (hu : u.forest.Faithful family) (hv : v.forest.Faithful family) :
    let out := a.exec family depth q tree u
    let out' := b.exec family depth q tree v
    out.result = out'.result ∧ out.world.state = out'.world.state ∧
    (∀ params, family.call (depth + 1) q params u =
      Way.call.exec family depth q tree { u with state := .withParams params }) ∧
    (∀ o level, (family q).entry = none → (family.invoke (depth + 1) q o level u).result =
      out.result.map fun _ => .bool out.world.state.successful) ∧
    ((∀ q, (family q).All (Program.StartsOnly fun _ => False)) →
      (unbuilding out.events).map (Event.deepen b.level) =
        (unbuilding out'.events).map (Event.deepen a.level)) := by
  intro out out'
  have hpair := Way.exec_paired id hc depth ha hb hs hu hv
  refine ⟨hpair.ends.eq id id,hpair.joined.1,fun params => family.call_apply (depth + 1) params,?_,
    hpair.told⟩
  intro o level he
  have hinvoke := Way.exec_paired False.elim hc depth ha (b := .invoke o level) he rfl hu hu
  rw [Way.exec_invoke he] at hinvoke
  rw [Family.result_invoke he, hinvoke.ends.eq id id, hinvoke.joined.1]

/-- A traced wrap around a step that stands for another pipeline, whose first step fails. -/
def nested : Family Bool := fun inner =>
  if inner then { name := "inner", declarations :=
    [.step (.function (.done (.bool false))) .empty, .step (.function (.done .null)) .empty,
      .failure (.function (.done .null)) .empty] }
  else { name := "outer", declarations := [.debug true, .wrap (.around (.call .next .done)) .empty
    [.step (.pipeline true) .empty]] }

theorem nested_startsOnly (inner : Bool) :
    (nested inner).All (Program.StartsOnly fun _ => False) := by
  refine ⟨?_,by cases inner <;> nofun,by cases inner <;> nofun⟩
  cases inner with
  | true =>
    exact List.forall_mem_cons.2 ⟨trivial,List.forall_mem_cons.2 ⟨trivial,
      List.forall_mem_singleton.2 trivial⟩⟩
  | false =>
    have hnext : Program.StartsOnly (fun _ => False) (.call .next .done : Program Bool) :=
      ⟨trivial,fun _ => trivial⟩
    exact List.forall_mem_cons.2 ⟨trivial,List.forall_mem_cons.2 ⟨hnext,
      List.forall_mem_singleton.2 trivial⟩⟩

theorem Way.exec_agree_nested :
    let tree : Tree Bool := ⟨Declaration.imageOf (nested false).declarations, { debug := true }⟩
    let levels := fun out : Outcome Bool Unit => out.events.filterMap fun
      | .executing q level _ _ => some (q, level)
      | _ => none
    let out := Way.exec nested 1 false tree (.run 0) {}
    let out' := Way.exec nested 1 false tree (.invoke .empty 4) {}
    levels out = [(false, 0), (false, 1), (true, 2), (true, 2)] ∧
    levels out' = [(false, 4), (false, 5), (true, 6), (true, 6)] ∧
    nested.compile false = .ok tree ∧ (nested false).entry = none ∧
    out.result = out'.result ∧ out.world.state = out'.world.state ∧
    (∀ params, nested.call 2 false params {} =
      Way.call.exec nested 1 false tree { state := .withParams params }) ∧
    (∀ o level, (nested false).entry = none → (nested.invoke 2 false o level {}).result =
      out.result.map fun _ => .bool out.world.state.successful) ∧
    ((∀ q, (nested q).All (Program.StartsOnly fun _ => False)) →
      (unbuilding out.events).map (Event.deepen 4) =
        (unbuilding out'.events).map (Event.deepen 0)) ∧
    ∀ q, (nested q).All (Program.StartsOnly fun _ => False) := by
  intro tree levels out out'
  have hc : nested.compile false = .ok tree := rfl
  obtain ⟨hresult,hstate,hcall,hvalue,htold⟩ := Way.exec_agree hc 1 (a := .run 0)
    (b := .invoke .empty 4) trivial rfl (u := {}) (v := {}) rfl Forest.faithful_nil
    Forest.faithful_nil
  exact ⟨by decide +kernel,by decide +kernel,hc,rfl,hresult,hstate,hcall,hvalue,htold,
    nested_startsOnly⟩

end Cascade
