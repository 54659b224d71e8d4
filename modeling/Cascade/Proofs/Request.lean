import Cascade.Proofs.Law.Run

/-! # Requests

A run starts with a request: a call with parameters on a state of its own, a run of a pipeline on a
given state, or a pipeline invoked as a handler would be. Only the first sets the state.
-/
namespace Cascade

open Json (Value)

variable {ι : Type}

inductive Request (ι : Type) where
  | call (q : ι) (params : Value)
  | run (q : ι) (level : Level)
  | invoke (q : ι) (options : Options) (level : Level)

namespace Request

/-- The state that a run starts with, in a world of state `s`. -/
def start (s : State) : Request ι → State
  | call _ params => .withParams params
  | run .. | invoke .. => s

/-- Runs the request; only `invoke` has a value to give. -/
def exec [DecidableEq ι] (family : Family ι) (depth : Nat) : Request ι → Exec ι Value
  | call q params => do
    family.call depth q params
    return .null
  | run q level => do
    family.run depth q level
    return .null
  | invoke q options level => family.invoke depth q options level

/-- Runs the request by what is launched. -/
def execBy (launch : Launch ι) : Request ι → Exec ι Value
  | call q params => do
    Exec.setState (.withParams params)
    launch.run q 0
    return .null
  | run q level => do
    launch.run q level
    return .null
  | invoke q options level => launch.invoke q options level

theorem exec_eq [DecidableEq ι] (family : Family ι) (depth : Nat) (r : Request ι) :
    r.exec family depth = r.execBy (family.launchWith family.tree depth) := by
  cases r with
  | call q params => exact Exec.bind_assoc _ _ _
  | run q level => rfl
  | invoke q options level => rfl

/-- In the end a request runs or invokes a pipeline, from the state it starts with. -/
theorem execBy_apply (launch : Launch ι) (r : Request ι) (w : World ι) :
    r.execBy launch w = (match r with
      | call q _ => launch.run q 0 >>= fun _ => pure Value.null
      | run q level => launch.run q level >>= fun _ => pure Value.null
      | invoke q options level => launch.invoke q options level)
        { w with state := r.start w.state } := by
  cases r with
  | call q params =>
    refine (Exec.bind_of_ok (Exec.setState_apply _ w)).trans ?_
    rw [List.nil_append]
    rfl
  | run q level => rfl
  | invoke q options level => rfl

/-- If what is launched is alike, the same request runs alike, from joined starts. -/
theorem execBy_alike {like : Likeness ι} {launch launch' : Launch ι}
    (hl : launch.Alike like launch') (r : Request ι) {u v : World ι}
    (hj : like.Joined { u with state := r.start u.state } { v with state := r.start v.state }) :
    (r.execBy launch u).Alike like (· = ·) { u with state := r.start u.state }
      { v with state := r.start v.state } (r.execBy launch' v) := by
  have hrun : ∀ q level, Exec.Alike like (· = ·)
      (launch.run q level >>= fun _ => pure Value.null)
      (launch'.run q level >>= fun _ => pure Value.null) :=
    fun q level => (hl.run q level).bind fun _ => Exec.alike_pure rfl
  rw [execBy_apply, execBy_apply]
  cases r with
  | call q params => exact hrun q 0 hj
  | run q level => exact hrun q level hj
  | invoke q options level => exact hl.invoke q options level hj

/-- A law of all that may be launched holds of every request, from the state it starts with. -/
theorem execBy_holds {law : Law ι} {launch : Launch ι} (hl : launch.Obeys law) (r : Request ι)
    (w : World ι) :
    law.Holds { w with state := r.start w.state } (r.execBy launch w).events
      (r.execBy launch w).world := by
  have hrun := fun q level => (hl.run q level).bind fun _ => Exec.obeys_pure Value.null
  rw [execBy_apply]
  cases r with
  | call q params => exact hrun q 0 _
  | run q level => exact hrun q level _
  | invoke q options level => exact hl.invoke q options level _

/-- A law that governs a family holds of every run, from the state it starts with. -/
theorem exec_holds [DecidableEq ι] {law : Law ι} {family : Family ι} (hg : law.Governs family)
    (depth : Nat) (r : Request ι) (w : World ι) :
    law.Holds { w with state := r.start w.state } (r.exec family depth w).events
      (r.exec family depth w).world := by
  rw [exec_eq]
  exact execBy_holds (hg.launchWith_obeys hg.tree_obeys depth) r w

end Request

end Cascade
