import Cascade.Proofs.Likeness.Run

/-! # Laws of executions

A law relates the world before an execution, what happens in it, and the world after it. It holds
when nothing happens and is handed on from one execution to the next. A law that a run keeps is a
likeness of the run with itself.
-/
namespace Cascade

variable {ι α β : Type}

structure Law (ι : Type) where
  Holds : World ι → List (Event ι) → World ι → Prop
  refl (w : World ι) : Holds w [] w
  trans {u v w : World ι} {d e : List (Event ι)} : Holds u d v → Holds v e w → Holds u (d ++ e) w

variable {law : Law ι}

namespace Exec

def ObeysAt (law : Law ι) (x : Exec ι α) (w : World ι) : Prop :=
  law.Holds w (x w).events (x w).world

def Obeys (law : Law ι) (x : Exec ι α) : Prop := ∀ w, ObeysAt law x w

theorem obeys_pure (a : α) : Obeys law (pure a : Exec ι α) := fun w => law.refl w

/-- The second part has to obey the law only where the first one leaves off. -/
theorem ObeysAt.bind {x : Exec ι α} {f : α → Exec ι β} {w : World ι} (hx : ObeysAt law x w)
    (hf : ∀ a v e, x w = ⟨.ok a, v, e⟩ → ObeysAt law (f a) v) : ObeysAt law (x >>= f) w := by
  unfold ObeysAt at hx ⊢
  rw [bind_apply]
  rcases h : x w with ⟨_ | a, v, e⟩
  · rw [h] at hx
    exact hx
  · rw [h] at hx
    exact law.trans hx (hf a v e h)

theorem Obeys.bind {x : Exec ι α} {f : α → Exec ι β} (hx : Obeys law x)
    (hf : ∀ a, Obeys law (f a)) : Obeys law (x >>= f) :=
  fun w => (hx w).bind fun a v _ _ => hf a v

end Exec

structure Launch.Obeys (law : Law ι) (launch : Launch ι) : Prop where
  run (q : ι) (level : Level) : (launch.run q level).Obeys law
  invoke (q : ι) (options : Options) (level : Level) : (launch.invoke q options level).Obeys law

/-- The law is kept by whatever a handler does by itself. -/
structure Law.Tolerant (law : Law ι) : Prop where
  changed {c : Change} {w : World ι} {s : State} (h : c.apply w.state = .ok s) :
    law.Holds w [.changed c] { w with state := s }
  raised (f : Fault) (w : World ι) : law.Holds w [.raised f w.state] w

theorem Law.Tolerant.obeys_ofExcept (ht : law.Tolerant) (r : Except Fault α) :
    (Exec.ofExcept r : Exec ι α).Obeys law := by
  cases r with
  | ok a => exact Exec.obeys_pure a
  | error f => exact fun w => ht.raised f w

/-! ## A run compared with itself -/

/-- In a world that is fit, a run keeps the law and leaves a world that is fit. -/
def Law.alone (law : Law ι) (Fit : World ι → Prop) : Comparison ι where
  Joined u v := u = v ∧ Fit u
  Holds u v d e u' v' := (u = v ∧ d = e ∧ u' = v') ∧ law.Holds u d u' ∧ Fit u' ∧
    (u.state.failed = true → u'.state.failed = true)
  refl {u v} h := ⟨⟨h.1,rfl,h.1⟩,law.refl u,h.2,id⟩
  trans {u v u' v' u'' v'' d e d' e'} h h' := by
    obtain ⟨⟨rfl,rfl,rfl⟩,hl,_,hs⟩ := h
    obtain ⟨⟨_,rfl,rfl⟩,hl',hf,hs'⟩ := h'
    exact ⟨⟨rfl,rfl,rfl⟩,law.trans hl hl',hf,hs' ∘ hs⟩
  joined h := ⟨h.1.2.2,h.2.2.1⟩
  state_eq h := congrArg World.state h.1
  sticky h := h.2.2.2

/-- A run keeps the law whatever the world, the faults and the instructions are. -/
abbrev Law.everywhere (law : Law ι) : Likeness ι :=
  (law.alone fun _ => True).likeness (.same (· = ·) fun _ _ => True) fun _ => True

namespace Exec

variable {r : α → α → Prop}

theorem Obeys.alike {x : Exec ι α} (h : x.Obeys law) (hr : ∀ a, r a a)
    (hs : ∀ w, w.state.failed = true → (x w).world.state.failed = true) :
    Alike law.everywhere r x x := by
  rintro u v ⟨rfl,_⟩
  have hu := h u
  have hfail := hs u
  unfold ObeysAt at hu
  unfold AlikeAt
  generalize x u = out at hu hfail ⊢
  rcases out with ⟨halt | a, u', events⟩
  · exact .halted ⟨⟨⟨rfl,rfl,rfl⟩,hu,trivial,hfail⟩,fun _ _ => trivial⟩
  · exact .ok (hr a) ⟨⟨rfl,rfl,rfl⟩,hu,trivial,hfail⟩

theorem Alike.obeys {x : Exec ι α} (h : Alike law.everywhere r x x) : x.Obeys law :=
  fun w => (h (u := w) (v := w) ⟨rfl,trivial⟩).holds.2.1

end Exec

end Cascade
