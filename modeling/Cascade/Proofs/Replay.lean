import Cascade.Proofs.FailedMark

/-! # Replaying a run

The events of a run tell every change of its state. So the state at any of them can be replayed from
the start of the run and the events before, and an event that shows a state shows that one.
-/
namespace Cascade

open Json (Value)

variable {ι : Type}

namespace Event

/-- The state after the event. -/
def after (s : State) : Event ι → State
  | changed c => (c.apply s).toOption.getD s
  | returned _ _ i result => i.verdict result s
  | _ => s

/-- What the event shows of the state is true of this one. -/
def Displays (s : State) : Event ι → Prop
  | executing _ _ _ t | raised _ t => t = s
  | finished _ _ success => success = s.successful
  | _ => True

theorem failed_after {s : State} (e : Event ι) (h : s.failed = true) :
    (e.after s).failed = true := by
  cases e with
  | changed c =>
    show ((c.apply s).toOption.getD s).failed = true
    cases hc : c.apply s with
    | ok t => exact c.failed_of_apply hc h
    | error f => exact h
  | returned q level i result => exact i.failed_verdict_of_failed result h
  | _ => exact h

end Event

/-- The state after the events. -/
def replay (s : State) (events : List (Event ι)) : State := events.foldl Event.after s

/-- Every event shows the state as the events before it leave it. -/
def Displayed : State → List (Event ι) → Prop
  | _, [] => True
  | s, e :: rest => e.Displays s ∧ Displayed (e.after s) rest

@[simp] theorem replay_nil (s : State) : replay s ([] : List (Event ι)) = s := rfl

theorem replay_append (s : State) (d e : List (Event ι)) :
    replay s (d ++ e) = replay (replay s d) e := List.foldl_append

theorem failed_replay {s : State} (events : List (Event ι)) (h : s.failed = true) :
    (replay s events).failed = true := by
  induction events generalizing s with
  | nil => exact h
  | cons e rest ih => exact ih (e.failed_after h)

theorem displayed_append {s : State} {d e : List (Event ι)} :
    Displayed s (d ++ e) ↔ Displayed s d ∧ Displayed (replay s d) e := by
  induction d generalizing s with
  | nil => simp [Displayed]
  | cons a rest ih =>
    rw [List.cons_append, Displayed, Displayed, ih, and_assoc]
    rfl

theorem Displayed.displays {s : State} {before after : List (Event ι)} {e : Event ι}
    (h : Displayed s (before ++ e :: after)) : e.Displays (replay s before) :=
  (displayed_append.1 h).2.1

def replayLaw (ι : Type) : Law ι where
  Holds u events v := Displayed u.state events ∧ v.state = replay u.state events
  refl _ := ⟨trivial,rfl⟩
  trans hd he := by
    refine ⟨displayed_append.2 ⟨hd.1,hd.2 ▸ he.1⟩,?_⟩
    rw [he.2, hd.2, replay_append]

theorem replayLaw_governs (family : Family ι) : (replayLaw ι).Governs family where
  changed {c w s} h := by
    refine ⟨⟨trivial,trivial⟩,?_⟩
    show s = (c.apply w.state).toOption.getD w.state
    rw [h]
    rfl
  raised f w := ⟨⟨rfl,trivial⟩,rfl⟩
  sticky h hu := by
    rw [h.2]
    exact failed_replay _ hu
  announced site i w h := by
    unfold Exec.ObeysAt
    rw [Site.announce_apply]
    cases site.settings.debug with
    | true => exact ⟨⟨rfl,trivial,trivial⟩,rfl⟩
    | false => exact ⟨⟨rfl,trivial⟩,rfl⟩
  returned site i result w := ⟨⟨trivial,trivial⟩,rfl⟩
  noted {e} h w := by
    cases e with
    | declaring _ | probed _ | compiled _ | started _ _ | cascading _ _ | entered _ _ =>
      exact ⟨⟨trivial,trivial⟩,rfl⟩
    | _ => cases h
  finished q level w := ⟨⟨rfl,trivial⟩,rfl⟩
  stored w forest := (replayLaw ι).refl w

namespace Request

variable [DecidableEq ι]

/-- The state that a run leaves is replayed from all its events. -/
theorem replay_exec (family : Family ι) (depth : Nat) (r : Request ι) (w : World ι) :
    (r.exec family depth w).world.state =
      replay (r.start w.state) (r.exec family depth w).events :=
  (r.exec_holds (replayLaw_governs family) depth w).2

/-- What an event of a run shows is the state as all events before it leave it. -/
theorem displays_of_eq {family : Family ι} {depth : Nat} {r : Request ι} {w : World ι}
    {before after : List (Event ι)} {e : Event ι}
    (h : (r.exec family depth w).events = before ++ e :: after) :
    e.Displays (replay (r.start w.state) before) := by
  have hd := (r.exec_holds (replayLaw_governs family) depth w).1
  rw [h] at hd
  exact hd.displays

end Request

end Cascade
