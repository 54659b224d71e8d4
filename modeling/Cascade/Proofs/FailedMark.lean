import Cascade.Proofs.Request

/-! # The failed mark in a run

Two kinds of events set the mark: a handler asks for it, or a step gives back a falsy value and its
options do not forbid it. Wherever an event shows the state, the mark is there exactly if it was
there at the start or an event before has set it, and the kind of an executed instruction fits it.
-/
namespace Cascade

open Json (Value)

variable {ι : Type}

namespace Event

def fails : Event ι → Bool
  | changed .fail => true
  | returned _ _ (.step _ o) result => !result.truthy && o.fail
  | _ => false

/-- What the event shows of the state agrees with the mark, and so does its instruction. -/
def Shows (failed : Bool) : Event ι → Prop
  | executing _ _ i s => s.failed = failed ∧ i.isFailure = failed
  | finished _ _ success => success = !failed
  | raised _ s => s.failed = failed
  | _ => True

end Event

/-- All events agree with the mark as the events before them leave it. -/
def Told : Bool → List (Event ι) → Prop
  | _, [] => True
  | failed, e :: rest => e.Shows failed ∧ Told (failed || e.fails) rest

theorem told_append {failed : Bool} {d e : List (Event ι)} :
    Told failed (d ++ e) ↔ Told failed d ∧ Told (failed || d.any Event.fails) e := by
  induction d generalizing failed with
  | nil => simp [Told]
  | cons a rest ih =>
    rw [List.cons_append, Told, Told, ih, List.any_cons, Bool.or_assoc, and_assoc]

/-- Each event shows the mark that the events before it account for. -/
theorem Told.shows {failed : Bool} {before after : List (Event ι)} {e : Event ι}
    (h : Told failed (before ++ e :: after)) : e.Shows (failed || before.any Event.fails) :=
  (told_append.1 h).2.1

def markLaw (ι : Type) : Law ι where
  Holds u events v := Told u.state.failed events ∧
    v.state.failed = (u.state.failed || events.any Event.fails)
  refl w := ⟨trivial,by simp⟩
  trans hd he := by
    refine ⟨told_append.2 ⟨hd.1,hd.2 ▸ he.1⟩,?_⟩
    rw [he.2, hd.2, List.any_append, Bool.or_assoc]

theorem failed_verdict (i : Instruction ι) (result : Value) (s : State) :
    (i.verdict result s).failed = (s.failed || (i.isStep && i.canFail result)) := by
  unfold Instruction.verdict
  split
  · rename_i h
    rw [h, Bool.or_true]
    rfl
  · rename_i h
    rw [Bool.not_eq_true] at h
    rw [h, Bool.or_false]

theorem fails_returned (q : ι) (level : Level) (i : Instruction ι) (result : Value) :
    (Event.returned q level i result).fails = (i.isStep && i.canFail result) := by
  cases i with
  | step h o => simp [Event.fails, Instruction.isStep, Instruction.canFail, Instruction.isFailure,
      Instruction.options]
  | _ => rfl

/-- Of all changes only one touches the mark. -/
theorem failed_apply {c : Change} {s t : State} (h : c.apply s = .ok t) :
    t.failed = (s.failed || (Event.changed c : Event ι).fails) := by
  cases c with
  | set key value =>
    have hs : s.set key value = .ok t := h
    cases hk : Key.isSymbolic key with
    | true =>
      rw [State.set_of_symbolic hk] at hs
      cases hs
      simp [Event.fails]
    | false =>
      rw [State.set_of_not_symbolic hk] at hs
      cases hs
  | remove key =>
    cases h
    simp [Event.fails]
  | fail =>
    cases h
    simp [Event.fails]
  | record name =>
    rw [CallLog.failed_record h]
    simp [Event.fails]

/-- No verdict on a result takes the mark back. -/
theorem Instruction.failed_verdict_of_failed (i : Instruction ι) (result : Value) {s : State}
    (h : s.failed = true) : (i.verdict result s).failed = true := by
  rw [failed_verdict, h, Bool.true_or]

/-- No change takes the mark back. -/
theorem Change.failed_of_apply {c : Change} {s t : State} (h : c.apply s = .ok t)
    (hs : s.failed = true) : t.failed = true := by
  have hfailed := failed_apply (ι := Unit) h
  rw [hfailed, hs, Bool.true_or]

theorem markLaw_governs (family : Family ι) : (markLaw ι).Governs family where
  changed h := ⟨⟨trivial,trivial⟩,by simpa using failed_apply h⟩
  raised f w := ⟨⟨rfl,trivial⟩,by simp [Event.fails]⟩
  sticky h hu := by rw [h.2, hu, Bool.true_or]
  announced site i w h := by
    unfold Exec.ObeysAt
    rw [Site.announce_apply]
    cases site.settings.debug with
    | true => exact ⟨⟨⟨rfl,h.symm⟩,trivial,trivial⟩,by simp [Event.fails]⟩
    | false => exact ⟨⟨⟨rfl,h.symm⟩,trivial⟩,by simp [Event.fails]⟩
  returned site i result w := by
    refine ⟨⟨trivial,trivial⟩,?_⟩
    rw [failed_verdict, List.any_cons, fails_returned, List.any_nil, Bool.or_false]
  noted {e} h w := by
    cases e with
    | declaring _ | probed _ | compiled _ | started _ _ | cascading _ _ | entered _ _ =>
      exact ⟨⟨trivial,trivial⟩,by simp [Event.fails]⟩
    | _ => cases h
  finished q level w := ⟨⟨rfl,trivial⟩,by simp [Event.fails]⟩
  stored w forest := (markLaw ι).refl w

/-- A level that starts in a failed state leaves one, also if it is halted. -/
theorem Site.failed_traverse [DecidableEq ι] {family : Family ι} (depth : Nat) (site : Site ι)
    (is : List (Instruction ι)) (required : List Key) {w : World ι} (hw : w.state.failed = true) :
    (site.traverse family (family.launchWith family.tree depth) required is w).world.state.failed =
      true := by
  have hg := markLaw_governs family
  have htraverse := hg.traverse_obeys hg.tree_obeys depth site is required w
  exact hg.sticky htraverse hw

theorem Request.exec_told [DecidableEq ι] (family : Family ι) (depth : Nat) (r : Request ι)
    (w : World ι) : Told (r.start w.state).failed (r.exec family depth w).events :=
  (r.exec_holds (markLaw_governs family) depth w).1

/-- What an event of a run shows is settled by the start and the events before it. -/
theorem Request.shows_of_eq [DecidableEq ι] {family : Family ι} {depth : Nat} {r : Request ι}
    {w : World ι} {before after : List (Event ι)} {e : Event ι}
    (h : (r.exec family depth w).events = before ++ e :: after) :
    e.Shows ((r.start w.state).failed || before.any Event.fails) := by
  have ht := r.exec_told family depth w
  rw [h] at ht
  exact ht.shows

theorem Request.failed_exec [DecidableEq ι] (family : Family ι) (depth : Nat) (r : Request ι)
    (w : World ι) : (r.exec family depth w).world.state.failed =
      ((r.start w.state).failed || (r.exec family depth w).events.any Event.fails) :=
  (r.exec_holds (markLaw_governs family) depth w).2

theorem Options.fail_eq_true_iff {o : Options} :
    o.fail = true ↔ o.get? "fail" = none ∨ ∃ v, o.get? "fail" = some v ∧ v.truthy = true := by
  unfold Options.fail Options.flag
  cases o.get? "fail" with
  | none => simp
  | some v => simp

theorem Event.fails_iff {e : Event ι} :
    e.fails = true ↔ e = .changed .fail ∨ ∃ q level h o result,
      e = .returned q level (.step h o) result ∧ (result = .null ∨ result = .bool false) ∧
      (o.get? "fail" = none ∨ ∃ v, o.get? "fail" = some v ∧ v.truthy = true) := by
  constructor
  · intro h
    unfold Event.fails at h
    split at h
    · exact Or.inl rfl
    · rename_i q level handler o result
      rw [Bool.and_eq_true, Bool.not_eq_true'] at h
      exact Or.inr ⟨q,level,handler,o,result,rfl,Value.truthy_eq_false_iff.1 h.1,
        Options.fail_eq_true_iff.1 h.2⟩
    · cases h
  · rintro (rfl | ⟨q,level,h,o,result,rfl,hr,ho⟩)
    · rfl
    · simp only [Event.fails]
      rw [Value.truthy_eq_false_iff.2 hr, Options.fail_eq_true_iff.2 ho]
      rfl

variable [DecidableEq ι]

/-- The mark after a run, and at each event that shows it, is there exactly if it was there at the
start, or a handler failed the state, or a step whose options allow it gave back a falsy value. -/
theorem Request.failed_iff (family : Family ι) (depth : Nat) (r : Request ι) (w : World ι) :
    let out := r.exec family depth w
    (out.world.state.failed = true ↔ (r.start w.state).failed = true ∨
      .changed .fail ∈ out.events ∨ ∃ q level h o result,
        .returned q level (.step h o) result ∈ out.events ∧
        (result = .null ∨ result = .bool false) ∧
        (o.get? "fail" = none ∨ ∃ v, o.get? "fail" = some v ∧ v.truthy = true)) ∧
    ∀ before e after, out.events = before ++ e :: after →
      e.Shows ((r.start w.state).failed || before.any Event.fails) := by
  intro out
  constructor
  · rw [r.failed_exec family depth w, Bool.or_eq_true, List.any_eq_true]
    refine or_congr Iff.rfl ⟨?_,?_⟩
    · rintro ⟨e,he,hf⟩
      rcases Event.fails_iff.1 hf with rfl | ⟨q,level,h,o,result,rfl,hr⟩
      · exact Or.inl he
      · exact Or.inr ⟨q,level,h,o,result,he,hr⟩
    · rintro (he | ⟨q,level,h,o,result,he,hr⟩)
      · exact ⟨_,he,rfl⟩
      · exact ⟨_,he,Event.fails_iff.2 (Or.inr ⟨q,level,h,o,result,rfl,hr⟩)⟩
  · intro before e after h
    exact shows_of_eq h

/-- In every run, steps, wraps and gates are executed in states that are not failed and failure
handlers in failed ones. So nothing but failure handlers is executed once the mark is set, and none
of them in a run that leaves it unset. -/
theorem Request.kinds_fit (family : Family ι) (depth : Nat) (r : Request ι) (w : World ι) :
    let out := r.exec family depth w
    (∀ q level i s, .executing q level i s ∈ out.events → s.failed = i.isFailure) ∧
    (∀ before after, out.events = before ++ after →
      (r.start w.state).failed = true ∨ (∃ e ∈ before, e.fails = true) →
      ∀ q level i s, .executing q level i s ∈ after → i.isFailure = true) ∧
    (out.world.state.failed = false →
      ∀ q level i s, .executing q level i s ∈ out.events → i.isFailure = false) := by
  intro out
  refine ⟨?_,?_,?_⟩
  · intro q level i s he
    obtain ⟨before,after,h⟩ := List.append_of_mem he
    have hs := shows_of_eq h
    exact hs.1.trans hs.2.symm
  · intro before after h hset q level i s he
    obtain ⟨mid,rest,rfl⟩ := List.append_of_mem he
    rw [← List.append_assoc] at h
    rw [(shows_of_eq h).2]
    rcases hset with hset | ⟨e,he,hf⟩
    · rw [hset, Bool.true_or]
    · rw [Bool.or_eq_true, List.any_eq_true]
      exact Or.inr ⟨e,List.mem_append_left mid he,hf⟩
  · intro hend q level i s he
    obtain ⟨before,after,h⟩ := List.append_of_mem he
    rw [r.failed_exec family depth w, Bool.or_eq_false_iff] at hend
    rw [(shows_of_eq h).2, hend.1, Bool.false_or, List.any_eq_false]
    intro e hb
    refine List.any_eq_false.1 hend.2 e ?_
    have hmem : e ∈ out.events := by
      rw [h]
      exact List.mem_append_left _ hb
    exact hmem

end Cascade
