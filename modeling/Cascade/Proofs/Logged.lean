import Cascade.Proofs.Law.Trees
import Cascade.Proofs.Recorded.Path
import Cascade.Proofs.Replay

/-! # The call log of a run

The call log is an entry like any other, read and written anew for each name. If nothing but
recording writes to it, it only grows: what is recorded by pipelines within others, by what a wrap
runs again and by failure handlers is added to the one list, up to where the run ends or is halted.
-/
namespace Cascade

variable {ι : Type}

/-! ## Recording a name -/

namespace CallLog

theorem entries_congr {s t : State} (h : t.get? key.raw = s.get? key.raw) :
    entries t = entries s := by
  unfold entries
  rw [h]

/-- The list of `s` is still there in `t`, with the names behind it. -/
structure Extends (s t : State) (names : List String) : Prop where
  log : ∃ log, entries s = .ok log ∧ entries t = .ok (log ++ names.map .string)
  calls : calls t = calls s ++ names

theorem extends_of_entries {s t : State} {log : List Json.Value} {names : List String}
    (hs : entries s = .ok log) (ht : entries t = .ok (log ++ names.map .string)) :
    Extends s t names where
  log := ⟨log,hs,ht⟩
  calls := by
    rw [calls_of_entries hs, calls_of_entries ht, List.filterMap_append, List.filterMap_map]
    exact congrArg _ (List.filterMap_some)

/-- Only what is neither a list nor `null` is refused. -/
theorem entries_of_not_writable {s : State} (h : ¬ Writable s) :
    ∃ other, s.get? "calls" = some other ∧
      entries s = .error (.misconfigured (.notACallLog other)) := by
  cases he : entries s with
  | ok log => exact absurd ⟨log,he⟩ h
  | error f =>
    unfold entries at he
    split at he
    · cases he
    · cases he
    · cases he
    · rename_i other _ _ hs
      cases he
      exact ⟨other,hs,rfl⟩

end CallLog

open CallLog (Writable Extends)

theorem Exec.change_record {w : World ι} (hw : Writable w.state) (name : String) :
    ∃ s, (change (.record name) : Exec ι Unit) w =
        ⟨.ok (), { w with state := s }, [.changed (.record name)]⟩ ∧
      Extends w.state s [name] ∧ s.failed = w.state.failed ∧
      ∀ k, k ≠ "calls" → s.get? k = w.state.get? k := by
  obtain ⟨log,hlog⟩ := hw
  refine ⟨w.state.put CallLog.key (.array (log ++ [Json.Value.string name])),?_,
    CallLog.extends_of_entries hlog (CallLog.entries_put _ _),rfl,
    fun k hk => (CallLog.adds_record hlog name).other k hk⟩
  rw [change_apply, show Change.apply (.record name) w.state = _ from
    CallLog.record_of_entries hlog name]

theorem Exec.change_record_of_not_writable {w : World ι} (hw : ¬ Writable w.state)
    (name : String) : ∃ other, w.state.get? "calls" = some other ∧
      let f : Fault := .misconfigured (.notACallLog other)
      (change (.record name) : Exec ι Unit) w = ⟨.error (.fault f), w, [.raised f w.state]⟩ := by
  obtain ⟨other,hother,he⟩ := CallLog.entries_of_not_writable hw
  have hrecord : Change.apply (.record name) w.state =
      .error (.misconfigured (.notACallLog other)) := by
    show (CallLog.entries w.state).map _ = _
    rw [he]
    rfl
  refine ⟨other,hother,?_⟩
  rw [change_apply, hrecord]

/-! ## What a run records -/

/-- The change writes to the call log by recording a name only. -/
def Change.SparesLog : Change → Prop
  | set key _ | remove key => key ≠ CallLog.key.raw
  | fail | record _ => True

def Event.recorded? : Event ι → Option String
  | changed (.record name) => some name
  | _ => none

/-- The names that are recorded, in the order of the calls. -/
def recorded (events : List (Event ι)) : List String := events.filterMap Event.recorded?

/-- Whatever change the events tell of, it is of `C`. -/
def changingTelling (ι : Type) (C : Change → Prop) : Telling ι where
  Of events := ∀ c, .changed c ∈ events → C c
  nil _ h := nomatch h
  append hd he c h := (List.mem_append.1 h).elim (hd c) (he c)
  aside he c h := by
    cases List.mem_singleton.1 h
    cases he

/-- If the handlers of a family make changes of `C` only, so does every run. -/
theorem Request.changes_only [DecidableEq ι] {family : Family ι} {C : Change → Prop}
    (hf : ∀ q, (family q).All (Program.ChangesOnly C)) (depth : Nat) (r : Request ι) {w : World ι}
    (hw : w.forest.Faithful family) :
    ∀ c, .changed c ∈ (r.exec family depth w).events → C c := by
  have hchanged : ∀ c, C c → (changingTelling ι C).Of [.changed c] := by
    intro c hc d hd
    cases List.mem_singleton.1 hd
    exact hc
  refine Telling.request hchanged hf (fun depth hl site i hs hc v hv => ?_) depth r hw
  have hact := Telling.act_obeys hchanged hf hl hs hc v hv
  have hannounced : (changingTelling ι C).Of (site.announcement family i v.state) := by
    intro c h
    exact absurd h (Site.forall_announcement (P := fun e => e ≠ .changed c) nofun
      (fun _ _ => nofun) _ · rfl)
  rw [site.perform_apply]
  exact ⟨hact.1,(changingTelling ι C).append hannounced hact.2⟩

namespace CallLog

theorem entries_after {s : State} {log : List Json.Value} (h : entries s = .ok log) (e : Event ι)
    (he : ∀ c, e = .changed c → c.SparesLog) :
    entries (e.after s) = .ok (log ++ (recorded [e]).map .string) := by
  have hsame : ∀ t : State, t.get? key.raw = s.get? key.raw → entries t = .ok (log ++ []) := by
    intro t ht
    rw [entries_congr ht, h, List.append_nil]
  cases e with
  | changed c =>
    have hc := he c rfl
    cases c with
    | set k v =>
      refine hsame _ ?_
      show ((s.set k v).toOption.getD s).get? key.raw = _
      cases hk : Key.isSymbolic k with
      | true =>
        rw [State.set_of_symbolic hk]
        exact (State.get?_put s _ v _).trans (if_neg hc)
      | false =>
        rw [State.set_of_not_symbolic hk]
        rfl
    | remove k => exact hsame _ ((State.get?_remove s k _).trans (if_neg hc))
    | fail => exact hsame _ rfl
    | record name =>
      show entries ((record s name).toOption.getD s) = _
      rw [record_of_entries h]
      exact entries_put s _
  | returned q level i result =>
    refine hsame _ ?_
    show (i.verdict result s).get? key.raw = _
    unfold Instruction.verdict
    split <;> rfl
  | _ => exact hsame _ rfl

/-- By induction on the events: each leaves a list to which the next may add. -/
theorem entries_replay {s : State} {log : List Json.Value} (h : entries s = .ok log)
    {events : List (Event ι)} (he : ∀ c, .changed c ∈ events → c.SparesLog) :
    entries (replay s events) = .ok (log ++ (recorded events).map .string) := by
  induction events generalizing s log with
  | nil => exact h.trans (congrArg _ (List.append_nil log).symm)
  | cons e rest ih =>
    have hafter := entries_after h e fun c hc => he c (hc ▸ List.mem_cons_self)
    refine (ih hafter fun c hc => he c (List.mem_cons_of_mem e hc)).trans ?_
    rw [List.append_assoc, ← List.map_append]
    exact congrArg (fun names => Except.ok (log ++ names.map Json.Value.string))
      (List.filterMap_append (l := [e])).symm

end CallLog

/-- Recording a name adds it to the log and changes nothing else, and is refused only where there is
something else than a list or `null`, which is left as it is. So if the handlers of a family write
to the log by recording only, what it holds at first stays, and what a run records is added in the
order of the calls: in the end, whether the run ends well or is halted, and at any moment before, so
that no call of it is refused. -/
theorem Request.exec_logged [DecidableEq ι] {family : Family ι}
    (hf : ∀ q, (family q).All (Program.ChangesOnly Change.SparesLog)) (depth : Nat) (r : Request ι)
    {w : World ι} (hw : w.forest.Faithful family) (hs : Writable (r.start w.state)) :
    (∀ s : State, Writable s ↔ s.get? "calls" = none ∨ s.get? "calls" = some .null ∨
      ∃ log, s.get? "calls" = some (.array log)) ∧
    (∀ (v : World ι) name, Writable v.state →
      ∃ s, Exec.change (.record name) v =
          ⟨.ok (), { v with state := s }, [.changed (.record name)]⟩ ∧
        Extends v.state s [name] ∧ s.failed = v.state.failed ∧
        ∀ k, k ≠ "calls" → s.get? k = v.state.get? k) ∧
    (∀ (v : World ι) name, ¬ Writable v.state → ∃ other, v.state.get? "calls" = some other ∧
      let f : Fault := .misconfigured (.notACallLog other)
      (Exec.change (.record name) : Exec ι Unit) v = ⟨.error (.fault f), v, [.raised f v.state]⟩) ∧
    let out := r.exec family depth w
    Extends (r.start w.state) out.world.state (recorded out.events) ∧
    ∀ before after, out.events = before ++ after →
      Extends (r.start w.state) (replay (r.start w.state) before) (recorded before) := by
  have hchanges := r.changes_only hf depth hw
  obtain ⟨log,hlog⟩ := hs
  have hmoment : ∀ before after, (r.exec family depth w).events = before ++ after →
      Extends (r.start w.state) (replay (r.start w.state) before) (recorded before) := by
    intro before after h
    refine CallLog.extends_of_entries hlog (CallLog.entries_replay hlog fun c hc => ?_)
    exact hchanges c (h ▸ List.mem_append_left after hc)
  refine ⟨fun _ => CallLog.writable_iff,fun v name hv => Exec.change_record hv name,
    fun v name hv => Exec.change_record_of_not_writable hv name,?_,hmoment⟩
  rw [r.replay_exec]
  exact hmoment _ [] (List.append_nil _).symm

/-- A wrap that runs its continuation twice, around a pipeline of the container, and a failure handler
that raises a fault. -/
def logging : Family Bool := fun inner =>
  if inner then
    { name := "inner", declarations := [.step (.recordingStep "b" (.bool true)) .empty] }
  else { name := "outer", declarations := [.container (.ofList [("again", .pipeline true)]),
    .wrap (.around (.change (.record "a") (.call .next fun _ => .call .next .done))) .empty
      [.step (.named "again") .empty],
    .step (.recordingStep "c" (.bool false)) .empty,
    .failure (.function (.change (.record "d") (.raise (.handler "stop")))) .empty] }

theorem logging_sparesLog (inner : Bool) :
    (logging inner).All (Program.ChangesOnly Change.SparesLog) := by
  refine ⟨?_,by cases inner <;> nofun,by cases inner <;> nofun⟩
  cases inner with
  | true => exact List.forall_mem_singleton.2 ⟨trivial,trivial⟩
  | false =>
    have htwice : Program.ChangesOnly Change.SparesLog
        (.change (.record "a") (.call .next fun _ => .call .next .done) : Program Bool) :=
      ⟨trivial,fun _ _ => trivial⟩
    exact List.forall_mem_cons.2 ⟨trivial,List.forall_mem_cons.2 ⟨htwice,List.forall_mem_cons.2
      ⟨trivial,List.forall_mem_cons.2 ⟨⟨trivial,trivial⟩,
        List.forall_mem_singleton.2 ⟨trivial,trivial⟩⟩⟩⟩⟩

theorem Request.exec_logged_stopped :
    let s : State := State.empty.put CallLog.key (.array [.int 1, .string "x"])
    let out := (Request.run false 0).exec logging 2 { state := s }
    (∀ q, (logging q).All (Program.ChangesOnly Change.SparesLog)) ∧ Writable s ∧
    (out.result matches .error (.fault (.handler "stop"))) = true ∧
    recorded out.events = ["a", "b", "b", "c", "d"] ∧
    CallLog.calls out.world.state = ["x", "a", "b", "b", "c", "d"] ∧
    Extends s out.world.state ["a", "b", "b", "c", "d"] := by
  intro s out
  have hs : Writable s := ⟨_,CallLog.entries_put _ _⟩
  have hout : (Request.run false 0).exec logging 2 { state := s } = out := rfl
  have hrecorded : recorded out.events = ["a", "b", "b", "c", "d"] := by decide +kernel
  obtain ⟨_,_,_,hextends,_⟩ := Request.exec_logged logging_sparesLog 2 (.run false 0)
    (w := { state := s }) Forest.faithful_nil hs
  rw [hout, hrecorded] at hextends
  exact ⟨logging_sparesLog,hs,by decide +kernel,hrecorded,by decide +kernel,hextends⟩

end Cascade
