import Cascade.State.Basic

/-! # The call log

Handlers that want to be seen write their names to a list in the state. Pipelines that share a state
share its log. Recording a name appends it and leaves the failed mark alone.
-/
namespace Cascade

open Json (Value)

namespace CallLog

def key : Key := ⟨"calls", by decide⟩

def entries (s : State) : Except Fault (List Value) :=
  match s.get? key.raw with
  | none | some .null => .ok []
  | some (.array calls) => .ok calls
  | some other => .error (.misconfigured (.notACallLog other))

def record (s : State) (name : String) : Except Fault State :=
  (entries s).map fun calls => s.put key (.array (calls ++ [.string name]))

def calls (s : State) : List String :=
  match s.get? key.raw with
  | some (.array calls) => calls.filterMap Value.string?
  | _ => []

theorem calls_of_entries {s : State} {log : List Value} (h : entries s = .ok log) :
    calls s = log.filterMap Value.string? := by
  unfold entries at h
  unfold calls
  split at h
  · rename_i hs
    cases h
    rw [hs]
    rfl
  · rename_i hs
    cases h
    rw [hs]
    rfl
  · rename_i hs
    cases h
    rw [hs]
  · cases h

theorem record_of_entries {s : State} {calls : List Value} (h : entries s = .ok calls)
    (name : String) : record s name = .ok (s.put key (.array (calls ++ [.string name]))) := by
  unfold record
  rw [h]
  rfl

theorem entries_put (s : State) (calls : List Value) :
    entries (s.put key (.array calls)) = .ok calls := by
  unfold entries
  rw [State.get?_put, if_pos rfl]

theorem failed_record {s t : State} {name : String} (h : record s name = .ok t) :
    t.failed = s.failed := by
  unfold record at h
  cases he : entries s with
  | error e => simp [he, Except.map] at h
  | ok calls =>
    simp [he, Except.map] at h
    rw [← h, State.failed_put]

end CallLog

end Cascade
