import Mathlib.Data.Finmap
import Cascade.State.Operation
import Cascade.Proofs.Listed
import Cascade.Proofs.Replay

/-! # What a state stands for

A state stands for a ledger: finitely many entries under symbolic keys, and the failed mark. Every
operation answers as the ledger does and leaves a state that stands for the ledger after it, and all
that can be seen of a state is told by its ledger. A run performs operations too, which its events
tell, so the state that it leaves, however it ends, has a history as well.
-/
namespace Cascade

open Json (Value)

variable {ι : Type}

/-- Finitely many entries under symbolic keys, and the failed mark. -/
structure Ledger where
  entries : Finmap fun _ : Key => Value := ∅
  failed : Bool := false

/-- The answer that an operation is to give, and the ledger after it. -/
def Ledger.perform (l : Ledger) : State.Operation → Except Fault (Option Value) × Ledger
  | .set form value =>
    match form.resolve with
    | .ok k => (.ok (l.entries.lookup k), { l with entries := l.entries.insert k value })
    | .error f => (.error f, l)
  | .remove key =>
    match Key.ofString? key with
    | some k => (.ok (l.entries.lookup k), { l with entries := l.entries.erase k })
    | none => (.ok none, l)
  | .fail => (.ok none, { l with failed := true })
  | .clone => (.ok none, l)

theorem Key.raw_injective : Function.Injective Key.raw := by
  rintro ⟨a, _⟩ ⟨b, _⟩ rfl
  rfl

namespace State

/-- The state has the entries of the ledger, and its mark. -/
structure Keeps (s : State) (l : Ledger) : Prop where
  get?_raw (k : Key) : s.get? k.raw = l.entries.lookup k
  failed : s.failed = l.failed

/-- All that is seen of the state is told by the ledger. -/
structure Shows (s : State) (l : Ledger) : Prop where
  symbolic : ∀ key ∈ s.keys, Key.isSymbolic key = true
  get? (k : Key) : s.get? k.raw = l.entries.lookup k
  contains (k : Key) : s.contains k.raw = (l.entries.lookup k).any fun v => !v.isNull
  /-- What is not symbolic is not found, and there is nothing to remove. -/
  unfound (key : String) (h : Key.isSymbolic key = false) :
    s.get? key = none ∧ s.contains key = false ∧ s.perform (.remove key) = (.ok none, s)
  size : s.size = l.entries.keys.card
  isEmpty : s.isEmpty = true ↔ l.entries = ∅
  params : s.params? = l.entries.lookup Key.params
  param (name : String) : s.param? name = (l.entries.lookup Key.params).bind (·.field? name)
  ascending : s.keys.Pairwise (· < ·)
  keys (key : String) : key ∈ s.keys ↔ ∃ k ∈ l.entries, k.raw = key
  failed : s.failed = l.failed

theorem contains_eq (s : State) (key : String) :
    s.contains key = (s.get? key).any fun v => !v.isNull := by
  unfold contains
  cases s.get? key <;> rfl

theorem remove_of_not_symbolic {key : String} (h : Key.isSymbolic key = false) (s : State) :
    s.remove key = s := by
  refine ext (SortedMap.ext fun k => ?_) rfl
  show (s.remove key).get? k = s.get? k
  rw [get?_remove]
  split
  · rename_i hk
    rw [← hk, get?_of_not_symbolic h]
  · rfl

theorem keeps_empty : empty.Keeps {} where
  get?_raw _ := rfl
  failed := rfl

theorem Keeps.put {s : State} {l : Ledger} (h : s.Keeps l) (k : Key) (value : Value) :
    (s.put k value).Keeps { l with entries := l.entries.insert k value } where
  get?_raw k' := by
    rw [get?_put]
    by_cases hk : k = k'
    · rw [hk, if_pos rfl, Finmap.lookup_insert]
    · rw [if_neg (Key.raw_injective.ne hk), Finmap.lookup_insert_of_ne _ (Ne.symm hk), h.get?_raw]
  failed := h.failed

theorem Keeps.remove {s : State} {l : Ledger} (h : s.Keeps l) (k : Key) :
    (s.remove k.raw).Keeps { l with entries := l.entries.erase k } where
  get?_raw k' := by
    rw [get?_remove]
    by_cases hk : k = k'
    · rw [hk, if_pos rfl, Finmap.lookup_erase]
    · rw [if_neg (Key.raw_injective.ne hk), Finmap.lookup_erase_ne (Ne.symm hk), h.get?_raw]
  failed := h.failed

theorem Keeps.fail {s : State} {l : Ledger} (h : s.Keeps l) : s.fail.Keeps { l with failed := true }
    where
  get?_raw k := h.get?_raw k
  failed := rfl

/-- A state answers as its ledger does, and what it then is stands for the ledger after it. -/
theorem Keeps.perform {s : State} {l : Ledger} (h : s.Keeps l) (op : Operation) :
    (s.perform op).1 = (l.perform op).1 ∧ (s.perform op).2.Keeps (l.perform op).2 := by
  cases op with
  | set form value =>
    rw [State.perform, Ledger.perform]
    cases form.resolve with
    | ok k => exact ⟨congrArg Except.ok (h.get?_raw k),h.put k value⟩
    | error f => exact ⟨rfl,h⟩
  | remove key =>
    rw [State.perform, Ledger.perform]
    cases hk : Key.ofString? key with
    | some k =>
      obtain rfl := Key.raw_of_ofString? hk
      exact ⟨congrArg Except.ok (h.get?_raw k),h.remove k⟩
    | none =>
      have hs := Key.ofString?_eq_none_iff.1 hk
      refine ⟨congrArg Except.ok (get?_of_not_symbolic hs s),?_⟩
      rw [remove_of_not_symbolic hs]
      exact h
  | fail => exact ⟨rfl,h.fail⟩
  | clone => exact ⟨rfl,h⟩

theorem Keeps.mem_keys {s : State} {l : Ledger} (h : s.Keeps l) (key : String) :
    key ∈ s.keys ↔ ∃ k ∈ l.entries, k.raw = key := by
  constructor
  · intro hkey
    have hs := s.symbolic key hkey
    refine ⟨⟨key, hs⟩,?_,rfl⟩
    rw [← Finmap.lookup_isSome, ← h.get?_raw]
    exact SortedMap.mem_keys_iff.1 hkey
  · rintro ⟨k, hk, rfl⟩
    refine SortedMap.mem_keys_iff.2 ?_
    show (s.get? k.raw).isSome = true
    rw [h.get?_raw]
    exact Finmap.lookup_isSome.2 hk

/-- There are as many entries as the ledger has keys: each key is listed once. -/
theorem Keeps.size_eq {s : State} {l : Ledger} (h : s.Keeps l) :
    s.size = l.entries.keys.card := by
  have hkeys : s.keys.toFinset = l.entries.keys.map ⟨Key.raw, Key.raw_injective⟩ := by
    ext key
    rw [List.mem_toFinset, h.mem_keys, Finset.mem_map]
    exact exists_congr fun k => and_congr_left' Finmap.mem_keys.symm
  have hsize : s.keys.length = s.size := List.length_map _
  calc s.size = s.keys.length := hsize.symm
    _ = s.keys.toFinset.card := (List.toFinset_card_of_nodup s.data.nodup_keys).symm
    _ = l.entries.keys.card := by rw [hkeys, Finset.card_map]

theorem isEmpty_eq_true_iff {s : State} : s.isEmpty = true ↔ s.size = 0 := by
  show s.data.entries.isEmpty = true ↔ s.data.entries.length = 0
  rw [List.isEmpty_iff, List.length_eq_zero_iff]

theorem Keeps.shows {s : State} {l : Ledger} (h : s.Keeps l) : s.Shows l where
  symbolic := s.symbolic
  get? := h.get?_raw
  contains k := by rw [contains_eq, h.get?_raw]
  unfound key hk := by
    have hg := get?_of_not_symbolic hk s
    refine ⟨hg,by rw [contains_eq, hg]; rfl,?_⟩
    rw [State.perform, hg, remove_of_not_symbolic hk]
  size := h.size_eq
  isEmpty := by
    rw [isEmpty_eq_true_iff, h.size_eq, Finset.card_eq_zero]
    constructor
    · intro hkeys
      refine Finmap.ext_lookup fun k => Finmap.lookup_eq_none.2 fun hk => ?_
      exact Finset.notMem_empty k (hkeys ▸ Finmap.mem_keys.2 hk)
    · rintro he
      rw [he, Finmap.keys_empty]
  params := h.get?_raw Key.params
  param name := by
    unfold param? params?
    rw [h.get?_raw]
  ascending := s.data.keys_ascending
  keys := h.mem_keys
  failed := h.failed

theorem failed_perform (s : State) {op : Operation} (h : op.isData = true) :
    (s.perform op).2.failed = s.failed := by
  cases op with
  | set form value =>
    rw [State.perform]
    cases form.resolve <;> rfl
  | remove key => rfl
  | fail | clone => cases h

theorem perform_set_of_not_symbolic {raw : String} (h : Key.isSymbolic raw = false) (s : State)
    (value : Value) :
    s.perform (.set (.spelling raw) value) = (.error (.invalidKey raw), s) := by
  rw [perform_set_spelling, set_of_not_symbolic h]

end State

/-! ## Histories -/

/-- How a state came to be: the parameters that it was made with, if any, and what was performed on
it since. -/
structure History where
  params : Option Value := none
  operations : List State.Operation := []

namespace History

def origin : Option Value → State
  | none => .empty
  | some params => .withParams params

def opening : Option Value → Ledger
  | none => {}
  | some params => { entries := (∅ : Finmap fun _ : Key => Value).insert Key.params params }

def state (h : History) : State :=
  h.operations.foldl (fun s op => (s.perform op).2) (origin h.params)

/-- The successful sets and the removes, replayed on a finite map, and whether there was a `fail`. -/
def ledger (h : History) : Ledger :=
  h.operations.foldl (fun l op => (l.perform op).2) (opening h.params)

theorem origin_keeps (params : Option Value) : (origin params).Keeps (opening params) := by
  cases params with
  | none => exact State.keeps_empty
  | some params => exact State.keeps_empty.put Key.params params

theorem keeps (h : History) : h.state.Keeps h.ledger := by
  obtain ⟨params, ops⟩ := h
  unfold state ledger
  have hstart := origin_keeps params
  generalize origin params = s at hstart
  generalize opening params = l at hstart
  induction ops generalizing s l with
  | nil => exact hstart
  | cons op rest ih => exact ih _ _ (hstart.perform op).2

/-- What is seen of the state at the end of the history, now and by one operation more. -/
structure Sound (h : History) : Prop where
  shows : h.state.Shows h.ledger
  /-- Setting answers with the previous value and removing with the removed one. -/
  answers (op : State.Operation) : (h.state.perform op).1 = (h.ledger.perform op).1
  refused (raw : String) (value : Value) (hr : Key.isSymbolic raw = false) :
    h.state.perform (.set (.spelling raw) value) = (.error (.invalidKey raw), h.state)
  failed (op : State.Operation) (hop : op.isData = true) :
    (h.state.perform op).2.failed = h.state.failed
  data : (h.state.perform .fail).2.data = h.state.data

theorem sound (h : History) : h.Sound where
  shows := h.keeps.shows
  answers op := (h.keeps.perform op).1
  refused _ value hr := State.perform_set_of_not_symbolic hr h.state value
  failed _ hop := h.state.failed_perform hop
  data := rfl

end History

/-! ## Operations in a run -/

namespace Event

/-- What the event tells to be performed on the state. To record a name is to set the call log, and
a verdict may be to fail. -/
def operation? (s : State) : Event ι → Option State.Operation
  | changed (.set key value) => some (.set (.spelling key) value)
  | changed (.remove key) => some (.remove key)
  | changed .fail => some .fail
  | changed (.record name) => (CallLog.entries s).toOption.map fun calls =>
    .set (.key CallLog.key) (.array (calls ++ [.string name]))
  | returned _ _ i result => if i.isStep && i.canFail result then some .fail else none
  | _ => none

/-- The state after an event is the one after what it tells to be performed. -/
theorem after_eq (s : State) (e : Event ι) :
    e.after s = ((e.operation? s).elim s fun op => (s.perform op).2) := by
  cases e with
  | changed c =>
    cases c with
    | set key value =>
      show (s.set key value).toOption.getD s = (s.perform (.set (.spelling key) value)).2
      rw [State.perform_set_spelling]
      cases s.set key value <;> rfl
    | remove key => rfl
    | fail => rfl
    | record name =>
      show (CallLog.record s name).toOption.getD s = _
      unfold operation? CallLog.record
      cases CallLog.entries s <;> rfl
  | returned q level i result =>
    show i.verdict result s = _
    rw [operation?, Instruction.verdict]
    split <;> rfl
  | _ => rfl

end Event

/-- What the events tell to be performed, from the state before them. -/
def performed : State → List (Event ι) → List State.Operation
  | _, [] => []
  | s, e :: rest => (e.operation? s).toList ++ performed (e.after s) rest

theorem replay_eq (s : State) (events : List (Event ι)) :
    replay s events = (performed s events).foldl (fun s op => (s.perform op).2) s := by
  induction events generalizing s with
  | nil => rfl
  | cons e rest ih =>
    rw [performed, List.foldl_append]
    refine (ih (e.after s)).trans (congrArg (List.foldl _ · _) ?_)
    rw [e.after_eq]
    cases e.operation? s <;> rfl

/-- The history goes on with what the events tell to be performed. -/
def History.through (h : History) (events : List (Event ι)) : History :=
  { h with operations := h.operations ++ performed h.state events }

theorem History.state_through (h : History) (events : List (Event ι)) :
    (h.through events).state = replay h.state events := by
  rw [replay_eq]
  exact List.foldl_append

/-- The history that a run starts with, on a state that has this one. -/
def Request.history (h : History) : Request ι → History
  | call _ params => { params := some params }
  | run .. | invoke .. => h

theorem Request.state_history (h : History) (r : Request ι) :
    (r.history h).state = r.start h.state := by
  cases r <;> rfl

/-- After any operations, all that is seen of a state is told by the finite map and the mark that
the operations make. So it is after a run on the state, whether it ends well or is halted: what it
leaves has the history that goes on with what the events of the run tell to be performed. -/
theorem History.accounted (h : History) : h.Sound ∧
    ∀ (ι : Type) [DecidableEq ι] (family : Family ι) (depth : Nat) (r : Request ι)
      (forest : Forest ι),
      let out := r.exec family depth ⟨h.state, forest⟩
      let after := (r.history h).through out.events
      out.world.state = after.state ∧ after.Sound := by
  refine ⟨h.sound,fun ι _ family depth r forest => ⟨?_,sound _⟩⟩
  rw [state_through, Request.state_history]
  exact r.replay_exec family depth ⟨h.state, forest⟩

/-- The refused set in between is not seen; the removed entry and the mark are. -/
example :
    let s := History.state ⟨some .null, [.set (.spelling "model") .null,
      .set (.spelling "no key") .null, .fail, .set (.key CallLog.key) .null, .remove "model"]⟩
    s.keys = ["calls", "params"] ∧ s.failed = true := by
  decide +kernel

end Cascade
