import Cascade.Proofs.Level.Split
import Cascade.Proofs.Raised.Session

/-! # Gates on a level

A gate looks for its keys, in their order, in the state that the traversal of its level comes to it
with. If it finds them all, the traversal goes on from there; if not, it ends with the first that is
missing. A traversal that ends before the gate, or that the state fails before it, takes no notice
of the gate.
-/
namespace Cascade

open Json (Value)

variable {ι : Type}

/-! ## What gates look for -/

namespace State

/-- The entry is there and is not `null`. -/
def Has (s : State) (key : Key) : Prop := ∃ v, s.get? key.raw = some v ∧ v ≠ .null

/-- The parameters are an object with that field, and it is not `null`. -/
def HasParam (s : State) (key : Key) : Prop :=
  ∃ fields v, s.params? = some (.object fields) ∧ Entries.get? key.raw fields = some v ∧ v ≠ .null

theorem contains_iff {s : State} {key : Key} : s.contains key.raw = true ↔ s.Has key := by
  unfold contains Has
  cases s.get? key.raw with
  | none => simp
  | some v => simp [← Value.isNull_iff]

theorem containsParam_iff {s : State} {key : Key} :
    s.containsParam key.raw = true ↔ s.HasParam key := by
  unfold containsParam HasParam param?
  cases s.params? with
  | none => simp
  | some params =>
    cases params with
    | object fields =>
      have hfield : (Value.object fields).field? key.raw = Entries.get? key.raw fields := rfl
      rw [Option.bind_some, hfield]
      cases hf : Entries.get? key.raw fields with
      | none => simp [hf]
      | some v => simp [hf, ← Value.isNull_iff]
    | _ => simp [Value.field?]

end State

namespace Gate

/-- The gate finds the key where it looks for it; keys of options are left to the instructions. -/
def Finds (g : Gate) (s : State) (key : Key) : Prop :=
  match g.category with
  | .state => s.Has key
  | .params => s.HasParam key
  | .options => True

/-- The key is the first, in the order of the gate, that it does not find. -/
def Misses (g : Gate) (s : State) (key : Key) : Prop :=
  ∃ before after, g.keys = before ++ key :: after ∧ (∀ k ∈ before, g.Finds s k) ∧ ¬ g.Finds s key

/-- Whether the gate finds the key. -/
def finds (g : Gate) (s : State) (key : Key) : Bool :=
  match g.category with
  | .state => s.contains key.raw
  | .params => s.containsParam key.raw
  | .options => true

theorem finds_iff {g : Gate} {s : State} {key : Key} : g.finds s key = true ↔ g.Finds s key := by
  unfold finds Finds
  cases g.category with
  | state => exact State.contains_iff
  | params => exact State.containsParam_iff
  | options => simp

theorem missing?_eq (g : Gate) (s : State) :
    g.missing? s = g.keys.find? fun key => !g.finds s key := by
  unfold missing? finds
  cases g.category with
  | state | params => rfl
  | options => exact (List.find?_eq_none.2 (by simp)).symm

theorem missing?_eq_none_iff {g : Gate} {s : State} :
    g.missing? s = none ↔ ∀ key ∈ g.keys, g.Finds s key := by
  rw [missing?_eq, List.find?_eq_none]
  simp [finds_iff]

theorem missing?_eq_some_iff {g : Gate} {s : State} {key : Key} :
    g.missing? s = some key ↔ g.Misses s key := by
  unfold Misses
  rw [missing?_eq, List.find?_eq_some_iff_append]
  simp only [Bool.not_eq_true', Bool.not_not, ← finds_iff, Bool.not_eq_true]
  constructor
  · rintro ⟨hkey,before,after,hk,hb⟩
    exact ⟨before,after,hk,hb,hkey⟩
  · rintro ⟨before,after,hk,hb,hkey⟩
    exact ⟨hkey,before,after,hk,hb⟩

end Gate

/-! ## How far a traversal comes -/

namespace Site

variable {family : Family ι} {launch : Launch ι} {site : Site ι}

variable (family launch site) in
/-- The traversal of a level goes through these instructions in states that are not failed; then the
world is `v`, these keys are required and this has been told. -/
structure Arrives (required : List Key) (before : List (Instruction ι)) (w : World ι)
    (keys : List Key) (v : World ι) (events : List (Event ι)) : Prop where
  executed : before.foldlM (site.execute family launch) required w = ⟨.ok keys, v, events⟩
  successful : ∀ k ≤ before.length,
    (worldBefore family launch site required before w k).state.failed = false

variable (family launch site) in
/-- The traversal of a level may come to what is after these instructions, or it is halted before,
or the state is failed before. -/
inductive Approach (required : List Key) (before : List (Instruction ι)) (w : World ι) : Prop where
  | arrives {keys : List Key} {v : World ι} {events : List (Event ι)}
    (h : Arrives family launch site required before w keys v events)
  | halted {halt : Halt} {v : World ι} {events : List (Event ι)}
    (h : ∀ rest, site.traverse family launch required (before ++ rest) w =
      ⟨.error halt, v, events⟩)
  | failed {k : Nat} (hk : k ≤ before.length)
    (hf : (worldBefore family launch site required before w k).state.failed = true)
    (h : ∀ i j after, i.isFailure = false → j.isFailure = false →
      site.traverse family launch required (before ++ i :: after) w =
        site.traverse family launch required (before ++ j :: after) w)

theorem Arrives.nil {required : List Key} {w : World ι} (hw : w.state.failed = false) :
    Arrives family launch site required [] w required w [] := by
  refine ⟨rfl,fun k hk => ?_⟩
  cases Nat.le_zero.1 hk
  exact hw

theorem Arrives.cons {required keys r : List Key} {i : Instruction ι}
    {before : List (Instruction ι)} {w u v : World ι} {d e : List (Event ι)}
    (hw : w.state.failed = false)
    (hi : site.execute family launch required i w = ⟨.ok keys, u, d⟩)
    (h : Arrives family launch site keys before u r v e) :
    Arrives family launch site required (i :: before) w r v (d ++ e) := by
  constructor
  · rw [List.foldlM_cons, Exec.bind_of_ok hi, h.executed]
  · intro k hk
    cases k with
    | zero => exact hw
    | succ k =>
      rw [worldBefore_succ hi]
      exact h.successful k (Nat.le_of_succ_le_succ hk)

/-- Then the traversal goes on with what is after them. -/
theorem Arrives.traverse {required keys : List Key} {before : List (Instruction ι)} {w v : World ι}
    {events : List (Event ι)} (h : Arrives family launch site required before w keys v events)
    (rest : List (Instruction ι)) : site.traverse family launch required (before ++ rest) w =
      (site.traverse family launch keys rest v).prepend events := by
  induction before generalizing required w events with
  | nil =>
    cases h.executed
    rfl
  | cons i before ih =>
    have hw : w.state.failed = false := h.successful 0 (Nat.zero_le _)
    have hexecuted := h.executed
    rw [List.foldlM_cons] at hexecuted
    rw [List.cons_append, traverse_cons, hw, if_neg (by simp)]
    rcases hi : site.execute family launch required i w with ⟨halt | r,u,d⟩
    · rw [Exec.bind_of_error hi] at hexecuted
      cases hexecuted
    · rw [Exec.bind_of_ok hi] at hexecuted
      rw [Exec.bind_of_ok hi]
      rcases hb : before.foldlM (site.execute family launch) r u with ⟨_ | last,x,e⟩ <;>
        rw [hb] at hexecuted <;> cases hexecuted
      have htail : Arrives family launch site r before u keys x e := by
        refine ⟨hb,fun k hk => ?_⟩
        have hlater := h.successful (k + 1) (Nat.succ_le_succ hk)
        rwa [worldBefore_succ hi] at hlater
      rw [ih htail]
      simp only [Outcome.prepend, List.append_assoc]

theorem Arrives.world {required keys : List Key} {before : List (Instruction ι)} {w v : World ι}
    {events : List (Event ι)}
    (h : Arrives family launch site required before w keys v events) :
    worldBefore family launch site required before w before.length = v := by
  unfold worldBefore
  rw [List.take_length, h.executed]

theorem Arrives.not_failed {required keys : List Key} {before : List (Instruction ι)}
    {w v : World ι} {events : List (Event ι)}
    (h : Arrives family launch site required before w keys v events) : v.state.failed = false := by
  have hlast := h.successful before.length (Nat.le_refl _)
  rwa [h.world] at hlast

/-- In a failed state only the failure handlers of a level matter. -/
theorem traverse_congr_of_failed {required : List Key} {before after : List (Instruction ι)}
    {i j : Instruction ι} (hi : i.isFailure = false) (hj : j.isFailure = false) {w : World ι}
    (hw : w.state.failed = true) : site.traverse family launch required (before ++ i :: after) w =
      site.traverse family launch required (before ++ j :: after) w := by
  have hcascade : ∀ {is : List (Instruction ι)}, is ≠ [] →
      site.traverse family launch required is w = site.cascade family launch required is w := by
    intro is h
    cases is with
    | nil => exact absurd rfl h
    | cons a rest => rw [traverse_cons, hw, if_pos rfl]
  have hhandlers : (before ++ i :: after).filter Instruction.isFailure =
      (before ++ j :: after).filter Instruction.isFailure := by
    rw [List.filter_append, List.filter_append, List.filter_cons_of_neg (by simp [hi]),
      List.filter_cons_of_neg (by simp [hj])]
  rw [hcascade (by simp), hcascade (by simp)]
  unfold cascade
  rw [hhandlers]

variable (family launch site) in
theorem approach (required : List Key) (before : List (Instruction ι)) (w : World ι) :
    Approach family launch site required before w := by
  -- What is executed may change the required keys as well as the world.
  induction before generalizing required w with
  | nil =>
    cases hw : w.state.failed with
    | false => exact .arrives (.nil hw)
    | true => exact .failed (Nat.le_refl 0) hw fun i j after hi hj =>
        traverse_congr_of_failed hi hj hw
  | cons i before ih =>
    cases hw : w.state.failed with
    | true => exact .failed (Nat.zero_le _) hw fun a b after ha hb =>
        traverse_congr_of_failed ha hb hw
    | false =>
      have hcons : ∀ rest, site.traverse family launch required (i :: before ++ rest) w =
          (site.execute family launch required i >>= fun r =>
            site.traverse family launch r (before ++ rest)) w := by
        intro rest
        rw [List.cons_append, traverse_cons, hw, if_neg (by simp)]
      rcases hi : site.execute family launch required i w with ⟨halt | keys,u,d⟩
      · exact .halted fun rest => (hcons rest).trans (Exec.bind_of_error hi)
      · have hstep : ∀ rest, site.traverse family launch required (i :: before ++ rest) w =
            (site.traverse family launch keys (before ++ rest) u).prepend d :=
          fun rest => (hcons rest).trans (Exec.bind_of_ok hi)
        cases ih keys u with
        | arrives h => exact .arrives (h.cons hw hi)
        | @halted halt v e h =>
          have hhalted : ∀ rest, site.traverse family launch required (i :: before ++ rest) w =
              ⟨.error halt, v, d ++ e⟩ := by
            intro rest
            rw [hstep, h]
            rfl
          exact .halted hhalted
        | @failed k hk hf h =>
          refine .failed (k := k + 1) (Nat.succ_le_succ hk) ?_ fun a b after ha hb => ?_
          · rw [worldBefore_succ hi]
            exact hf
          · rw [hstep, hstep, h a b after ha hb]

/-! ## Gates -/

theorem traverse_gate {required : List Key} {g : Gate} {w : World ι}
    (hw : w.state.failed = false) (after : List (Instruction ι)) :
    site.traverse family launch required (.gate g :: after) w =
      match g.missing? w.state with
      | none => (site.traverse family launch (g.requiredAfter required) after w).prepend
        (site.announcement family (.gate g) w.state)
      | some key => ⟨.error (.fault (.missingKey g.category key.raw w.state.text)), w,
        site.announcement family (.gate g) w.state ++
          [.raised (.missingKey g.category key.raw w.state.text) w.state]⟩ := by
  have hgate := site.perform_gate family launch g w
  rw [Gate.check_apply] at hgate
  have henact : site.enact family launch required (.gate g) w =
      site.perform family launch (.gate g) w := by
    rw [enact_eq]
    rfl
  have hkind : (Instruction.gate g : Instruction ι).isFailure = false := rfl
  rw [traverse_eq_walk, walk_cons, hw, if_neg (by simp), hkind, if_neg (by simp)]
  cases hm : g.missing? w.state with
  | none =>
    rw [hm, List.append_nil] at hgate
    rw [Exec.bind_of_ok (henact.trans hgate), ← traverse_eq_walk]
    rfl
  | some key =>
    rw [hm] at hgate
    exact Exec.bind_of_error (henact.trans hgate)

variable (family launch site) in
/-- What the traversal of a level makes of a gate on it. -/
inductive Gated (required : List Key) (before : List (Instruction ι)) (g : Gate)
    (after : List (Instruction ι)) (w : World ι) : Outcome ι Unit → Prop where
  /-- The gate finds all its keys in the state that the traversal comes to it with. -/
  | passed {keys : List Key} {v : World ι} {events : List (Event ι)}
    (h : Arrives family launch site required before w keys v events)
    (hg : ∀ key ∈ g.keys, g.Finds v.state key) :
    Gated required before g after w
      ((site.traverse family launch (g.requiredAfter keys) after v).prepend
        (events ++ site.announcement family (.gate g) v.state))
  /-- The gate misses a key in that state; the traversal ends there, and leaves the state so. -/
  | refused {keys : List Key} {v : World ι} {events : List (Event ι)} {key : Key}
    (h : Arrives family launch site required before w keys v events) (hg : g.Misses v.state key) :
    Gated required before g after w
      ⟨.error (.fault (.missingKey g.category key.raw v.state.text)), v,
        events ++ (site.announcement family (.gate g) v.state ++
          [.raised (.missingKey g.category key.raw v.state.text) v.state])⟩
  /-- The traversal is halted before the gate, whatever comes then. -/
  | halted {halt : Halt} {v : World ι} {events : List (Event ι)}
    (h : ∀ rest, site.traverse family launch required (before ++ rest) w =
      ⟨.error halt, v, events⟩) : Gated required before g after w ⟨.error halt, v, events⟩
  /-- The state is failed before the gate, and anything else in its place would do the same. -/
  | failed {k : Nat} {out : Outcome ι Unit} (hk : k ≤ before.length)
    (hf : (worldBefore family launch site required before w k).state.failed = true)
    (h : ∀ i, i.isFailure = false →
      site.traverse family launch required (before ++ i :: after) w = out) :
    Gated required before g after w out

variable (family launch site) in
theorem gated (required : List Key) (before : List (Instruction ι)) (g : Gate)
    (after : List (Instruction ι)) (w : World ι) :
    Gated family launch site required before g after w
      (site.traverse family launch required (before ++ .gate g :: after) w) := by
  cases approach family launch site required before w with
  | @arrives keys v events h =>
    rw [h.traverse, traverse_gate h.not_failed]
    cases hm : g.missing? v.state with
    | none =>
      have hg := Gate.missing?_eq_none_iff.1 hm
      have hout : Gated family launch site required before g after w _ := .passed h hg
      simp only [Outcome.prepend, List.append_assoc] at hout ⊢
      exact hout
    | some key => exact .refused h (Gate.missing?_eq_some_iff.1 hm)
  | halted h =>
    rw [h]
    exact .halted h
  | failed hk hf h => exact .failed hk hf fun i hi => h i (.gate g) after hi rfl

end Site

end Cascade
