import Mathlib.Logic.ExistsUnique
import Cascade.Proofs.Level.Performance

/-! # Where a level splits

A level that ends without a fault splits at the first instruction that would start in a failed
state. Everything but the failure handlers is executed before the split, and only failure handlers
after it, up to the first that stops the cascade. What is executed accounts for all events of the
level, so nothing is executed besides.
-/
namespace Cascade

variable {ι : Type}

/-- One execution of an instruction, with the worlds around it. -/
structure Visit (ι : Type) where
  instruction : Instruction ι
  before : World ι
  events : List (Event ι)
  after : World ι

namespace Visit

/-- From the first world to the last, each visit starts where the one before it ends. -/
def Linked : World ι → List (Visit ι) → World ι → Prop
  | u, [], w => u = w
  | u, v :: rest, w => v.before = u ∧ Linked v.after rest w

/-- The visit is what executing the instruction at that site does, and it begins by telling so. -/
structure Ran (family : Family ι) (launch : Launch ι) (site : Site ι) (v : Visit ι) : Prop where
  performed : site.perform family launch v.instruction v.before = ⟨.ok (), v.after, v.events⟩
  announced : v.events.head? =
    some (.executing site.pipeline site.level v.instruction v.before.state)

end Visit

variable {family : Family ι} {launch : Launch ι} {site : Site ι} {required : List Key}

namespace Site

theorem ran_of_perform {i : Instruction ι} {w v : World ι} {events : List (Event ι)}
    (h : site.perform family launch i w = ⟨.ok (), v, events⟩) :
    Visit.Ran family launch site ⟨i, w, events, v⟩ := by
  refine ⟨h,?_⟩
  obtain ⟨_,u,d,e,ha,_,rfl⟩ := Exec.bind_eq_ok.1 h
  rw [announce_apply] at ha
  cases ha
  rfl

theorem perform_of_enact {i : Instruction ι} {w v : World ι} {events : List (Event ι)}
    (h : site.enact family launch required i w = ⟨.ok (), v, events⟩) :
    site.perform family launch i w = ⟨.ok (), v, events⟩ := by
  rw [enact_eq] at h
  cases hl : i.lacking? required with
  | none =>
    rw [hl] at h
    exact h
  | some k =>
    rw [hl] at h
    cases h

/-- Instructions executed one after the other are linked visits. -/
theorem visits_of_forM {is : List (Instruction ι)} {w w' : World ι} {events : List (Event ι)}
    (h : is.forM (site.enact family launch required) w = ⟨.ok (), w', events⟩) :
    ∃ visits : List (Visit ι), visits.map Visit.instruction = is ∧
      (∀ v ∈ visits, v.Ran family launch site) ∧ Visit.Linked w visits w' ∧
      events = visits.flatMap Visit.events := by
  induction is generalizing w events with
  | nil =>
    cases h
    exact ⟨[],rfl,by simp,rfl,rfl⟩
  | cons i rest ih =>
    obtain ⟨_,u,d,e,hi,hr,rfl⟩ := Exec.bind_eq_ok.1 h
    obtain ⟨visits,hm,hran,hl,rfl⟩ := ih hr
    refine ⟨⟨i,w,d,u⟩ :: visits,?_,?_,⟨rfl,hl⟩,rfl⟩
    · rw [List.map_cons,hm]
    · intro v hv
      rcases List.mem_cons.1 hv with rfl | hv
      · exact ran_of_perform (perform_of_enact hi)
      · exact hran v hv

variable (family launch site) in
/-- The world before the `k`-th instruction of a level, everything before it being executed. -/
def worldBefore (required : List Key) (is : List (Instruction ι)) (w : World ι) (k : Nat) :
    World ι :=
  ((is.take k).foldlM (site.execute family launch) required w).world

variable (family launch site) in
/-- The first index before whose instruction the state is failed, or else the length. -/
structure SplitsAt (required : List Key) (is : List (Instruction ι)) (w : World ι) (k : Nat) :
    Prop where
  le : k ≤ is.length
  successful : ∀ j < k, (worldBefore family launch site required is w j).state.failed = false
  failed : k < is.length → (worldBefore family launch site required is w k).state.failed = true

theorem SplitsAt.unique {is : List (Instruction ι)} {w : World ι} {j k : Nat}
    (hj : SplitsAt family launch site required is w j)
    (hk : SplitsAt family launch site required is w k) : j = k := by
  rcases Nat.lt_trichotomy j k with h | h | h
  · have hs := hk.successful j h
    rw [hj.failed (Nat.lt_of_lt_of_le h hk.le)] at hs
    cases hs
  · exact h
  · have hs := hj.successful k h
    rw [hk.failed (Nat.lt_of_lt_of_le h hj.le)] at hs
    cases hs

variable (family launch site) in
/-- What a level does that splits at `k`: the instructions `passed` before the split, and then, if
any instruction is left, the failure handlers `handled` of its cascade. -/
structure Account (required : List Key) (is : List (Instruction ι)) (w w' : World ι)
    (events : List (Event ι)) (k : Nat) (passed handled : List (Visit ι)) : Prop where
  passed_eq : passed.map Visit.instruction = (is.take k).filter fun i => !i.isFailure
  handled_eq : handled.map Visit.instruction =
    upThrough (fun i => i.options.failFast) ((is.drop k).filter Instruction.isFailure)
  ran : ∀ v ∈ passed ++ handled, v.Ran family launch site
  passed_linked : Visit.Linked w passed (worldBefore family launch site required is w k)
  handled_linked : Visit.Linked (worldBefore family launch site required is w k) handled w'
  events_eq : events = passed.flatMap Visit.events ++
    (if k < is.length then [.cascading site.pipeline site.level] else []) ++
    handled.flatMap Visit.events

theorem worldBefore_succ {i : Instruction ι} {r : List Key} {w v : World ι}
    {d : List (Event ι)} (h : site.execute family launch required i w = ⟨.ok r, v, d⟩)
    (rest : List (Instruction ι)) (k : Nat) :
    worldBefore family launch site required (i :: rest) w (k + 1) =
      worldBefore family launch site r rest v k := by
  unfold worldBefore
  rw [List.take_succ_cons, List.foldlM_cons, Exec.bind_of_ok h]

theorem SplitsAt.succ {i : Instruction ι} {rest : List (Instruction ι)} {r : List Key}
    {w v : World ι} {d : List (Event ι)} {k : Nat} (hw : w.state.failed = false)
    (h : site.execute family launch required i w = ⟨.ok r, v, d⟩)
    (hk : SplitsAt family launch site r rest v k) :
    SplitsAt family launch site required (i :: rest) w (k + 1) := by
  refine ⟨Nat.succ_le_succ hk.le,?_,?_⟩
  · intro j hj
    cases j with
    | zero => exact hw
    | succ j =>
      rw [worldBefore_succ h]
      exact hk.successful j (Nat.lt_of_succ_lt_succ hj)
  · intro hlt
    rw [worldBefore_succ h]
    exact hk.failed (Nat.lt_of_succ_lt_succ hlt)

theorem account_of_failed {i : Instruction ι} {rest : List (Instruction ι)} {w w' : World ι}
    {events : List (Event ι)} (hw : w.state.failed = true)
    (h : site.cascade family launch required (i :: rest) w = ⟨.ok (), w', events⟩) :
    SplitsAt family launch site required (i :: rest) w 0 ∧ ∃ handled,
      Account family launch site required (i :: rest) w w' events 0 [] handled := by
  rw [cascade_eq] at h
  obtain ⟨_,u,d,e,hd,he,rfl⟩ := Exec.bind_eq_ok.1 h
  cases hd
  obtain ⟨visits,hm,hran,hl,rfl⟩ := visits_of_forM he
  refine ⟨⟨Nat.zero_le _,by simp,fun _ => hw⟩,visits,?_⟩
  exact {
    passed_eq := rfl
    handled_eq := hm
    ran := hran
    passed_linked := rfl
    handled_linked := hl
    events_eq := rfl }

/-- A failure handler before the split is passed over, anything else is one visit more. -/
theorem Account.succ {i : Instruction ι} {rest : List (Instruction ι)} {r : List Key}
    {w v w' : World ι} {d e : List (Event ι)} {k : Nat} {passed handled : List (Visit ι)}
    (h : site.execute family launch required i w = ⟨.ok r, v, d⟩)
    (ha : Account family launch site r rest v w' e k passed handled) :
    ∃ passed', Account family launch site required (i :: rest) w w' (d ++ e) (k + 1)
      passed' handled := by
  have hlinked := ha.passed_linked
  have hhandled := ha.handled_linked
  rw [← worldBefore_succ h] at hlinked hhandled
  have hevents : d ++ e = d ++ passed.flatMap Visit.events ++
      (if k + 1 < (i :: rest).length then [.cascading site.pipeline site.level] else []) ++
      handled.flatMap Visit.events := by
    rw [ha.events_eq]
    simp only [List.length_cons, Nat.add_lt_add_iff_right, List.append_assoc]
  cases hi : i.isFailure with
  | true =>
    rw [execute_of_isFailure family launch site hi] at h
    cases h
    refine ⟨passed,?_,ha.handled_eq,ha.ran,hlinked,hhandled,hevents⟩
    rw [List.take_succ_cons, List.filter_cons_of_neg (by simp [hi]), ha.passed_eq]
  | false =>
    rw [execute_of_not_isFailure family launch site hi] at h
    obtain ⟨_,u,d',e',hp,hr,rfl⟩ := Exec.bind_eq_ok.1 h
    cases hr
    rw [List.append_nil] at hevents ⊢
    refine ⟨⟨i,w,d',v⟩ :: passed,?_,ha.handled_eq,?_,⟨rfl,hlinked⟩,hhandled,?_⟩
    · rw [List.take_succ_cons, List.filter_cons_of_pos (by simp [hi]), ← ha.passed_eq]
      rfl
    · intro x hx
      rcases List.mem_cons.1 hx with rfl | hx
      · exact ran_of_perform (perform_of_enact hp)
      · exact ha.ran x hx
    · exact hevents

/-- Every level that ends without a fault has exactly one split, and does what goes with it. -/
theorem traverse_split (is : List (Instruction ι)) {w w' : World ι} {events : List (Event ι)}
    (h : site.traverse family launch required is w = ⟨.ok (), w', events⟩) :
    ∃! k, SplitsAt family launch site required is w k ∧ ∃ passed handled,
      Account family launch site required is w w' events k passed handled := by
  suffices hex : ∃ k, SplitsAt family launch site required is w k ∧ ∃ passed handled,
      Account family launch site required is w w' events k passed handled by
    obtain ⟨k,hk,ha⟩ := hex
    exact ⟨k,⟨hk,ha⟩,fun j hj => hj.1.unique hk⟩
  -- What is executed may change the required keys as well as the world.
  induction is generalizing required w events with
  | nil =>
    cases h
    exact ⟨0,⟨Nat.le_refl 0,by simp,by simp⟩,[],[],rfl,rfl,by simp,rfl,rfl,rfl⟩
  | cons i rest ih =>
    rw [traverse_cons] at h
    cases hw : w.state.failed with
    | true =>
      rw [hw, if_pos rfl] at h
      obtain ⟨hs,handled,ha⟩ := account_of_failed hw h
      exact ⟨0,hs,[],handled,ha⟩
    | false =>
      rw [hw, if_neg (by simp)] at h
      obtain ⟨r,v,d,e,hi,hr,rfl⟩ := Exec.bind_eq_ok.1 h
      obtain ⟨k,hk,passed,handled,ha⟩ := ih hr
      obtain ⟨passed',ha'⟩ := ha.succ hi
      exact ⟨k + 1,hk.succ hw hi,passed',handled,ha'⟩

/-- A level whose third instruction fails the state; the last failure handler is not reached. -/
def mixed : List (Instruction Unit) :=
  let h : Handler Unit := .function (.done .null)
  [.failure h .empty, .step h (.ofList [("fail", .bool false)]), .step h .empty, .failure h .empty,
    .step h .empty, .failure h (.ofList [("fail_fast", .bool true)]), .failure h .empty]

theorem traverse_split_mixed :
    let family : Family Unit := fun _ => ⟨"p", [], none, none⟩
    let launch : Launch Unit := ⟨fun _ _ => Exec.tooDeep, fun _ _ _ => Exec.tooDeep⟩
    let site : Site Unit := ⟨(), {}, 0⟩
    let out := site.traverse family launch [] mixed {}
    out = ⟨.ok (), out.world, out.events⟩ ∧
    SplitsAt family launch site [] mixed {} 3 ∧
    ∃! k, SplitsAt family launch site [] mixed {} k ∧ ∃ passed handled,
      Account family launch site [] mixed {} out.world out.events k passed handled := by
  intro family launch site out
  refine ⟨rfl,⟨by decide,?_,fun _ => rfl⟩,traverse_split mixed rfl⟩
  intro j hj
  match j, hj with
  | 0, _ => rfl
  | 1, _ => rfl
  | 2, _ => rfl

end Site

end Cascade
