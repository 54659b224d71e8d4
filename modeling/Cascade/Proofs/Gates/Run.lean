import Cascade.Proofs.Replay
import Cascade.Proofs.Gates.Level
import Cascade.Proofs.Traced.Levels

/-! # Gates in a run

Whatever a run does, each gate in it is told as a whole: it is executed in a state, and if it misses
a key there, the fault is raised at once. So the state that the event shows, which is the one that
all events before it leave, settles whether the run goes on.
-/
namespace Cascade

variable {ι : Type}

/-! ## What is told of gates -/

/-- The gate that is executed, if there is one. -/
def Event.gate? : Event ι → Option Gate
  | executing _ _ (.gate g) _ => some g
  | _ => none

/-- The fault that the gate raises in that state, if it misses a key. -/
def Gate.refusal (g : Gate) (s : State) : List (Event ι) :=
  match g.missing? s with
  | some key => [.raised (.missingKey g.category key.raw s.text) s]
  | none => []

/-- All that is told of a gate: that it is executed, the records of it, and the fault. -/
inductive Gate.Told : List (Event ι) → Prop where
  | intro (q : ι) (level : Level) (g : Gate) (s : State) {noted : List (Event ι)}
    (h : ∀ e ∈ noted, ∃ logger r, e = .logged logger r) :
    Told (.executing q level (.gate g) s :: (noted ++ g.refusal s))

/-- Gates are told as a whole, and anything else event by event. -/
abbrev Exec.TellsGates {α : Type} (x : Exec ι α) : Prop :=
  x.Tells (fun e => e.gate? = none) Gate.Told

abbrev Launch.TellsGates (launch : Launch ι) : Prop :=
  launch.Tells (fun e => e.gate? = none) Gate.Told

section

variable {family : Family ι} {launch : Launch ι} (ht : launch.TellsGates)

theorem Site.tellsGates_gate (site : Site ι) (g : Gate) :
    (site.perform family launch (.gate g)).TellsGates := by
  intro w
  have hchecked : (g.check w : Outcome ι Unit).events = g.refusal w.state := by
    rw [Gate.check_apply]
    unfold Gate.refusal
    cases g.missing? w.state <;> rfl
  have hgate := site.perform_gate family launch g w
  rw [hgate, hchecked, ← List.append_nil (_ ++ _)]
  refine .block (.intro site.pipeline site.level g w.state fun e he => ?_) .nil
  split at he
  · cases List.mem_singleton.1 he
    exact ⟨_,_,rfl⟩
  · cases he

include ht

theorem Site.tellsGates_traverse (site : Site ι) (is : List (Instruction ι))
    (required : List Key) : (site.traverse family launch required is).TellsGates := by
  refine Site.tells_traverse_of ht (fun _ _ => rfl) (fun site i hc => ?_) site is required
  cases i with
  | gate g => exact site.tellsGates_gate g
  | step _ _ | failure _ _ | wrap _ _ _ =>
    refine site.tells_perform ht ?_ (fun _ => rfl) hc
    exact fun s => Site.forall_announcement rfl fun _ _ => rfl

theorem Tree.tellsGates_run (tree : Tree ι) (q : ι) (level : Level) :
    (tree.run family launch q level).TellsGates := by
  have htraverse : (Site.traverse family launch ⟨q, tree.settings, level⟩ []
      tree.roots).TellsGates := Site.tellsGates_traverse ht _ tree.roots []
  have hstart : (Exec.emit (.started q level)).TellsGates := Exec.tells_emit rfl
  have hend : ∀ success, (Exec.emit (.finished q level success)).TellsGates :=
    fun _ => Exec.tells_emit rfl
  rw [tree.run_eq]
  refine hstart.bind fun _ => (Family.tells_body ht (fun _ => rfl) htraverse).bind fun _ => ?_
  exact Exec.tells_state.bind fun s => hend s.successful

end

theorem Family.tellsGates_tree [DecidableEq ι] (family : Family ι) (q : ι) :
    (family.tree q).TellsGates := by
  have hdeclaring : ∀ e ∈ family.declaring q, e.gate? = none :=
    Family.forall_declaring rfl fun _ => rfl
  intro w
  cases hw : w.forest.find? q with
  | some tree =>
    rw [family.tree_of_find? hw]
    exact .nil
  | none =>
    cases hc : family.compile q with
    | ok tree =>
      rw [family.tree_of_ok hw hc]
      exact .of_forall (List.forall_mem_append.2 ⟨hdeclaring,List.forall_mem_singleton.2 rfl⟩)
    | error f =>
      rw [family.tree_of_error hw hc]
      exact .of_forall (List.forall_mem_append.2 ⟨hdeclaring,List.forall_mem_singleton.2 rfl⟩)

theorem Family.tellsGates_launch [DecidableEq ι] (family : Family ι) (depth : Nat) :
    (family.launchWith family.tree depth).Obeys
      (Interleaved.law (fun e => e.gate? = none) Gate.Told) := by
  have hnone : ∀ e : Event ι, e.gate? = none →
      Interleaved (fun e => e.gate? = none) Gate.Told [e] := fun _ h => .own h .nil
  refine Family.launchWith_obeys_of ⟨fun _ _ _ _ => hnone _ rfl,fun _ _ => hnone _ rfl⟩
    family.changesOnly (fun _ _ _ => hnone _ rfl) (fun depth ih q level => ?_) depth
  have ht : (family.launchWith family.tree depth).TellsGates :=
    ⟨fun _ _ => rfl,fun _ => rfl,ih.run,ih.invoke⟩
  rw [family.runWith_eq]
  exact (family.tellsGates_tree q).bind fun tree => tree.tellsGates_run ht q level

theorem Request.tellsGates [DecidableEq ι] (family : Family ι) (depth : Nat) (r : Request ι)
    (w : World ι) : Interleaved (fun e => e.gate? = none) Gate.Told
      (r.exec family depth w).events := by
  rw [r.exec_eq]
  exact r.execBy_holds (family.tellsGates_launch depth) w

/-- Nothing but records of the gate comes before the fault. -/
theorem Gate.Told.rest {first last : List (Event ι)} {q : ι} {level : Level} {g : Gate} {s : State}
    (h : Gate.Told (first ++ .executing q level (.gate g) s :: last)) :
    ∃ noted, (∀ e ∈ noted, ∃ logger r, e = .logged logger r) ∧ last = noted ++ g.refusal s := by
  generalize hb : first ++ .executing q level (.gate g) s :: last = b at h
  obtain ⟨p,l,gate,state,hnoted⟩ := h
  rename_i noted
  cases first with
  | nil =>
    cases hb
    exact ⟨noted,hnoted,rfl⟩
  | cons a first =>
    -- The gate that is executed would be among what is told after another one.
    have htail : ∀ e ∈ noted ++ gate.refusal state, e.gate? = none := by
      intro e he
      rcases List.mem_append.1 he with he | he
      · obtain ⟨logger,r,rfl⟩ := hnoted e he
        rfl
      · unfold Gate.refusal at he
        split at he
        · cases List.mem_singleton.1 he
          rfl
        · cases he
    have heq : first ++ .executing q level (.gate g) s :: last = noted ++ gate.refusal state :=
      (List.cons.inj hb).2
    cases htail (.executing q level (.gate g) s) (heq ▸ List.mem_append_right _ List.mem_cons_self)

theorem Gate.Misses.refusal {g : Gate} {s : State} {key : Key} (h : g.Misses s key) :
    (g.refusal s : List (Event ι)) = [.raised (.missingKey g.category key.raw s.text) s] := by
  unfold Gate.refusal
  rw [Gate.missing?_eq_some_iff.2 h]

/-- In every traversal of a level, each gate is checked in the state that the traversal comes to it
with, if it comes to it at all. If it finds all its keys there, the traversal goes on; otherwise it
ends with the first that is missing, in that state. So in a level that ends without a fault all
gates before the point of failure were executed and found their keys, and those after it make no
difference. In every run, the state that is shown of a gate is that which all events before it
leave, and if the gate misses a key there, the fault is raised at once. -/
theorem Family.gates_checked [DecidableEq ι] (family : Family ι) :
    (∀ launch (site : Site ι) required before g after w,
      site.Gated family launch required before g after w
        (site.traverse family launch required (before ++ .gate g :: after) w)) ∧
    (∀ launch (site : Site ι) required before g after w,
      (site.traverse family launch required (before ++ .gate g :: after) w).result = .ok () →
      (∃ keys v events, site.Arrives family launch required before w keys v events ∧
        ∀ key ∈ g.keys, g.Finds v.state key) ∨
      (∃ k ≤ before.length,
        (site.worldBefore family launch required before w k).state.failed = true) ∧
        ∀ i, i.isFailure = false → site.traverse family launch required (before ++ i :: after) w =
          site.traverse family launch required (before ++ .gate g :: after) w) ∧
    ∀ depth (r : Request ι) w before q level g s after,
      (r.exec family depth w).events = before ++ .executing q level (.gate g) s :: after →
      s = replay (r.start w.state) before ∧
      ∃ noted rest, (∀ e ∈ noted, ∃ logger r, e = Event.logged logger r) ∧ after = noted ++ rest ∧
        ∀ key, g.Misses s key →
          ∃ more, rest = .raised (.missingKey g.category key.raw s.text) s :: more := by
  refine ⟨fun launch site required before g after w => site.gated family launch required before g
    after w,?_,?_⟩
  · intro launch site required before g after w hok
    have hgated := site.gated family launch required before g after w
    generalize hout : site.traverse family launch required (before ++ .gate g :: after) w = out
      at hok hgated
    cases hgated with
    | passed h hg => exact Or.inl ⟨_,_,_,h,hg⟩
    | refused _ _ => cases hok
    | halted _ => cases hok
    | failed hk hf h => exact Or.inr ⟨⟨_,hk,hf⟩,h⟩
  · intro depth r w before q level g s after h
    refine ⟨Request.displays_of_eq h,?_⟩
    obtain ⟨earlier,first,last,more,hb,rfl,rfl⟩ :=
      (r.tellsGates family depth w).exists_block h (by simp [Event.gate?])
    obtain ⟨noted,hnoted,rfl⟩ := hb.rest
    refine ⟨noted,g.refusal s ++ more,hnoted,List.append_assoc _ _ _,fun key hkey => ⟨more,?_⟩⟩
    rw [hkey.refusal]
    rfl

end Cascade
