import Cascade.Proofs.Replay
import Cascade.Proofs.Bracketed.Events
import Cascade.Proofs.Traced.Levels

/-! # Runs between their starts and ends

In a family whose handlers pass on the faults that they meet, a request that is answered tells of
whole runs only, and one that ends with a fault of the runs that the fault broke. This goes by
induction on how deep runs may be started within each other. A pipeline that is dispatched through
its entry, or through its around entry, does not tell of a run of its own.
-/
namespace Cascade

open Exec (Alike AlikeAt)

variable {ι : Type}

/-! ## The runs of a family -/

section

variable [DecidableEq ι]

/-- Whole runs until the run is halted, and then those that are in progress. -/
def bracketed (family : Family ι) : Stopping ι where
  Calm := Whole family
  Stopped
    | .fault f, s, events => ∃ progress, Broken family f s progress events
    | .tooDeep, _, _ => True
  nil := .nil
  append := Whole.append
  prepend {halt s d e} hd h := by
    cases halt with
    | fault f =>
      obtain ⟨progress,h⟩ := h
      exact ⟨progress,h.prepend hd⟩
    | tooDeep => trivial
  tooDeep _ := trivial
  pass := by
    rintro f s e ⟨progress,h⟩
    exact ⟨progress,h.pass⟩

variable {family : Family ι}

theorem broken_at_once (f : Fault) (s : State) :
    ∃ progress, Broken family f s progress [.raised f s] := ⟨[],.raised .nil 0⟩

theorem bracketed_admits : (bracketed family).Admits fun _ => True where
  act h := .act h .nil
  raised _ s := broken_at_once _ s
  refused _ := broken_at_once _ _
  uncontinued s := broken_at_once _ s

abbrev bracketedRun (family : Family ι) : Likeness ι := (bracketed family).run family fun _ => True

theorem bracketedRun_tree (q : ι) : Alike (bracketedRun family)
    (fun t t' => t = t' ∧ family.compile q = .ok t) (family.tree q) (family.tree q) := by
  refine bracketed_admits.tree_compiled q fun f _ s => ⟨[],.raised ?_ 0⟩
  exact bracketed_admits.calm Family.isPlain_of_mem_declaring

variable (hf : ∀ q, (family q).All Program.PassesOn)
include hf

theorem bracketedRun_governs : (bracketedRun family).GovernsLevels family family :=
  bracketed_admits.governsLevels fun q =>
    (hf q).imp fun p hp => ⟨hp,p.raisesOnly_of_forall fun _ => trivial⟩

/-- A run is told between its start and its end, or else it is in progress when the fault is raised.
-/
theorem bracketedRun_run {q : ι} {tree : Tree ι} (hc : family.compile q = .ok tree) {depth : Nat}
    (hl : (family.launchWith family.tree depth).Alike (bracketedRun family)
      (family.launchWith family.tree depth)) (level : Level) :
    Alike (bracketedRun family) (· = ·)
      (tree.run family (family.launchWith family.tree depth) q level)
      (tree.run family (family.launchWith family.tree depth) q level) := by
  have hg := bracketedRun_governs hf
  have htree : tree.Alike (bracketedRun family) q tree := Stopping.run_tree_self hc
  have htraverse := hg.traverse_alike hl (fun _ => trivial) (htree.sites level)
    (htree.runs level) []
  rintro u v ⟨rfl,hu⟩
  have hbody : AlikeAt (bracketedRun family) (· = ·)
      (tree.body family (family.launchWith family.tree depth) q level)
      (tree.body family (family.launchWith family.tree depth) q level) u u :=
    hg.body_alike hl q htraverse ⟨rfl,hu⟩
  have hrun := tree.run_apply family (family.launchWith family.tree depth) q level u
  unfold AlikeAt at hbody
  rcases hx : tree.body family (family.launchWith family.tree depth) q level u with
    ⟨halt | _,w,events⟩
  · rw [hx] at hbody hrun
    cases hbody with
    | halted hh =>
      obtain ⟨_,hw,hstopped⟩ := hh
      refine Exec.alikeAt_of_eq hrun hrun (.halted (Stopping.run_halts ?_ hw))
      cases halt with
      | fault f =>
        obtain ⟨progress,hbroken⟩ := hstopped
        have h := Broken.run .nil ⟨tree,depth,hc,hrun⟩ hbroken 0
        rw [List.replicate_zero, List.append_nil] at h
        exact ⟨_,h⟩
      | tooDeep => trivial
    | first h | second h => exact h.elim
  · rw [hx] at hbody hrun
    cases hbody with
    | ok _ hh =>
      obtain ⟨_,hwhole,hw,hs⟩ := hh
      have h := Whole.run ⟨tree,depth,hc,hrun⟩ hwhole .nil
      exact Exec.alikeAt_of_eq hrun hrun (.ok rfl (Stopping.run_holds h hw hs))

theorem bracketedRun_launch (depth : Nat) : (family.launchWith family.tree depth).Alike
    (bracketedRun family) (family.launchWith family.tree depth) := by
  have hg := bracketedRun_governs hf
  induction depth with
  | zero => exact ⟨fun _ _ => Exec.alike_tooDeep,fun _ _ _ => Exec.alike_tooDeep⟩
  | succ depth ih =>
    have hrun : ∀ q level, Alike (bracketedRun family) (· = ·)
        (family.runWith (family.launchWith family.tree depth) family.tree q level)
        (family.runWith (family.launchWith family.tree depth) family.tree q level) := by
      intro q level
      rw [family.runWith_eq]
      refine (bracketedRun_tree q).bind ?_
      rintro tree _ ⟨rfl,hc⟩
      exact bracketedRun_run hf hc ih level
    rw [family.launchWith_succ]
    exact ⟨hrun,hg.invokeBy_alike ih hrun⟩

end

theorem Outcome.Alike.bracketed [DecidableEq ι] {family : Family ι} {α β : Type}
    {r : α → β → Prop} {u v : World ι} {out : Outcome ι α} {out' : Outcome ι β}
    (h : out.Alike (bracketedRun family) r u v out') :
    (∀ a, out.result = .ok a → Whole family out.events) ∧
      ∀ f, out.result = .error (.fault f) →
        ∃ progress, Broken family f out.world.state progress out.events := by
  cases h with
  | ok _ hh => exact ⟨fun _ _ => hh.2.1,nofun⟩
  | halted hh =>
    refine ⟨nofun,fun f hf => ?_⟩
    cases hf
    exact hh.2.2
  | first h | second h => exact h.elim

/-! ## Pipelines that are dispatched through an entry -/

def Event.Unbracketed : Event ι → Prop
  | started .. | finished .. => False
  | _ => True

theorem Launch.tells_unbracketed (launch : Launch ι) {Block : List (Event ι) → Prop}
    (hb : ∀ b, launch.Block b → Block b) : launch.Tells Event.Unbracketed Block :=
  Launch.tells_of_block (fun _ _ => trivial) (fun _ => trivial) hb

theorem Family.tells_invoke_entry {family : Family ι} {q : ι} {c : Callable ι}
    (h : (family q).entry = some c) (need : ι → Exec ι (Tree ι)) (depth : Nat) (o : Options)
    (level : Level) : ((family.launchWith need (depth + 1)).invoke q o level).Tells
      Event.Unbracketed (family.launchWith need depth).Block := by
  have hl := (family.launchWith need depth).tells_unbracketed fun _ h => h
  rw [family.invoke_of_entry h]
  exact tells_enter hl trivial c

theorem Handler.tells_around (family : Family ι) (launch : Launch ι) (o : Options)
    (continuation : Exec ι Unit) (q : ι) :
    ((pipeline q).wrap family launch o continuation).Tells Event.Unbracketed
      fun b => launch.Block b ∨ ∃ w, b = (continuation w).events := by
  refine tells_wrap (launch.tells_unbracketed fun _ h => Or.inl h) (fun w => ?_) o _
  rw [← List.append_nil (continuation w).events]
  exact .block (Or.inr ⟨w,rfl⟩) .nil

/-! ## Requests -/

variable [DecidableEq ι]

/-- Once a run has ended in a failed state, every later one does. -/
theorem Request.finished_failed {family : Family ι} {depth : Nat} {r : Request ι} {w : World ι}
    {before after : List (Event ι)} {q p : ι} {level l : Level} {success : Bool}
    (h : (r.exec family depth w).events = before ++ .finished q level false :: after)
    (hp : .finished p l success ∈ after) : success = false := by
  obtain ⟨mid,rest,rfl⟩ := List.append_of_mem hp
  have hfirst : false = (replay (r.start w.state) before).successful := displays_of_eq h
  have hfailed : (replay (r.start w.state) before).failed = true := by
    simpa [State.successful] using hfirst.symm
  have hlater : (r.exec family depth w).events =
      (before ++ .finished q level false :: mid) ++ .finished p l success :: rest := by
    rw [h, List.append_assoc, List.cons_append]
  have hlast : success = _ := displays_of_eq hlater
  rw [hlast, replay_append, State.successful, failed_replay _ hfailed]
  rfl

/-- Starts and ends bracket the runs of a family whose handlers pass on the faults that they meet.
If a request is answered, each start is matched by an end, of the same pipeline on the same level.
If it ends with a fault, the starts that are not matched are the runs in progress when the fault is
raised, and nothing but the fault is told from then on. An end tells whether the state is successful
then, and after an end in a failed state there are only such. A pipeline that is dispatched through
its entry or around entry tells of no run but those that are started by it or by what it wraps. -/
theorem Request.exec_bracketed {family : Family ι} (hf : ∀ q, (family q).All Program.PassesOn)
    (depth : Nat) (r : Request ι) {w : World ι} (hw : w.forest.Faithful family) :
    let out := r.exec family depth w
    (∀ v, out.result = .ok v → Whole family out.events ∧ unmatched out.events = some []) ∧
    (∀ f, out.result = .error (.fault f) → ∃ progress,
      Broken family f out.world.state progress out.events ∧
      unmatched out.events = some progress ∧
      ∃ before n, out.events = before ++ List.replicate (n + 1) (.raised f out.world.state) ∧
        ∀ e ∈ before, e.isRaised = false) ∧
    (∀ before q level success after, out.events = before ++ .finished q level success :: after →
      success = (replay (r.start w.state) before).successful ∧
      (success = false → ∀ p l later, .finished p l later ∈ after → later = false)) ∧
    (∀ (site : Site ι) role h o q c v, h.StandsFor site.settings.container v.state q →
      (family q).entry = some c →
      Interleaved Event.Unbracketed (family.launchWith family.tree depth).Block
        (site.dispatch family (family.launchWith family.tree (depth + 1)) role o h v).events) ∧
    ∀ launch o continuation q v,
      Interleaved Event.Unbracketed (fun b => launch.Block b ∨ ∃ u, b = (continuation u).events)
        ((Handler.pipeline q).wrap family launch o continuation v).events := by
  intro out
  have hrun : out.Alike (bracketedRun family) (· = ·) { w with state := r.start w.state }
      { w with state := r.start w.state } out := by
    have h := r.execBy_alike (bracketedRun_launch hf depth) (u := w) (v := w) ⟨rfl,hw⟩
    rw [← r.exec_eq] at h
    exact h
  obtain ⟨hwhole,hbroken⟩ := hrun.bracketed
  refine ⟨fun v hv => ⟨hwhole v hv,unmatched_of_whole (hwhole v hv)⟩,?_,?_,?_,?_⟩
  · intro f h
    obtain ⟨progress,hb⟩ := hbroken f h
    exact ⟨progress,hb,unmatched_of_broken hb,hb.last⟩
  · intro before q level success after h
    refine ⟨displays_of_eq h,?_⟩
    rintro rfl p l later hp
    exact finished_failed h hp
  · intro site role h o q c v hq he
    rw [Site.dispatch_of_standsFor hq]
    exact Family.tells_invoke_entry he family.tree depth o (site.level + 1) v
  · intro launch o continuation q v
    exact Handler.tells_around family launch o continuation q v

/-- A pipeline with an entry, and one in it that needs a parameter and then fails. -/
def guarded : Family Bool := fun inner =>
  { name := if inner then "inner" else "outer"
    declarations := if inner then
      [.dependsOn .params ["id"], .step (.function (.done (.bool false))) .empty]
      else [.step (.pipeline true) .empty]
    entry := if inner then none else some (.bare (.done .null)) }

theorem guarded_passesOn (inner : Bool) : (guarded inner).All Program.PassesOn := by
  cases inner with
  | true =>
    refine ⟨?_,nofun,nofun⟩
    exact List.forall_mem_cons.2 ⟨trivial,List.forall_mem_singleton.2 trivial⟩
  | false =>
    refine ⟨List.forall_mem_singleton.2 trivial,?_,nofun⟩
    rintro c o hc
    cases hc
    trivial

/-- The starts and ends of runs that an outcome tells of. -/
def brackets (out : Outcome Bool Json.Value) : List (Bool × Level × Option Bool) :=
  out.events.filterMap fun
    | .started q level => some (q, level, none)
    | .finished q level success => some (q, level, some success)
    | _ => none

theorem Request.exec_bracketed_guarded :
    let out := fun params => (Request.call false params).exec guarded 2 {}
    let f : Fault := .missingKey .params "id" (State.withParams .null).text
    let answered := out (.object [("id", .bool true)])
    brackets answered = [(false, 0, none), (true, 1, none), (true, 1, some false),
      (false, 0, some false)] ∧
    answered.result = .ok .null ∧ Whole guarded answered.events ∧
    unmatched answered.events = some [] ∧
    (out .null).result = .error (.fault f) ∧ (∃ progress,
      Broken guarded f (out .null).world.state progress (out .null).events ∧
      unmatched (out .null).events = some progress) ∧
    unmatched (out .null).events = some [(false, 0), (true, 1)] := by
  intro out f answered
  have hw : (World.forest {}).Faithful guarded := Forest.faithful_nil
  obtain ⟨hok,_⟩ := Request.exec_bracketed guarded_passesOn 2
    (.call false (.object [("id", .bool true)])) hw
  obtain ⟨_,herror,_⟩ := Request.exec_bracketed guarded_passesOn 2 (.call false .null) hw
  have hanswer : answered.result = .ok .null := rfl
  have hfault : (out .null).result = .error (.fault f) := rfl
  obtain ⟨hwhole,hmatched⟩ := hok .null hanswer
  obtain ⟨progress,hbroken,hunmatched,_⟩ := herror f hfault
  exact ⟨by decide +kernel,hanswer,hwhole,hmatched,hfault,⟨progress,hbroken,hunmatched⟩,
    by decide +kernel⟩

end Cascade
