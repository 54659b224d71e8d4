import Cascade.Proofs.Quiet
import Cascade.Proofs.Raised.Session

/-! # Records of a session

An instruction that is executed is recorded at once if its pipeline is traced: with its level, its
kind and handler, its options and the state that it is executed in. Nothing else is recorded. So the
records of a session can be told from its other events.
-/
namespace Cascade

open Exec (Alike)

variable {ι : Type}

/-- The records that follow an event: one for an instruction of a pipeline that is traced. -/
def Event.records (family : Family ι) : Event ι → List (Event ι)
  | executing q level i before => match family.compile q with
    | .ok tree => if tree.settings.debug then [.logged tree.settings.logger
        { message := "Execute", level := level, kind := i.kind
          handler := i.handler.name family.signature, options := i.options.text
          state := before.text }] else []
    | .error _ => []
  | _ => []

/-- The events are those that are no records, each followed by its records. -/
def Recording (family : Family ι) (events : List (Event ι)) : Prop :=
  events = (unlogged events).flatMap fun e => e :: e.records family

namespace Recording

variable {family : Family ι} {d e : List (Event ι)}

theorem nil : Recording family [] := rfl

theorem append (hd : Recording family d) (he : Recording family e) :
    Recording family (d ++ e) := by
  unfold Recording at hd he ⊢
  rw [unlogged_append, List.flatMap_append, ← hd, ← he]

theorem one {e : Event ι} (hl : e.isLogged = false) (hr : e.records family = []) :
    Recording family [e] := by
  unfold Recording unlogged
  rw [List.filter_cons, hl]
  simp [hr]

theorem of_forall {events : List (Event ι)}
    (h : ∀ e ∈ events, e.isLogged = false ∧ e.records family = []) : Recording family events := by
  induction events with
  | nil => exact nil
  | cons e rest ih =>
    obtain ⟨hl,hr⟩ := h e List.mem_cons_self
    exact (one hl hr).append (ih fun d hd => h d (List.mem_cons_of_mem e hd))

/-- With the settings of the tree of its pipeline, an instruction is announced with its records. -/
theorem announcement {site : Site ι} {tree : Tree ι} (ht : family.compile site.pipeline = .ok tree)
    (hs : site.settings = tree.settings) (i : Instruction ι) (s : State) :
    Recording family (site.announcement family i s) := by
  have hrecords : (Event.executing site.pipeline site.level i s).records family =
      if site.settings.debug then [.logged site.settings.logger (site.record family i s)]
      else [] := by
    simp only [Event.records, ht, ← hs]
    rfl
  unfold Recording Site.announcement unlogged
  cases hdebug : site.settings.debug <;> simp [Event.isLogged, hrecords, hdebug]

end Recording

variable [DecidableEq ι]

/-- Runs that are recorded so, from forests with the trees of the family. -/
def recordingRun (family : Family ι) : Likeness ι :=
  (({ Holds := fun _ events _ => Recording family events
      refl := fun _ => .nil
      trans := Recording.append } : Law ι).alone fun w => w.forest.Faithful family).likeness
    family.stage fun _ => True

variable {family : Family ι}

theorem recordingRun_holds {u u' : World ι} {events : List (Event ι)}
    (he : Recording family events) (hw : u'.forest.Faithful family)
    (hs : u.state.failed = true → u'.state.failed = true) :
    (recordingRun family).Holds u u events events u' u' := ⟨⟨rfl,rfl,rfl⟩,he,hw,hs⟩

theorem recordingRun_governs : (recordingRun family).Governs family family where
  toTolerant := by
    refine Comparison.tolerant (fun _ => trivial) ?_ ?_
    · rintro c u v s ⟨rfl,hu⟩ h
      exact recordingRun_holds (.one rfl rfl) hu (Change.failed_of_apply h)
    · rintro f u v ⟨rfl,hu⟩ _
      exact recordingRun_holds (.one rfl rfl) hu id
  signature := rfl
  entry _ := rfl
  around _ := rfl
  entry_suits _ _ := Program.suits_of_forall (fun _ => trivial) _
  around_suits _ _ := Program.suits_of_forall (fun _ => trivial) _
  mates hi := by
    cases hi.1
    exact .refl _
  handler_suits {_ _ i _} _ := i.handler.suits_of_forall fun _ => trivial
  fits _ := Or.inr fun _ => trivial
  container hs _ _ _ _ _ := by rw [hs.1]
  announced {site site'} hs i i' hi u v hj _ := by
    obtain ⟨rfl,hu⟩ := hj
    obtain ⟨rfl,tree,ht,hsettings⟩ := hs
    cases hi.1
    have hx := site.announce_eq family i u
    exact Exec.alikeAt_of_eq hx hx
      (.ok rfl (recordingRun_holds (.announcement ht hsettings i u.state) hu id))
  returned {site site'} hs i i' hi u v hj result := by
    obtain ⟨rfl,hu⟩ := hj
    cases hs.1
    cases hi.1
    exact recordingRun_holds (.one rfl rfl) hu (i.failed_verdict_of_failed result)
  cascading {site site'} hs u v hj := by
    obtain ⟨rfl,hu⟩ := hj
    cases hs.1
    exact recordingRun_holds (.one rfl rfl) hu id
  entered {u v} hj q o := by
    obtain ⟨rfl,hu⟩ := hj
    exact recordingRun_holds (.one rfl rfl) hu id
  finished {u v} hj q level := by
    obtain ⟨rfl,hu⟩ := hj
    exact recordingRun_holds (.one rfl rfl) hu id

theorem recordingRun_tree (q : ι) :
    Alike (recordingRun family) (Tree.Alike (recordingRun family) q) (family.tree q)
      (family.tree q) := by
  have hrecording : ∀ {e : Event ι}, e.isLogged = false → e.records family = [] →
      ∀ d ∈ family.declaring q ++ [e], d.isLogged = false ∧ d.records family = [] :=
    fun hl hr => List.forall_mem_append.2
      ⟨Family.forall_declaring ⟨rfl,rfl⟩ fun _ => ⟨rfl,rfl⟩,List.forall_mem_singleton.2 ⟨hl,hr⟩⟩
  rintro u v ⟨rfl,hu⟩
  cases h : family.compile q with
  | ok tree =>
    have hself : tree.Alike (recordingRun family) q tree :=
      ⟨rfl,fun _ => ⟨rfl,tree,h,rfl⟩,fun _ i hi => ⟨rfl,tree,h,hi⟩⟩
    obtain ⟨forest,events,hx,hforest,he⟩ := Family.tree_of_compile h hu
    refine Exec.alikeAt_of_eq hx hx (.ok hself (recordingRun_holds (.of_forall ?_) hforest id))
    exact fun e h => hrecording rfl rfl e (he e h)
  | error f =>
    have hx := Family.tree_of_flawed h hu
    exact Exec.alikeAt_of_eq hx hx
      (.halted ⟨recordingRun_holds (.of_forall (hrecording rfl rfl)) hu id,fun _ _ => trivial⟩)

/-- In every turn of a session each instruction of a traced pipeline is recorded when it is
executed, and nothing else is recorded. -/
theorem session_recording (depth : Nat) (turns : List (Turn ι)) {w : World ι}
    (hw : w.forest.Faithful family) :
    ∀ out ∈ session family depth turns w, Recording family out.events := by
  intro out hout
  have hr : (recordingRun family).Resumes := by
    rintro u v t ⟨rfl,hu⟩
    exact ⟨rfl,hu⟩
  have hstarted : ∀ {u v}, (recordingRun family).Joined u v → ∀ q level,
      (recordingRun family).Holds u v [.started q level] [.started q level] u v := by
    rintro u v ⟨rfl,hu⟩ q level
    exact recordingRun_holds (.one rfl rfl) hu id
  have hall := session_alike recordingRun_governs (fun _ => trivial) hr recordingRun_tree hstarted
    id id depth turns (u := w) (v := w) ⟨rfl,hw⟩
  obtain ⟨u,v,ho⟩ := List.forall₂_same.1 hall out hout
  exact ho.holds.2.1

end Cascade
