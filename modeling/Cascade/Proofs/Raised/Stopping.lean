import Cascade.Proofs.Raised.Reason

/-! # Runs that a fault stops

Where handlers pass on the faults that they meet, a run is calm until it is halted. What is told of
it may be kept by two predicates, one for what is calm and one for what has come to a stop; calm
events may be put before, and a fault that is passed on may be told after.
-/
namespace Cascade

open Exec (Alike AlikeAt)

variable {ι : Type}

/-- Instructions of the trees of the family, at sites with the settings of these trees. -/
def Family.stage (family : Family ι) : Stage ι where
  Sites site site' := site = site' ∧
    ∃ tree, family.compile site.pipeline = .ok tree ∧ site.settings = tree.settings
  Runs site _ i i' := i = i' ∧ family.Has site.pipeline i
  level_eq h := congrArg Site.level h.1
  deeper h := ⟨congrArg Site.deeper h.1,h.2⟩
  runs_deeper h := h

theorem Family.reaches {family : Family ι} {site site' : Site ι} {i i' : Instruction ι}
    (hs : family.stage.Sites site site') (hi : family.stage.Runs site site' i i') :
    family.Reaches site i := ⟨hs.2,hi.2⟩

/-- What a run tells while it goes on, and what it tells until it is halted in a state. -/
structure Stopping (ι : Type) where
  Calm : List (Event ι) → Prop
  Stopped : Halt → State → List (Event ι) → Prop
  nil : Calm []
  append {d e : List (Event ι)} : Calm d → Calm e → Calm (d ++ e)
  prepend {halt : Halt} {s : State} {d e : List (Event ι)} :
    Calm d → Stopped halt s e → Stopped halt s (d ++ e)
  tooDeep (s : State) : Stopped .tooDeep s []
  /-- A fault that is caught is raised again at once. -/
  pass {f : Fault} {s : State} {e : List (Event ι)} :
    Stopped (.fault f) s e → Stopped (.fault f) s (e ++ [.raised f s])

/-- Programs that pass on the faults that they meet, and raise those of `S` only. -/
abbrev Program.Passes (S : Fault → Prop) (p : Program ι) : Prop := p.PassesOn ∧ p.RaisesOnly S

/-- The event is told by an act of a level, and not for a fault. -/
def Event.isPlain : Event ι → Bool
  | started .. | finished .. | raised .. => false
  | _ => true

theorem Site.isPlain_of_mem_announcement {family : Family ι} {site : Site ι} {i : Instruction ι}
    {s : State} : ∀ e ∈ site.announcement family i s, e.isPlain = true :=
  Site.forall_announcement rfl fun _ _ => rfl

theorem Family.isPlain_of_mem_declaring {family : Family ι} {q : ι} :
    ∀ e ∈ family.declaring q, e.isPlain = true :=
  Family.forall_declaring rfl fun _ => rfl

namespace Stopping

variable {stop : Stopping ι}

def law (stop : Stopping ι) : Law ι where
  Holds _ events _ := stop.Calm events
  refl _ := stop.nil
  trans := stop.append

/-- Acts are calm, and a fault that a handler raises, of `S`, comes to a stop; so does a change that
is refused. -/
structure Admits (stop : Stopping ι) (S : Fault → Prop) : Prop where
  act {e : Event ι} (h : e.isPlain = true) : stop.Calm [e]
  raised {f : Fault} (h : S f) (s : State) : stop.Stopped (.fault f) s [.raised f s]
  refused {c : Change} {s : State} {f : Fault} (h : c.apply s = .error f) :
    stop.Stopped (.fault f) s [.raised f s]
  uncontinued (s : State) : stop.Stopped (.fault noContinuation) s [.raised noContinuation s]

theorem Admits.calm {S : Fault → Prop} (ha : stop.Admits S) {events : List (Event ι)}
    (h : ∀ e ∈ events, e.isPlain = true) : stop.Calm events := by
  induction events with
  | nil => exact stop.nil
  | cons e rest ih =>
    have he := ha.act (h e List.mem_cons_self)
    exact stop.append he (ih fun d hd => h d (List.mem_cons_of_mem e hd))

variable [DecidableEq ι] {family : Family ι} {S : Fault → Prop}

/-- A run compared with itself that is calm until it comes to a stop. -/
def run (stop : Stopping ι) (family : Family ι) (S : Fault → Prop) : Likeness ι where
  toComparison := stop.law.alone fun w => w.forest.Faithful family
  toStage := family.stage
  Admits := S
  catches := False
  Halts halt u v d e u' v' := (u = v ∧ d = e ∧ u' = v') ∧ u'.forest.Faithful family ∧
    stop.Stopped halt u'.state d
  firstTires := False
  secondTires := False
  halts_trans := by
    rintro halt u v u' v' u'' v'' d e d' e' ⟨⟨rfl,rfl,rfl⟩,hd,_⟩ ⟨⟨_,rfl,rfl⟩,hw,hh⟩
    exact ⟨⟨rfl,rfl,rfl⟩,hw,stop.prepend hd hh⟩
  halts_joined h := ⟨h.1.2.2,h.2.1⟩
  tooDeep {u v} h := ⟨⟨h.1,rfl,h.1⟩,h.2,stop.tooDeep u.state⟩
  caught h := h.elim

theorem run_holds {u u' : World ι} {events : List (Event ι)} (he : stop.Calm events)
    (hw : u'.forest.Faithful family) (hs : u.state.failed = true → u'.state.failed = true) :
    (stop.run family S).Holds u u events events u' u' := ⟨⟨rfl,rfl,rfl⟩,he,hw,hs⟩

theorem run_halts {u u' : World ι} {halt : Halt} {events : List (Event ι)}
    (h : stop.Stopped halt u'.state events) (hw : u'.forest.Faithful family) :
    (stop.run family S).Halts halt u u events events u' u' := ⟨⟨rfl,rfl,rfl⟩,hw,h⟩

variable (ha : stop.Admits S)
include ha

theorem Admits.tolerant : (stop.run family S).Tolerant where
  changed {c u v s} hj hc := by
    obtain ⟨rfl,hu⟩ := hj
    exact run_holds (ha.act rfl) hu (Change.failed_of_apply hc)
  refused {c u v f} hj hc := by
    obtain ⟨rfl,hu⟩ := hj
    exact run_halts (ha.refused hc) hu
  raised {f u v} hj h := by
    obtain ⟨rfl,hu⟩ := hj
    exact run_halts (ha.raised h u.state) hu
  passed {f u v u' v' d e} h := by
    obtain ⟨⟨rfl,rfl,rfl⟩,hw,hr⟩ := h
    exact run_halts (stop.pass hr) hw
  uncontinued {u v} hj := by
    obtain ⟨rfl,hu⟩ := hj
    exact run_halts (ha.uncontinued u.state) hu

theorem Admits.governsLevels (hf : ∀ q, (family q).All (Program.Passes S)) :
    (stop.run family S).GovernsLevels family family where
  toTolerant := ha.tolerant
  signature := rfl
  entry _ := rfl
  around _ := rfl
  entry_suits h o :=
    have hp := (hf _).entry _ o h
    hp.1.suits hp.2
  around_suits h o :=
    have hp := (hf _).around _ o h
    hp.1.suits hp.2
  mates hi := by
    cases hi.1
    exact .refl _
  handler_suits hi := (hi.2.all (hf _)).imp fun _ hp => hp.1.suits hp.2
  fits hi := Or.inl hi.2.fits
  container hs _ _ _ _ _ := by rw [hs.1]
  announced {site site'} hs i i' hi u v hj _ := by
    obtain ⟨rfl,hu⟩ := hj
    cases hs.1
    cases hi.1
    have hx := site.announce_eq family i u
    exact Exec.alikeAt_of_eq hx hx
      (.ok rfl (run_holds (ha.calm Site.isPlain_of_mem_announcement) hu id))
  returned {site site'} hs i i' hi u v hj result := by
    obtain ⟨rfl,hu⟩ := hj
    cases hs.1
    cases hi.1
    exact run_holds (ha.act rfl) hu (i.failed_verdict_of_failed result)
  cascading {site site'} hs u v hj := by
    obtain ⟨rfl,hu⟩ := hj
    cases hs.1
    exact run_holds (ha.act rfl) hu id
  entered {u v} hj q o := by
    obtain ⟨rfl,hu⟩ := hj
    exact run_holds (ha.act rfl) hu id

/-- What is needed of a pipeline is what it compiles to, or a fault of its declarations. -/
theorem Admits.tree_compiled (q : ι) (hflawed : ∀ f, family.compile q = .error f → ∀ s,
      stop.Stopped (.fault f) s (family.declaring q ++ [.raised f s])) :
    Alike (stop.run family S) (fun t t' => t = t' ∧ family.compile q = .ok t) (family.tree q)
      (family.tree q) := by
  rintro u v ⟨rfl,hu⟩
  cases h : family.compile q with
  | ok tree =>
    have hplain : ∀ e ∈ family.declaring q ++ [.compiled q], e.isPlain = true :=
      List.forall_mem_append.2 ⟨Family.isPlain_of_mem_declaring,List.forall_mem_singleton.2 rfl⟩
    obtain ⟨forest,events,hx,hforest,he⟩ := Family.tree_of_compile h hu
    exact Exec.alikeAt_of_eq hx hx
      (.ok ⟨rfl,rfl⟩ (run_holds (ha.calm fun e h => hplain e (he e h)) hforest id))
  | error f =>
    have hx := Family.tree_of_flawed h hu
    exact Exec.alikeAt_of_eq hx hx (.halted (run_halts (hflawed f h u.state) hu))

omit ha in
theorem run_tree_self {q : ι} {tree : Tree ι} (h : family.compile q = .ok tree) :
    tree.Alike (stop.run family S) q tree :=
  ⟨rfl,fun _ => ⟨rfl,tree,h,rfl⟩,fun _ _ hi => ⟨rfl,tree,h,hi⟩⟩

end Stopping

end Cascade
