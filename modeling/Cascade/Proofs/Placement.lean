import Cascade.Proofs.Session
import Cascade.Proofs.FailedMark
import Cascade.Proofs.Declared.Need

/-! # Handlers run where they fit

Whatever is executed stands in the tree of its pipeline, and there every handler fits its position.
So the faults that tell of a handler in a wrong position are not met by a run: if one is raised at
all, a handler has raised it by itself.
-/
namespace Cascade

open Instruction (nodesOf)

variable {ι : Type}

/-! ## What a handler that fits is run as -/

/-- As a step or failure handler it is a program, or it stands for a pipeline to be invoked. -/
inductive Handler.Steps (launch : Launch ι) (site : Site ι) (o : Options) :
    Handler ι → Exec ι Value → Prop where
  | function (p : Program ι) : Steps launch site o (.function p) (p.value launch)
  | method (m : Method ι) (h : m.around = false) :
    Steps launch site o (.method m) ((m.callable.program o).value launch)
  | pipeline (q : ι) : Steps launch site o (.pipeline q) (launch.invoke q o (site.level + 1))
  | named (entry : String) : Steps launch site o (.named entry)
      (site.resolve entry >>= fun q => launch.invoke q o (site.level + 1))

/-- As a wrap it has a program of its own, or the around entry of a pipeline is one. -/
inductive Handler.Surrounds (family : Family ι) (o : Options) : Handler ι → Program ι → Prop where
  | around (p : Program ι) : Surrounds family o (.around p) p
  | method (m : Method ι) (h : m.around = true) :
    Surrounds family o (.method m) (m.callable.program o)
  | pipeline (q : ι) (c : Callable ι) (h : (family q).around = some c) :
    Surrounds family o (.pipeline q) (c.program o)

variable {family family' : Family ι}

theorem Site.steps_dispatch (launch : Launch ι) (site : Site ι) (role : Role) (o : Options)
    {h : Handler ι} (hc : h.canStep = true) :
    h.Steps launch site o (site.dispatch family launch role o h) := by
  cases h with
  | noop => cases hc
  | around p => cases hc
  | function p => exact .function p
  | pipeline q => exact .pipeline q
  | named entry => exact .named entry
  | method m =>
    have hm : m.around = false := by simpa [Handler.canStep] using hc
    unfold Site.dispatch
    simp only [hm]
    exact .method m hm

theorem Handler.Surrounds.wrap_eq {o : Options} {h : Handler ι} {p : Program ι}
    (hs : h.Surrounds family o p) (launch : Launch ι) (continuation : Exec ι Unit) :
    h.wrap family launch o continuation = p.exec launch (some continuation) 0 := by
  cases hs with
  | around => rfl
  | method m hm =>
    unfold Handler.wrap
    simp only [hm]
    rfl
  | pipeline q c hq =>
    show family.invokeAround launch q o continuation = _
    unfold Family.invokeAround
    rw [hq]

theorem Handler.Surrounds.canWrap {o : Options} {h : Handler ι} {p : Program ι}
    (hs : h.Surrounds family o p) : h.canWrap family.signature = true := by
  cases hs with
  | around => rfl
  | method m hm => exact hm
  | pipeline q c hq =>
    show (family q).around.isSome = true
    rw [hq]
    rfl

theorem Handler.Surrounds.congr {o : Options} {h : Handler ι} {p : Program ι}
    (hs : h.Surrounds family o p) (ha : ∀ q, (family q).around = (family' q).around) :
    h.Surrounds family' o p := by
  cases hs with
  | around => exact .around p
  | method m hm => exact .method m hm
  | pipeline q c hq => exact .pipeline q c ((ha q).symm.trans hq)

theorem Handler.exists_surrounds {h : Handler ι} (hc : h.canWrap family.signature = true)
    (o : Options) : ∃ p, h.Surrounds family o p := by
  cases h with
  | noop => cases hc
  | function p => cases hc
  | named entry => cases hc
  | around p => exact ⟨p,.around p⟩
  | method m => exact ⟨_,.method m hc⟩
  | pipeline q =>
    obtain ⟨c,hq⟩ := Option.isSome_iff_exists.1 hc
    exact ⟨_,.pipeline q c hq⟩

theorem Handler.surrounds_wrap (launch : Launch ι) (o : Options) (continuation : Exec ι Unit)
    {h : Handler ι} (hc : h.canWrap family.signature = true) :
    ∃ p, h.Surrounds family o p ∧
      h.wrap family launch o continuation = p.exec launch (some continuation) 0 := by
  obtain ⟨p,hp⟩ := exists_surrounds hc o
  exact ⟨p,hp,hp.wrap_eq launch continuation⟩

/-! ## What a pipeline is made of -/

def Declaration.All (P : Program ι → Prop) : Declaration ι → Prop
  | step h _ | failure h _ | wrap h _ _ => h.All P
  | dependsOn .. | container _ | debug _ | logger _ | probe => True

/-- All programs of the pipeline are of `P`: those declared for it, at any depth, and of its
entries. -/
structure Pipeline.All (P : Program ι → Prop) (p : Pipeline ι) : Prop where
  declared (d : Declaration ι) : d ∈ Declaration.documentOf p.declarations → d.All P
  entry (c : Callable ι) (o : Options) : p.entry = some c → P (c.program o)
  around (c : Callable ι) (o : Options) : p.around = some c → P (c.program o)

theorem Pipeline.all_of_forall {P : Program ι → Prop} (hP : ∀ p, P p) (p : Pipeline ι) :
    p.All P where
  declared d _ := by
    cases d with
    | step h _ | failure h _ | wrap h _ _ => exact h.all_of_forall hP
    | _ => trivial
  entry _ _ _ := hP _
  around _ _ _ := hP _

theorem Pipeline.All.imp {P Q : Program ι → Prop} (hPQ : ∀ p, P p → Q p) {p : Pipeline ι}
    (h : p.All P) : p.All Q where
  declared d hd := by
    have hall := h.declared d hd
    cases d with
    | step _ _ | failure _ _ | wrap _ _ _ => exact Handler.All.imp hPQ hall
    | _ => trivial
  entry c o hc := hPQ _ (h.entry c o hc)
  around c o hc := hPQ _ (h.around c o hc)

theorem Declaration.All.handler {P : Program ι → Prop} {d : Declaration ι} (h : d.All P)
    {i : Instruction ι} (hi : i ∈ d.image) : i.handler.All P := by
  cases d with
  | step _ _ | failure _ _ =>
    cases List.mem_singleton.1 hi
    exact h
  | wrap handler o body =>
    rw [image] at hi
    cases List.mem_singleton.1 hi
    exact h
  | dependsOn category keys =>
    rw [image] at hi
    split at hi
    · cases List.mem_singleton.1 hi
      trivial
    · cases hi
  | container _ | debug _ | logger _ | probe => cases hi

/-! ## Handlers that raise faults of a kind -/

def Declaration.RaisesOnly (S : Fault → Prop) : Declaration ι → Prop
  | step h _ | failure h _ | wrap h _ _ => h.RaisesOnly S
  | dependsOn .. | container _ | debug _ | logger _ | probe => True

/-- All that is declared for the pipeline, at any depth, raises faults of `S` only. -/
structure Pipeline.RaisesOnly (S : Fault → Prop) (p : Pipeline ι) : Prop where
  declared (d : Declaration ι) : d ∈ Declaration.documentOf p.declarations → d.RaisesOnly S
  entry (c : Callable ι) : p.entry = some c → c.RaisesOnly S
  around (c : Callable ι) : p.around = some c → c.RaisesOnly S

theorem Declaration.raisesOnly_iff {S : Fault → Prop} {d : Declaration ι} :
    d.RaisesOnly S ↔ d.All (Program.RaisesOnly S) := by
  cases d with
  | step h _ | failure h _ | wrap h _ _ => exact Handler.raisesOnly_iff
  | _ => exact Iff.rfl

theorem Pipeline.raisesOnly_iff {S : Fault → Prop} {p : Pipeline ι} :
    p.RaisesOnly S ↔ p.All (Program.RaisesOnly S) := by
  constructor
  · intro h
    exact ⟨fun d hd => Declaration.raisesOnly_iff.1 (h.declared d hd),
      fun c o hc => h.entry c hc o,fun c o hc => h.around c hc o⟩
  · intro h
    exact ⟨fun d hd => Declaration.raisesOnly_iff.2 (h.declared d hd),
      fun c hc o => h.entry c o hc,fun c hc o => h.around c o hc⟩

theorem Pipeline.raisesOnly_of_forall {S : Fault → Prop} (hS : ∀ f, S f) (p : Pipeline ι) :
    p.RaisesOnly S := raisesOnly_iff.2 (p.all_of_forall (Program.raisesOnly_of_forall hS))

/-! ## Runs -/

/-- The instruction stands in the tree of the pipeline, at whatever depth. -/
def Family.Has (family : Family ι) (q : ι) (i : Instruction ι) : Prop :=
  ∃ tree, family.compile q = .ok tree ∧ i ∈ nodesOf tree.roots

theorem Family.Has.fits {q : ι} {i : Instruction ι} (h : family.Has q i) :
    i.Fits family.signature := by
  obtain ⟨tree,ht,hi⟩ := h
  exact Family.fits_of_compile ht hi

theorem Family.Has.all {P : Program ι → Prop} {q : ι} {i : Instruction ι} (h : family.Has q i)
    (hq : (family q).All P) : i.handler.All P := by
  obtain ⟨tree,ht,hi⟩ := h
  obtain ⟨_,rfl⟩ := (family.compile_eq_ok_iff q).1 ht
  obtain ⟨d,hd,hid⟩ := Declaration.exists_of_mem_nodesOf hi
  exact (hq.declared d hd).handler hid

/-- What is executed stands in the tree of its pipeline, and what is raised is a fault of `S`. -/
def Event.Placed (family : Family ι) (S : Fault → Prop) : Event ι → Prop
  | executing q _ i _ => family.Has q i
  | raised f _ => S f
  | _ => True

variable (family) in
def placedLaw (S : Fault → Prop) : Law ι where
  Holds _ events _ := ∀ e ∈ events, e.Placed family S
  refl _ := by simp
  trans hd he := by
    intro e h
    exact (List.mem_append.1 h).elim (hd e) (he e)

variable [DecidableEq ι]

variable (family) in
/-- A run whose forest holds the trees of the family. -/
def placedRun (S : Fault → Prop) : Likeness ι :=
  ((placedLaw family S).alone fun w => w.forest.Faithful family).likeness
    (.same (· = ·) family.Has) S

variable {S : Fault → Prop}

/-- What happens keeps to the law if its events are placed, and the mark stays. -/
theorem placedRun_holds {u u' : World ι} {events : List (Event ι)}
    (he : ∀ e ∈ events, e.Placed family S) (hw : u'.forest.Faithful family)
    (hs : u.state.failed = true → u'.state.failed = true) :
    (placedRun family S).Holds u u events events u' u' := ⟨⟨rfl,rfl,rfl⟩,he,hw,hs⟩

theorem placedRun_tolerant (hS : ∀ f : Fault, f.misplaced = false → S f) :
    (placedRun family S).Tolerant := by
  refine Comparison.tolerant (fun h => hS _ h) ?_ ?_
  · rintro c u v s ⟨rfl,hu⟩ h
    exact placedRun_holds (by simp [Event.Placed]) hu (Change.failed_of_apply h)
  · rintro f u v ⟨rfl,hu⟩ h
    refine placedRun_holds ?_ hu id
    intro e he
    cases List.mem_singleton.1 he
    exact h

theorem placedRun_governs (hS : ∀ f : Fault, f.misplaced = false → S f)
    (hf : ∀ q, (family q).RaisesOnly S) : (placedRun family S).Governs family family where
  toTolerant := placedRun_tolerant hS
  signature := rfl
  entry _ := rfl
  around _ := rfl
  entry_suits h o := ((hf _).entry _ h o).suits
  around_suits h o := ((hf _).around _ h o).suits
  mates hi := by
    cases hi.1
    exact .refl _
  handler_suits hi := (Family.Has.all hi.2 (Pipeline.raisesOnly_iff.1 (hf _))).imp
    fun _ => Program.RaisesOnly.suits
  fits hi := Or.inl (Family.Has.fits hi.2)
  container hs _ _ _ _ _ := congrArg Settings.container hs.settings
  announced {site site'} hs i i' hi u v hj _ := by
    obtain ⟨rfl,hu⟩ := hj
    cases hs.eq
    cases hi.1
    have hx := site.announce_apply family i u
    refine Exec.alikeAt_of_eq hx hx (.ok rfl (placedRun_holds ?_ hu id))
    intro e he
    rcases List.mem_cons.1 he with rfl | he
    · exact hi.2
    · split at he
      · cases List.mem_singleton.1 he
        trivial
      · cases he
  returned {site site'} hs i i' hi u v hj result := by
    obtain ⟨rfl,hu⟩ := hj
    cases hs.eq
    cases hi.1
    exact placedRun_holds (by simp [Event.Placed]) hu (i.failed_verdict_of_failed result)
  cascading {site site'} hs u v hj := by
    obtain ⟨rfl,hu⟩ := hj
    cases hs.eq
    exact placedRun_holds (by simp [Event.Placed]) hu id
  entered {u v} hj q o := by
    obtain ⟨rfl,hu⟩ := hj
    exact placedRun_holds (by simp [Event.Placed]) hu id
  finished {u v} hj q level := by
    obtain ⟨rfl,hu⟩ := hj
    exact placedRun_holds (by simp [Event.Placed]) hu id

/-- A tree that is needed is that of the family, whether it was built before or not. -/
theorem tree_placed (hS : ∀ f : Fault, f.misplaced = false → S f) (q : ι) :
    Exec.Alike (placedRun family S) (Tree.Alike (placedRun family S) q) (family.tree q)
      (family.tree q) := by
  have hplaced : ∀ {e : Event ι}, e.Placed family S →
      ∀ d ∈ family.declaring q ++ [e], d.Placed family S := fun he => List.forall_mem_append.2
    ⟨Family.forall_declaring trivial fun _ => trivial,List.forall_mem_singleton.2 he⟩
  rintro u v ⟨rfl,hu⟩
  cases h : family.compile q with
  | ok tree =>
    have hself : tree.Alike (placedRun family S) q tree :=
      ⟨rfl,fun _ => ⟨rfl,rfl,rfl⟩,fun _ i hi => ⟨rfl,tree,h,hi⟩⟩
    have hcompiled : (Event.compiled q).Placed family S := trivial
    obtain ⟨forest,events,hx,hforest,he⟩ := Family.tree_of_compile h hu
    exact Exec.alikeAt_of_eq hx hx
      (.ok hself (placedRun_holds (fun e h => hplaced hcompiled e (he e h)) hforest id))
  | error f =>
    have hx := Family.tree_of_flawed h hu
    have hf : S f := hS f (family.placed_of_compile h)
    refine Exec.alikeAt_of_eq hx hx
      (.halted ⟨placedRun_holds (hplaced hf) hu id,fun g hg => ?_⟩)
    cases hg
    exact hf

/-- Every turn of a session, from the first on, is placed. -/
theorem session_placed (hS : ∀ f : Fault, f.misplaced = false → S f)
    (hf : ∀ q, (family q).RaisesOnly S) (depth : Nat) (turns : List (Turn ι)) (s : State)
    {out : Outcome ι (Answer ι)} (h : out ∈ session family depth turns { state := s }) :
    (∀ e ∈ out.events, e.Placed family S) ∧ ∀ f, out.result = .error (.fault f) → S f := by
  have hj : (placedRun family S).Joined { state := s } { state := s } :=
    ⟨rfl,Forest.faithful_nil⟩
  have hr : (placedRun family S).Resumes := by
    rintro u v t ⟨rfl,hu⟩
    exact ⟨rfl,hu⟩
  have hstarted : ∀ {u v}, (placedRun family S).Joined u v → ∀ q level,
      (placedRun family S).Holds u v [.started q level] [.started q level] u v := by
    rintro u v ⟨rfl,hu⟩ q level
    exact placedRun_holds (by simp [Event.Placed]) hu id
  have hall := session_alike (placedRun_governs hS hf) (fun h => hS _ h) hr (tree_placed hS)
    hstarted id id depth turns hj
  obtain ⟨u,v,ho⟩ := List.forall₂_same.1 hall out h
  refine ⟨ho.holds.2.1,fun f hout => ?_⟩
  obtain ⟨_,_,_,hok,_⟩ | ⟨halt,herror,_,hadmits⟩ := ho.result
  · rw [hok] at hout
    cases hout
  · rw [herror] at hout
    cases hout
    exact hadmits f rfl

/-- Trees that compile are well formed: handlers fit their positions and are run as what they are.
In every session the instructions that are executed are those of such trees. So the faults of a
misplaced handler occur only if they are among those that the handlers themselves raise. -/
theorem Family.handlers_fit (family : Family ι) :
    (∀ q i, family.Has q i → i.Fits family.signature ∧
      (∀ launch site role, i.isStep = true ∨ i.isFailure = true →
        i.handler.Steps launch site i.options
          (site.dispatch family launch role i.options i.handler)) ∧
      ∀ launch continuation, i.isWrap = true → ∃ p, i.handler.Surrounds family i.options p ∧
        i.handler.wrap family launch i.options continuation =
          p.exec launch (some continuation) 0) ∧
    ∀ depth turns s, ∀ out ∈ session family depth turns { state := s },
      (∀ q level i before, .executing q level i before ∈ out.events → family.Has q i) ∧
      ∀ S : Fault → Prop, (∀ f, f.misplaced = false → S f) →
        (∀ q, (family q).RaisesOnly S) →
        (∀ f t, .raised f t ∈ out.events → S f) ∧ ∀ f, out.result = .error (.fault f) → S f := by
  constructor
  · intro q i hi
    have hfits := hi.fits
    refine ⟨hfits,?_,?_⟩
    · intro launch site role hk
      exact site.steps_dispatch launch role i.options (hfits.leaf hk)
    · intro launch continuation hk
      exact Handler.surrounds_wrap launch i.options continuation (hfits.wrap hk)
  · intro depth turns s out hout
    constructor
    · intro q level i before he
      have hany := fun q => (family q).raisesOnly_of_forall (S := fun _ => True) fun _ => trivial
      exact (session_placed (fun _ _ => trivial) hany depth turns s hout).1 _ he
    · intro S hS hf
      have h := session_placed hS hf depth turns s hout
      exact ⟨fun f t he => h.1 _ he,h.2⟩

end Cascade
