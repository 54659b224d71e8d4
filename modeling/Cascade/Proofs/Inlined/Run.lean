import Cascade.Proofs.Level.Dispatch
import Cascade.Proofs.Inlined.Declared

/-! # Nesting a pipeline is declaring it in place

A pipeline that is nested in a step runs as its instructions do in the body of a wrap that only runs
its continuation. Both runs come to the same result in the same state, and execute the same
instructions on the same levels. The nested one starts a pipeline more, so it has to be allowed to
go deeper.
-/
namespace Cascade

open Json (Value)
open Exec (Alike AlikeAt)
open Instruction (nodesOf inForce inForce_append)

variable {ι : Type}

/-! ## Handlers that run their continuation -/

theorem Program.Ends.exec {p : Program ι} (hp : p.Ends) (launch : Launch ι)
    (continuation : Exec ι Unit) (runs : Nat) (w : World ι) :
    ∃ v, p.exec launch (some continuation) runs w = ⟨.ok (v, runs), w, []⟩ := by
  induction p with
  | done v => exact ⟨v,rfl⟩
  | read rest ih =>
    obtain ⟨v,hv⟩ := ih w.state (hp w.state)
    exact ⟨v,(Exec.bind_of_ok (Exec.state_apply w)).trans (by rw [hv]; rfl)⟩
  | count rest ih => exact ih runs (hp runs)
  | raise _ | change _ _ | call _ _ | attempt _ _ => exact hp.elim

/-- An execution that comes to what another one does, in the same world, and tells at most that a
fault is raised again. -/
inductive Outcome.Repeats {α β : Type} : Outcome ι α → Outcome ι β → Prop where
  | ok (a : α) (b : β) (w : World ι) (events : List (Event ι)) :
    Repeats ⟨.ok a, w, events⟩ ⟨.ok b, w, events⟩
  | halted (halt : Halt) (w : World ι) (events : List (Event ι)) :
    Repeats ⟨.error halt, w, events⟩ ⟨.error halt, w, events⟩
  | raised (f : Fault) (w : World ι) (events : List (Event ι)) :
    Repeats ⟨.error (.fault f), w, events ++ [.raised f w.state]⟩ ⟨.error (.fault f), w, events⟩

theorem Outcome.Repeats.congr {α β : Type} {out out₀ : Outcome ι α} {out' : Outcome ι β}
    (h : out = out₀) (hr : out₀.Repeats out') : out.Repeats out' := h ▸ hr

theorem Program.PassesThrough.exec {p : Program ι} (hp : p.PassesThrough) (launch : Launch ι)
    (continuation : Exec ι Unit) (runs : Nat) (w : World ι) :
    (p.exec launch (some continuation) runs w).Repeats (continuation w) := by
  induction p generalizing runs with
  | read rest ih =>
    have hread : (Program.read rest).exec launch (some continuation) runs w =
        (rest w.state).exec launch (some continuation) runs w :=
      Exec.bind_of_ok (Exec.state_apply w)
    rw [hread]
    exact ih w.state (hp w.state) runs
  | count rest ih => exact ih runs (hp runs) runs
  | call c rest _ =>
    cases c with
    | next =>
      rcases hk : continuation w with ⟨halt | _,w',events⟩
      · exact .congr (Exec.bind_of_error (Exec.bind_of_error hk)) (.halted halt w' events)
      · obtain ⟨v,hv⟩ := (hp (.bool w'.state.successful)).exec launch continuation (runs + 1) w'
        exact .congr (Exec.bind_of_silent (Exec.successful_of_ok hk) hv) (.ok _ _ w' events)
    | run q level => exact hp.elim
    | invoke q o level => exact hp.elim
  | attempt c rest _ =>
    cases c with
    | next =>
      rcases hk : continuation w with ⟨halt | _,w',events⟩
      · cases halt with
        | tooDeep =>
          refine .congr (Exec.bind_of_error (Exec.attempt_of_tooDeep ?_)) (.halted _ w' events)
          exact Exec.bind_of_error hk
        | fault f =>
          refine .congr (Exec.bind_of_ok (Exec.attempt_of_fault (Exec.bind_of_error hk))) ?_
          rw [hp.2 f]
          exact .raised f w' events
      · obtain ⟨v,hv⟩ := (hp.1 (.bool w'.state.successful)).exec launch continuation (runs + 1) w'
        have hnext := Exec.attempt_of_ok (Exec.successful_of_ok hk)
        exact .congr (Exec.bind_of_silent hnext hv) (.ok _ _ w' events)
    | run q level => exact hp.elim
    | invoke q o level => exact hp.elim
  | done _ | raise _ | change _ _ => exact hp.elim

/-! ## What may differ -/

/-- What instructions and handlers do. -/
def Event.isAct : Event ι → Bool
  | executing .. | changed _ | entered .. => true
  | _ => false

/-- The same instruction up to the children of a wrap, or one that the other is replaced by. -/
inductive Instruction.Inlined (family : Family ι) : Instruction ι → Instruction ι → Prop where
  | mates {i i' : Instruction ι} (h : i.Mates i') : Inlined family i i'
  | step {q : ι} {tree : Tree ι} (ht : family.compile q = .ok tree) (o : Options) (h : Handler ι)
    (o' : Options) : Inlined family (.step (.pipeline q) o) (.wrap h o' tree.roots)

/-- The same act on the same level and in the same state. -/
inductive Event.Inlined (family : Family ι) : Event ι → Event ι → Prop where
  | executing {q q' : ι} {level : Level} {i i' : Instruction ι} {s : State}
    (hq : q = q' ∨ family.Inlinable q' q) (hi : i.Inlined family i') :
    Inlined family (.executing q level i s) (.executing q' level i' s)
  | changed (c : Change) : Inlined family (.changed c) (.changed c)
  | entered (q : ι) (o : Options) : Inlined family (.entered q o) (.entered q o)

/-- The same acts in the same order. -/
def Event.SameActs (family : Family ι) (d e : List (Event ι)) : Prop :=
  List.Forall₂ (Event.Inlined family) (d.filter Event.isAct) (e.filter Event.isAct)

namespace Event.SameActs

variable {family : Family ι} {d d' e e' : List (Event ι)}

theorem append (h : SameActs family d e) (h' : SameActs family d' e') :
    SameActs family (d ++ d') (e ++ e') := by
  unfold SameActs
  rw [List.filter_append, List.filter_append]
  exact List.rel_append h h'

theorem of_silent (hd : ∀ a ∈ d, a.isAct = false) (he : ∀ a ∈ e, a.isAct = false) :
    SameActs family d e := by
  have hnone : ∀ {d : List (Event ι)}, (∀ a ∈ d, a.isAct = false) → d.filter isAct = [] :=
    fun h => List.filter_eq_nil_iff.2 fun a ha => by simp [h a ha]
  unfold SameActs
  rw [hnone hd, hnone he]
  exact .nil

theorem silent {a b : Event ι} (ha : a.isAct = false) (hb : b.isAct = false) :
    SameActs family [a] [b] :=
  .of_silent (List.forall_mem_singleton.2 ha) (List.forall_mem_singleton.2 hb)

end Event.SameActs

/-! ## The likeness -/

variable [DecidableEq ι]

/-- Both runs act alike, and each keeps the trees of its family. -/
def inlining (family family' : Family ι) : Comparison ι where
  Joined u v := u.state = v.state ∧ u.forest.Faithful family ∧ v.forest.Faithful family'
  Holds u _ d e u' v' := Event.SameActs family d e ∧
    (u'.state = v'.state ∧ u'.forest.Faithful family ∧ v'.forest.Faithful family') ∧
    (u.state.failed = true → u'.state.failed = true)
  refl h := ⟨.nil,h,id⟩
  trans h h' := ⟨h.1.append h'.1,h'.2.1,h'.2.2 ∘ h.2.2⟩
  joined h := h.2.1
  state_eq h := h.1
  sticky h := h.2.2

/-- Sites on the same level, of the same pipeline or of one that is declared in place. -/
def Family.inlineStage (family : Family ι) : Stage ι where
  Sites site site' := site.level = site'.level ∧
    (site.pipeline = site'.pipeline ∨ family.Inlinable site'.pipeline site.pipeline)
  Runs site site' i i' := i.Mates i' ∧
    ∀ entry, i.handler = .named entry → site.settings.container = site'.settings.container
  level_eq h := h.1
  deeper h := ⟨congrArg (· + 1) h.1,h.2⟩
  runs_deeper h := h

def inliningRun (family family' : Family ι) (first second : Prop) : Likeness ι :=
  { (inlining family family').likeness family.inlineStage fun _ => True with
    firstTires := first
    secondTires := second }

variable {family family' : Family ι} {first second : Prop}

/-- Nothing is done, or what is done is not told, but for the state that is reached. -/
theorem inlining_holds {u v : World ι} {d e : List (Event ι)} {s : State}
    (hj : (inlining family family').Joined u v) (hd : Event.SameActs family d e)
    (hs : u.state.failed = true → s.failed = true) :
    (inlining family family').Holds u v d e { u with state := s } { v with state := s } :=
  ⟨hd,⟨rfl,hj.2⟩,hs⟩

theorem inliningRun_tolerant : (inliningRun family family' first second).Tolerant := by
  have ht : ((inlining family family').likeness family.inlineStage fun _ => True).Tolerant := by
    refine Comparison.tolerant (fun _ => trivial) ?_ ?_
    · intro c u v s hj hc
      exact inlining_holds hj (.cons (.changed c) .nil) (Change.failed_of_apply hc)
    · intro f u v hj _
      exact ⟨.silent rfl rfl,hj,id⟩
  exact ⟨ht.changed,ht.refused,ht.raised,ht.passed,ht.uncontinued⟩

theorem announce_inlined {site site' : Site ι} (hs : family.inlineStage.Sites site site')
    {i i' : Instruction ι} (hi : i.Inlined family i') {u v : World ι}
    (hj : (inlining family family').Joined u v) :
    AlikeAt (inliningRun family family' first second) (· = ·) (site.announce family i)
      (site'.announce family' i') u v := by
  have hact : ∀ {site : Site ι} {f : Family ι} {i : Instruction ι} {s : State},
      (site.announcement f i s).filter Event.isAct =
        [.executing site.pipeline site.level i s] := by
    intro site f i s
    unfold Site.announcement
    cases site.settings.debug <;> rfl
  have hsame : Event.SameActs family (site.announcement family i u.state)
      (site'.announcement family' i' v.state) := by
    unfold Event.SameActs
    rw [hact, hact, ← hj.1, ← hs.1]
    exact .cons (.executing hs.2 hi) .nil
  exact Exec.alikeAt_of_eq (site.announce_eq family i u) (site'.announce_eq family' i' v)
    (.ok rfl ⟨hsame,hj,id⟩)

section

variable (h : family.Inlines family')
include h

theorem inliningRun_governs : (inliningRun family family' first second).Governs family family' where
  toTolerant := inliningRun_tolerant
  signature := h.signature
  entry := h.entry
  around := h.around
  entry_suits _ _ := Program.suits_of_forall (fun _ => trivial) _
  around_suits _ _ := Program.suits_of_forall (fun _ => trivial) _
  mates hi := hi.1
  handler_suits {_ _ i _} _ := i.handler.suits_of_forall fun _ => trivial
  fits _ := Or.inr fun _ => trivial
  container _ _ _ hi _ hn := hi.2 _ hn
  announced hs _ _ hi _ _ hj _ := announce_inlined hs (.mates hi.1) hj
  returned {site site'} hs i i' hi u v hj result := by
    rw [← hj.1]
    exact inlining_holds hj (.silent rfl rfl)
      (i.failed_verdict_of_failed result)
  cascading _ _ _ hj := ⟨.silent rfl rfl,hj,id⟩
  entered hj q o := ⟨.cons (.entered q o) .nil,hj,id⟩
  finished hj q level := ⟨.silent rfl rfl,hj,id⟩

/-! ## The step that is replaced -/

omit h [DecidableEq ι] in
/-- Nothing is done when a pipeline is declared. -/
theorem Family.isAct_of_mem_declaring {q : ι} {e : Event ι} (he : e.isAct = false) :
    ∀ a ∈ family.declaring q ++ [e], a.isAct = false := List.forall_mem_append.2
  ⟨Family.forall_declaring rfl fun _ => rfl,List.forall_mem_singleton.2 he⟩

omit h in
/-- A wrap that runs its continuation does what the continuation does. -/
theorem Program.PassesThrough.exec_alikeAt {p : Program ι} (hp : p.PassesThrough) {α : Type}
    {r : α → Unit → Prop} {x : Exec ι α} {continuation : Exec ι Unit} {u v : World ι}
    (hx : AlikeAt (inliningRun family family' first second) r x continuation u v)
    (launch : Launch ι) (runs : Nat) :
    AlikeAt (inliningRun family family' first second) (fun _ _ => True) x
      (p.exec launch (some continuation) runs) u v := by
  have hrepeats := hp.exec launch continuation runs v
  unfold AlikeAt at hx ⊢
  generalize x u = out at hx ⊢
  generalize continuation v = out' at hx hrepeats
  generalize p.exec launch (some continuation) runs v = repeated at hrepeats ⊢
  cases hrepeats with
  | ok a b w events =>
    cases hx with
    | ok _ hh => exact .ok trivial hh
    | first ht => exact .first ht
  | halted halt w events =>
    cases hx with
    | halted hh => exact .halted hh
    | first ht => exact .first ht
    | second ht => exact .second ht
  | raised f w events =>
    cases hx with
    | halted hh =>
      have hagain := hh.1.1.append (.of_silent (d := []) (e := [.raised f w.state]) (by simp)
        (List.forall_mem_singleton.2 rfl))
      rw [List.append_nil] at hagain
      exact .halted ⟨⟨hagain,hh.1.2⟩,hh.2⟩
    | first ht => exact .first ht

/-- The instructions of a pipeline are executed alike when nested and when declared in place. -/
theorem Family.Inlinable.traverse_alike {site : Site ι} {q : ι} {tree : Tree ι}
    (hq : family.Inlinable site.pipeline q) (ht : family.compile q = .ok tree)
    (hsite : site.settings.container =
      (Declaration.settingsOf (family site.pipeline).declarations).container)
    {launch launch' : Launch ι}
    (hl : launch.Alike (inliningRun family family' first second) launch') :
    Alike (inliningRun family family' first second) (· = ·)
      (Site.traverse family launch ⟨q, tree.settings, site.level + 1⟩ [] tree.roots)
      (site.deeper.traverse family' launch' [] tree.roots) := by
  have hcontainer : tree.settings.container =
      (Declaration.settingsOf (family q).declarations).container := by
    obtain ⟨_,rfl⟩ := (family.compile_eq_ok_iff q).1 ht
    rfl
  have hs : family.inlineStage.Sites ⟨q, tree.settings, site.level + 1⟩ site.deeper :=
    ⟨rfl,Or.inr hq⟩
  refine (inliningRun_governs h).traverse_alike hl (fun _ => trivial) hs ?_ []
  intro i hi
  refine ⟨.refl i,fun entry hn => ?_⟩
  rcases hq.names with hnames | hnames
  · exact hcontainer.trans (hnames.trans hsite.symm)
  · exact absurd hn (hnames i ⟨tree,ht,hi⟩ entry)

omit h [DecidableEq ι] in
/-- A nested pipeline without entry is its instructions, once it is started, and its value tells
whether the state is still successful. -/
theorem Family.nested_eq {q : ι} (he : (family q).entry = none) (launch : Launch ι)
    (need : ι → Exec ι (Tree ι)) (o : Options) (level : Level) (rest : Value → Exec ι Unit) :
    (family.invokeBy launch (family.runWith launch need) q o level >>= rest) =
      (Family.start need q level >>= fun tree =>
        Site.traverse family launch ⟨q, tree.settings, level⟩ [] tree.roots >>= fun _ =>
          Exec.state >>= fun s => Exec.emit (.finished q level s.successful) >>= fun _ =>
            Exec.state >>= fun s => rest (.bool s.successful)) := by
  unfold Family.invokeBy Family.runWith Family.round
  simp only [he, Exec.bind_assoc, Exec.pure_bind]

omit h in
theorem finish_alikeAt (site : Site ι) (q : ι) (o : Options) (handler : Handler ι) (o' : Options)
    (children : List (Instruction ι)) (result : Value) {u v : World ι}
    (hj : (inlining family family').Joined u v) :
    AlikeAt (inliningRun family family' first second) (· = ·)
      (Exec.state >>= fun s => Exec.emit (.finished q (site.level + 1) s.successful) >>= fun _ =>
        Exec.state >>= fun s => site.conclude (.step (.pipeline q) o) (.bool s.successful))
      (site.conclude (.wrap handler o' children) result) u v := by
  have hx := site.conclude_apply (.step (.pipeline q) o) (.bool u.state.successful) u
  rw [Instruction.verdict_successful] at hx
  refine Exec.alikeAt_of_eq (Exec.bind_of_ok (Exec.state_apply u))
    (site.conclude_apply (.wrap handler o' children) result v) ?_
  rw [Exec.bind_of_ok (Exec.emit_apply _ u), Exec.bind_of_ok (Exec.state_apply u), hx]
  exact .ok rfl ⟨.of_silent (by simp [Event.isAct]) (by simp [Event.isAct]),hj,id⟩

/-- A step that nests a pipeline, if there is depth left for it, and a wrap around the instructions
of the pipeline. -/
theorem Family.Inlinable.act_alikeAt {site : Site ι} {q : ι} {tree : Tree ι}
    (hq : family.Inlinable site.pipeline q) (ht : family.compile q = .ok tree)
    (hsite : site.settings.container =
      (Declaration.settingsOf (family site.pipeline).declarations).container)
    {handler : Handler ι} {o o' : Options} {program : Program ι}
    (hs : handler.Surrounds family o' program) (hp : program.PassesThrough) {launch' : Launch ι}
    {depth : Nat} (hl : depth = 0 ∧ first ∨ ∃ d, depth = d + 1 ∧
      (family.launchWith family.tree d).Alike (inliningRun family family' first second) launch')
    {u v : World ι} (hj : (inlining family family').Joined u v) :
    AlikeAt (inliningRun family family' first second) (· = ·)
      (site.act family (family.launchWith family.tree depth) (.step (.pipeline q) o))
      (site.act family' launch' (.wrap handler o' tree.roots)) u v := by
  have hwrap : site.act family' launch' (.wrap handler o' tree.roots) =
      (program.exec launch' (some (site.deeper.traverse family' launch' [] tree.roots)) 0 >>=
        fun b => site.conclude (.wrap handler o' tree.roots) b.1) := by
    rw [← (hs.congr h.around).wrap_eq]
    rfl
  rcases hl with ⟨rfl,hfirst⟩ | ⟨d,rfl,hl⟩
  · exact Exec.alikeAt_of_eq (Exec.bind_of_error rfl) rfl (.first hfirst)
  obtain ⟨forest,events,htree,hforest,hevents⟩ := Family.tree_of_compile ht hj.2.1
  have hstarted : (inlining family family').Holds u v (events ++ [.started q (site.level + 1)]) []
      { u with forest := forest } v := by
    refine ⟨.of_silent ?_ (by simp),⟨hj.1,hforest,hj.2.2⟩,id⟩
    refine List.forall_mem_append.2 ⟨fun e he => ?_,List.forall_mem_singleton.2 rfl⟩
    exact Family.isAct_of_mem_declaring rfl e (hevents e he)
  have hstep : site.act family (family.launchWith family.tree (d + 1)) (.step (.pipeline q) o) =
      (family.invokeBy (family.launchWith family.tree d)
        (family.runWith (family.launchWith family.tree d) family.tree) q o (site.level + 1) >>=
          site.conclude (.step (.pipeline q) o)) := by
    rw [site.act_leaf _ _ (Or.inl rfl), family.launchWith_succ]
    rfl
  rw [hstep, hwrap, Family.nested_eq hq.entry]
  have htraverse := (hp.exec_alikeAt (hq.traverse_alike h ht hsite hl hstarted.2.1) launch' 0).bind
    fun {_ b _ _ _ _} _ hh => finish_alikeAt site q o handler o' tree.roots b.1 hh.2.1
  exact Exec.alikeAt_of_eq (Exec.bind_of_ok (Family.start_of_ok htree _)) rfl
    (Outcome.Alike.after hstarted htraverse)

theorem Family.Inlinable.enact_alikeAt {site : Site ι} {q : ι} {tree : Tree ι}
    (hq : family.Inlinable site.pipeline q) (ht : family.compile q = .ok tree)
    (hsite : site.settings.container =
      (Declaration.settingsOf (family site.pipeline).declarations).container)
    {handler : Handler ι} {o o' : Options} {program : Program ι} {required : List Key}
    (hr : o.lacking? required = none) (hs : handler.Surrounds family o' program)
    (hp : program.PassesThrough) {launch' : Launch ι} {depth : Nat}
    (hl : depth = 0 ∧ first ∨ ∃ d, depth = d + 1 ∧ (family.launchWith family.tree d).Alike
      (inliningRun family family' first second) launch') {u v : World ι}
    (hj : (inlining family family').Joined u v) :
    AlikeAt (inliningRun family family' first second) (· = ·)
      (site.enact family (family.launchWith family.tree depth) required (.step (.pipeline q) o))
      (site.enact family' launch' required (.wrap handler o' tree.roots)) u v := by
  have hmet : Instruction.lacking? required (.step (.pipeline q) o) = none := hr
  rw [Site.enact_eq, Site.enact_eq, hmet]
  have hannounced : AlikeAt (inliningRun family family' first second) (· = ·)
      (site.announce family (.step (.pipeline q) o))
      (site.announce family' (.wrap handler o' tree.roots)) u v :=
    announce_inlined ⟨rfl,Or.inl rfl⟩ (.step ht o handler o') hj
  exact hannounced.bind fun _ hh => hq.act_alikeAt h ht hsite hs hp hl hh.2.1

/-! ## Levels and runs -/

/-- Levels of which one has steps replaced are alike. -/
theorem Instruction.Inlines.aligned {p : ι} {before is is' : List (Instruction ι)}
    (hi : Instruction.Inlines family p before is is') {site : Site ι} (hp : site.pipeline = p)
    (hsite : site.settings.container = (Declaration.settingsOf (family p).declarations).container)
    {launch' : Launch ι} {depth : Nat}
    (hl : (family.launchWith family.tree depth).Alike (inliningRun family family' first second)
      launch')
    (hnested : depth = 0 ∧ first ∨ ∃ d, depth = d + 1 ∧ (family.launchWith family.tree d).Alike
      (inliningRun family family' first second) launch') :
    Aligned (inliningRun family family' first second)
      (site.enact family (family.launchWith family.tree depth)) (site.enact family' launch')
      (inForce before) is is' := by
  have hg : (inliningRun family family' first second).Governs family family' :=
    inliningRun_governs h
  have hself : ∀ {site : Site ι}, family.inlineStage.Sites site site := ⟨rfl,Or.inl rfl⟩
  induction hi generalizing site with
  | nil => exact .nil
  | keep i _ ih =>
    rw [inForce_append] at ih
    refine .cons (i.inStep_refl _) (fun keys _ u v hj hf => ?_) (ih hp hsite)
    refine hg.enact_alikeAt hl (fun _ => trivial) hself ⟨.refl i,fun _ _ => rfl⟩ ?_ keys hj hf
    exact hg.traverse_alike hl (fun _ => trivial) hself (fun j _ => ⟨.refl j,fun _ _ => rfl⟩) []
  | @wrap _ handler o children children' _ _ _ _ ihc ih =>
    have hmates : Instruction.Mates (.wrap handler o children) (.wrap handler o children') :=
      .wrap handler o children children'
    have hchildren : Alike (inliningRun family family' first second) (· = ·)
        (site.deeper.traverse family (family.launchWith family.tree depth) [] children)
        (site.deeper.traverse family' launch' [] children') := by
      rw [Site.traverse_eq_walk, Site.traverse_eq_walk]
      exact (@ihc site.deeper hp hsite).walk_alike fun hj => hg.cascading hself hj
    rw [inForce_append] at ih
    refine .cons ⟨rfl,fun _ => rfl,rfl⟩ (fun keys _ u v hj hf => ?_) (ih hp hsite)
    rw [Site.enact_eq, Site.enact_eq]
    exact hg.surround_alikeAt hl hself ⟨hmates,fun _ _ => rfl⟩ hchildren hj hf
  | @step before q tree handler o o' program _ _ hq ht hr hs hprogram _ ih =>
    subst hp
    rw [inForce_append] at ih
    refine .cons ⟨rfl,nofun,rfl⟩ (fun keys hkeys u v hj hf => ?_) (ih rfl hsite)
    rw [hkeys rfl]
    exact hq.enact_alikeAt h ht hsite hr hs hprogram hnested hj

theorem inliningRun_tree (q : ι) : Alike (inliningRun family family' first second)
    (Tree.Inlines family q) (family.tree q) (family'.tree q) := by
  intro u v hj
  rcases h.compile q with ⟨tree,tree',hc,hc',ht⟩ | ⟨f,hc,hc'⟩
  · obtain ⟨forest,d,hx,hforest,hd⟩ := Family.tree_of_compile hc hj.2.1
    obtain ⟨forest',e,hy,hforest',he⟩ := Family.tree_of_compile hc' hj.2.2
    have hsilent : Event.SameActs family d e :=
      .of_silent (fun a h => Family.isAct_of_mem_declaring rfl a (hd a h))
        fun a h => Family.isAct_of_mem_declaring rfl a (he a h)
    exact Exec.alikeAt_of_eq hx hy (.ok ht ⟨hsilent,⟨hj.1,hforest,hforest'⟩,id⟩)
  · exact Exec.alikeAt_of_eq (Family.tree_of_flawed hc hj.2.1) (Family.tree_of_flawed hc' hj.2.2)
      (.halted ⟨⟨.of_silent (Family.isAct_of_mem_declaring rfl) (Family.isAct_of_mem_declaring rfl),
        hj,id⟩,fun _ _ => trivial⟩)

end

/-- Depths that two runs are allowed: a run with one of zero is too deep, and a nested pipeline
takes a depth of the first run only. -/
structure Depths (first second : Prop) (allowed : Nat → Nat → Prop) : Prop where
  tiresFirst {depth' : Nat} : allowed 0 (depth' + 1) → first
  tiresSecond {depth : Nat} : allowed (depth + 1) 0 → second
  run {depth depth' : Nat} : allowed (depth + 1) (depth' + 1) → allowed depth depth'
  nested {depth depth' : Nat} : allowed (depth + 1) (depth' + 1) →
    depth = 0 ∧ first ∨ ∃ d, depth = d + 1 ∧ allowed d depth'

theorem Depths.le : Depths True False (· ≤ ·) where
  tiresFirst _ := trivial
  tiresSecond hle := absurd hle (Nat.not_succ_le_zero _)
  run := Nat.le_of_succ_le_succ
  nested {depth _} hle := by
    cases depth with
    | zero => exact Or.inl ⟨rfl,trivial⟩
    | succ d => exact Or.inr ⟨d,rfl,by omega⟩

theorem Depths.double : Depths False True fun depth depth' => 2 * depth' ≤ depth where
  tiresFirst hle := by omega
  tiresSecond _ := trivial
  run hle := by omega
  nested {depth depth'} hle := Or.inr ⟨depth - 1,by omega,by omega⟩

theorem inliningRun_launch (h : family.Inlines family') {allowed : Nat → Nat → Prop}
    (hd : Depths first second allowed) (depth : Nat) : ∀ depth', allowed depth depth' →
      (family.launchWith family.tree depth).Alike (inliningRun family family' first second)
        (family'.launchWith family'.tree depth') := by
  induction depth using Nat.strongRecOn with
  | ind depth ih =>
    intro depth' hallowed
    match depth, depth' with
    | 0, 0 => exact ⟨fun _ _ => Exec.alike_tooDeep,fun _ _ _ => Exec.alike_tooDeep⟩
    | 0, depth' + 1 => exact ⟨fun _ _ _ _ _ => .first (hd.tiresFirst hallowed),
        fun _ _ _ _ _ _ => .first (hd.tiresFirst hallowed)⟩
    | depth + 1, 0 => exact ⟨fun _ _ _ _ _ => .second (hd.tiresSecond hallowed),
        fun _ _ _ _ _ _ => .second (hd.tiresSecond hallowed)⟩
    | depth + 1, depth' + 1 =>
      have hg : (inliningRun family family' first second).Governs family family' :=
        inliningRun_governs h
      have hl := ih depth (Nat.lt_succ_self depth) depth' (hd.run hallowed)
      have hnested : depth = 0 ∧ first ∨ ∃ d, depth = d + 1 ∧
          (family.launchWith family.tree d).Alike (inliningRun family family' first second)
            (family'.launchWith family'.tree depth') :=
        (hd.nested hallowed).imp_right fun ⟨d,hdepth,ha⟩ =>
          ⟨d,hdepth,ih d (by omega) depth' ha⟩
      have hrun : ∀ q level, Alike (inliningRun family family' first second) (· = ·)
          (family.runWith (family.launchWith family.tree depth) family.tree q level)
          (family'.runWith (family'.launchWith family'.tree depth') family'.tree q level) := by
        intro q level
        have hstart : Alike (inliningRun family family' first second) (Tree.Inlines family q)
            (Family.start family.tree q level) (Family.start family'.tree q level) :=
          Family.start_alike (inliningRun_tree h q) fun hj => ⟨.silent rfl rfl,hj,id⟩
        refine hstart.bind fun {t t'} ht => hg.round_alike hl q level ?_
        rw [← ht.settings, Site.traverse_eq_walk, Site.traverse_eq_walk]
        refine (ht.roots.aligned h rfl ht.container hl hnested).walk_alike fun hj => ?_
        exact hg.cascading ⟨rfl,Or.inl rfl⟩ hj
      rw [family.launchWith_succ, family'.launchWith_succ]
      exact ⟨hrun,hg.invokeBy_alike hl hrun⟩

/-! ## Requests -/

/-- Both come to the same result in the same state, by the same acts. -/
structure Outcome.SameButInlined (family : Family ι) (out out' : Outcome ι Value) : Prop where
  result : out.result = out'.result
  state : out.world.state = out'.world.state
  acts : Event.SameActs family out.events out'.events

theorem Request.exec_alike (h : family.Inlines family') {allowed : Nat → Nat → Prop}
    (hd : Depths first second allowed) {depth depth' : Nat} (ha : allowed depth depth')
    (r : Request ι) {u v : World ι} (hj : (inlining family family').Joined u v) :
    (r.exec family depth u).SameButInlined family (r.exec family' depth' v) ∨
      first ∧ (r.exec family depth u).result = .error .tooDeep ∨
      second ∧ (r.exec family' depth' v).result = .error .tooDeep := by
  have hstart : (inlining family family').Joined { u with state := r.start u.state }
      { v with state := r.start v.state } := ⟨congrArg r.start hj.1,hj.2⟩
  have hexec := r.execBy_alike (inliningRun_launch h hd depth depth' ha) hstart
  rw [r.exec_eq, r.exec_eq]
  generalize r.execBy (family.launchWith family.tree depth) u = out at hexec ⊢
  generalize r.execBy (family'.launchWith family'.tree depth') v = out' at hexec ⊢
  cases hexec with
  | ok hab hh =>
    cases hab
    exact Or.inl ⟨rfl,hh.2.1.1,hh.1⟩
  | halted hh => exact Or.inl ⟨rfl,hh.1.2.1.1,hh.1.1⟩
  | first ht => exact Or.inr (Or.inl ⟨ht,rfl⟩)
  | second ht => exact Or.inr (Or.inr ⟨ht,rfl⟩)

/-- Steps that nest a pipeline may be replaced by wraps around its declarations. From the same
state, whatever trees are kept, every request comes to the same result or fault in the same state,
and the same instructions are executed in the same order on the same levels. If the nested run is
not too deep, the other one needs no more depth; if the other one is not, twice its depth is enough
for the nested one. -/
theorem Request.exec_inlined {family family' : Family ι} (h : family.Inlines family')
    (r : Request ι) (u v : World ι) (hs : u.state = v.state) (hu : u.forest.Faithful family)
    (hv : v.forest.Faithful family') (depth depth' : Nat) :
    (depth ≤ depth' → (r.exec family depth u).result ≠ .error .tooDeep →
      (r.exec family depth u).SameButInlined family (r.exec family' depth' v)) ∧
    (2 * depth' ≤ depth → (r.exec family' depth' v).result ≠ .error .tooDeep →
      (r.exec family depth u).SameButInlined family (r.exec family' depth' v)) := by
  constructor
  · intro hle hn
    rcases r.exec_alike h .le hle ⟨hs,hu,hv⟩ with hsame | ⟨_,ht⟩ | ⟨hf,_⟩
    · exact hsame
    · exact absurd ht hn
    · exact hf.elim
  · intro hle hn
    rcases r.exec_alike h .double hle ⟨hs,hu,hv⟩ with hsame | ⟨hf,_⟩ | ⟨_,ht⟩
    · exact hsame
    · exact hf.elim
    · exact absurd ht hn

/-- Runs its continuation and gives back what it gives. -/
def through : Handler (Fin 2) := .around (.call .next fun v => .done v)

def cleaning : List (Declaration (Fin 2)) :=
  [.step (.function (.change (.set "dirty" (.bool true)) (.done (.bool false)))) .empty,
    .failure (.function (.change (.remove "dirty") (.done (.bool true)))) .empty]

/-- The options keep the step from failing the state, and have the key that is required. -/
def lenient : Options := .ofList [("mode", .bool true), ("fail", .bool false)]

/-- A pipeline that nests another one, in a wrap and after a gate on options. -/
def cleaners (nested : Declaration (Fin 2)) : Family (Fin 2)
  | 0 => { name := "house", declarations :=
      [.wrap through .empty [.dependsOn .options ["mode"], nested, .step (.pipeline 1) lenient]] }
  | 1 => { name := "room", declarations := cleaning }

theorem cleaners_inlines : (cleaners (.step (.pipeline 1) lenient)).Inlines
    (cleaners (.wrap through .empty (Declaration.plainOf cleaning))) where
  name q := by
    match q with
    | 0 | 1 => rfl
  entry q := by
    match q with
    | 0 | 1 => rfl
  around q := by
    match q with
    | 0 | 1 => rfl
  declarations q := by
    have hq : (cleaners (.step (.pipeline 1) lenient)).Inlinable 0 1 :=
      ⟨rfl,⟨_,rfl⟩,Or.inl rfl⟩
    match q with
    | 0 =>
      refine .wrap (.keep _ (.step hq (by decide +kernel) (.around _) (fun _ => trivial) ?_)) .nil
      exact .keep _ .nil
    | 1 => exact .keep _ (.keep _ .nil)

theorem Request.exec_inlined_cleaners :
    let nested := cleaners (.step (.pipeline 1) lenient)
    let inlined := cleaners (.wrap through .empty (Declaration.plainOf cleaning))
    let request : Request (Fin 2) := .run 0 0
    let executed := fun out : Outcome (Fin 2) Value => out.events.filterMap fun
      | .executing _ level i _ => some (level, i.kind)
      | _ => none
    executed (request.exec nested 2 {}) = [(0, "wrap"), (1, "depend"), (1, "step"), (2, "step"),
      (2, "failure")] ∧
    nested.Inlines inlined ∧
    (request.exec nested 2 {}).SameButInlined nested (request.exec inlined 2 {}) ∧
    (request.exec nested 4 {}).SameButInlined nested (request.exec inlined 2 {}) := by
  intro nested inlined request executed
  have hdeep : ∀ {out : Outcome (Fin 2) Value}, out.result.isOk = true →
      out.result ≠ .error .tooDeep := by
    intro out hout he
    rw [he] at hout
    cases hout
  have h := request.exec_inlined cleaners_inlines {} {} rfl Forest.faithful_nil Forest.faithful_nil
  exact ⟨by decide +kernel,cleaners_inlines,(h 2 2).1 (Nat.le_refl 2) (hdeep (by decide +kernel)),
    (h 4 2).2 (Nat.le_refl 4) (hdeep (by decide +kernel))⟩

end Cascade
