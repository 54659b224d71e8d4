import Cascade.Proofs.Session
import Cascade.Proofs.FailedMark
import Cascade.Proofs.Container.Redirected

/-! # Looking names up is dispatching directly

Handlers that are given by name may be replaced by the pipelines that the names stand for in the
container of the pipeline that declares them: where they are declared if that is settled then, else
when they are reached. Every session goes on as before; only the names of handlers are told
differently.
-/
namespace Cascade

open Exec (Alike AlikeAt)

variable {ι : Type}

/-! ## What may differ -/

/-- The same event, but for the handlers of its instruction and for the name in a record. -/
inductive Event.SameButHandlers : Event ι → Event ι → Prop where
  | refl (e : Event ι) : SameButHandlers e e
  | executing {q : ι} {level : Level} {i i' : Instruction ι} {s : State} (h : i.Akin i') :
    SameButHandlers (.executing q level i s) (.executing q level i' s)
  | returned {q : ι} {level : Level} {i i' : Instruction ι} {result : Json.Value} (h : i.Akin i') :
    SameButHandlers (.returned q level i result) (.returned q level i' result)
  | logged {logger : Trace.Logger} {r r' : Trace.Record}
    (h : { r with handler := r'.handler } = r') :
    SameButHandlers (.logged logger r) (.logged logger r')

inductive Answer.SameButHandlers : Answer ι → Answer ι → Prop where
  | tree {t t' : Tree ι} (h : t.Redirects t') : SameButHandlers (.tree t) (.tree t')
  | value (v : Json.Value) : SameButHandlers (.value v) (.value v)

/-- Two turns come to the same results, faults and states, and tell the same but for handlers. -/
structure Outcome.SameButHandlers (out out' : Outcome ι (Answer ι)) : Prop where
  result : (∃ a b, Answer.SameButHandlers a b ∧ out.result = .ok a ∧ out'.result = .ok b) ∨
    ∃ halt, out.result = .error halt ∧ out'.result = .error halt
  state : out.world.state = out'.world.state
  events : List.Forall₂ Event.SameButHandlers out.events out'.events

theorem Event.forall₂_sameButHandlers (d : List (Event ι)) :
    List.Forall₂ Event.SameButHandlers d d := List.forall₂_same.2 fun e _ => .refl e

/-- The record of an instruction differs in the name of the handler at most. -/
theorem Site.forall₂_announcement {family family' : Family ι} (site : Site ι)
    {i i' : Instruction ι} (h : i.Akin i') (s : State) : List.Forall₂ Event.SameButHandlers
      (site.announcement family i s) (site.announcement family' i' s) := by
  have hrecord : ({ site.record family i s with handler := (site.record family' i' s).handler } :
      Trace.Record) = site.record family' i' s := by
    unfold Site.record
    rw [h.kind, h.options]
  refine .cons (.executing h) ?_
  cases site.settings.debug with
  | true => exact .cons (.logged hrecord) .nil
  | false => exact .nil

/-! ## Runs -/

variable [DecidableEq ι]

/-- What two runs do is the same but for handlers, and both keep the trees of the same pipelines. -/
def redirecting (family family' : Family ι) : Comparison ι where
  Joined u v := u.state = v.state ∧ u.forest.Faithful family ∧ v.forest.Faithful family' ∧
    u.forest.built = v.forest.built
  Holds u _ d e u' v' := List.Forall₂ Event.SameButHandlers d e ∧
    (u'.state = v'.state ∧ u'.forest.Faithful family ∧ v'.forest.Faithful family' ∧
      u'.forest.built = v'.forest.built) ∧ (u.state.failed = true → u'.state.failed = true)
  refl h := ⟨.nil,h,id⟩
  trans h h' := ⟨List.rel_append h.1 h'.1,h'.2.1,h'.2.2 ∘ h.2.2⟩
  joined h := h.2.1
  state_eq h := h.1
  sticky h := h.2.2

def redirectingRun (family family' : Family ι) : Likeness ι :=
  (redirecting family family').likeness (.over (· = ·) fun _ => Instruction.Mates) fun _ => True

variable {family family' : Family ι}

theorem redirecting_holds {u v : World ι} {d e : List (Event ι)} {s : State}
    (hj : (redirecting family family').Joined u v) (he : List.Forall₂ Event.SameButHandlers d e)
    (hs : u.state.failed = true → s.failed = true) : (redirecting family family').Holds u v d e
      { u with state := s } { v with state := s } := ⟨he,⟨rfl,hj.2⟩,hs⟩

theorem redirectingRun_tolerant : (redirectingRun family family').Tolerant := by
  refine Comparison.tolerant (fun _ => trivial) ?_ ?_
  · intro c u v s hj hc
    exact redirecting_holds hj (Event.forall₂_sameButHandlers _) (Change.failed_of_apply hc)
  · intro f u v hj _
    rw [hj.1]
    exact ⟨Event.forall₂_sameButHandlers _,hj,id⟩

section

variable (h : family.Redirects family')
include h

theorem redirectingRun_governs : (redirectingRun family family').Governs family family' where
  toTolerant := redirectingRun_tolerant
  signature := h.signature
  entry := h.entry
  around := h.around
  entry_suits _ _ := Program.suits_of_forall (fun _ => trivial) _
  around_suits _ _ := Program.suits_of_forall (fun _ => trivial) _
  mates hi := hi
  handler_suits {_ _ i _} _ := i.handler.suits_of_forall fun _ => trivial
  fits _ := Or.inr fun _ => trivial
  container hs _ _ _ _ _ := congrArg Settings.container hs.settings
  announced {site site'} hs i i' hi u v hj _ := by
    cases hs.eq
    have hy := site.announce_eq family' i' v
    rw [← hj.1] at hy
    exact Exec.alikeAt_of_eq (site.announce_eq family i u) hy
      (.ok rfl ⟨site.forall₂_announcement hi.akin u.state,hj,id⟩)
  returned {site site'} hs i i' hi u v hj result := by
    cases hs.eq
    rw [← hj.1]
    exact redirecting_holds hj (.cons (.returned hi.akin) .nil) (i.failed_verdict_of_failed result)
  cascading {site site'} hs u v hj := by
    cases hs.eq
    exact ⟨Event.forall₂_sameButHandlers _,hj,id⟩
  entered hj _ _ := ⟨Event.forall₂_sameButHandlers _,hj,id⟩
  finished hj q level := by
    rw [hj.1]
    exact ⟨Event.forall₂_sameButHandlers _,hj,id⟩

end

/-! ## Instructions -/

section

variable (h : family.Redirects family') {launch launch' : Launch ι}
  (hl : launch.Alike (redirectingRun family family') launch') {site : Site ι}
include h hl

omit h in
/-- Both invoke the same pipeline and give its result back. -/
theorem Instruction.Akin.act_alikeAt {i i' : Instruction ι} (hk : i.Akin i')
    (hleaf : i.isStep = true ∨ i.isFailure = true) {q : ι} {u v : World ι}
    (hq : i.handler.StandsFor site.settings.container u.state q)
    (hq' : i'.handler.StandsFor site.settings.container v.state q)
    (hj : (redirecting family family').Joined u v) :
    AlikeAt (redirectingRun family family') (· = ·) (site.act family launch i)
      (site.act family' launch' i') u v := by
  have hleaf' : i'.isStep = true ∨ i'.isFailure = true := by
    rw [← hk.isStep, ← hk.isFailure]
    exact hleaf
  have hdispatch : AlikeAt (redirectingRun family family') (· = ·)
      (site.dispatch family launch i.role i.options i.handler)
      (site.dispatch family' launch' i'.role i'.options i'.handler) u v := by
    rw [← hk.options]
    exact .congr (Site.dispatch_of_standsFor hq _ _) (Site.dispatch_of_standsFor hq' _ _)
      (hl.invoke q i.options _ hj)
  rw [site.act_leaf family launch hleaf, site.act_leaf family' launch' hleaf']
  refine hdispatch.bind fun {a b u' v' _ _} hab hh => ?_
  cases hab
  have hj' := hh.2.1
  have hv := site.conclude_apply i' a v'
  rw [← hk.verdict, ← hj'.1] at hv
  refine Exec.alikeAt_of_eq (site.conclude_apply i a u') hv (.ok rfl ?_)
  exact redirecting_holds hj' (.cons (.returned hk) .nil) (i.failed_verdict_of_failed a)

/-- Two instructions of which one stands for the other invoke the same pipeline, or are the same. -/
theorem Instruction.Stands.enact_alikeAt {i i' : Instruction ι} {u v : World ι}
    (hs : i.Stands site.settings.container u.state i') (hw : i.isWrap = false)
    (required : List Key) (hj : (redirecting family family').Joined u v)
    (hf : u.state.failed = i.isFailure) : AlikeAt (redirectingRun family family') (· = ·)
      (site.enact family launch required i) (site.enact family' launch' required i') u v := by
  have hg := redirectingRun_governs h
  rcases hs with rfl | ⟨hleaf,hk,q,hq,hq'⟩
  · have hc : i.children = [] := by
      cases i with
      | wrap _ _ _ => cases hw
      | _ => rfl
    refine hg.enact_alikeAt hl (fun _ => trivial) ⟨rfl,rfl,rfl⟩ (Mates.refl i) ?_ required hj hf
    rw [hc]
    exact Exec.alike_pure rfl
  · rw [Site.enact_eq, Site.enact_eq, ← hk.lacking?, ← hk.options]
    cases i.lacking? required with
    | some k => exact hg.alike_raise trivial hj
    | none =>
      rw [hj.1] at hq'
      have hact := hk.act_alikeAt hl hleaf hq hq' hj
      have hannounced : List.Forall₂ Event.SameButHandlers (site.announcement family i u.state)
          (site.announcement family' i' u.state) := site.forall₂_announcement hk u.state
      have hy := Exec.bind_of_ok (f := fun _ => site.act family' launch' i')
        (site.announce_eq family' i' v)
      rw [← hj.1] at hy
      exact Exec.alikeAt_of_eq (Exec.bind_of_ok (site.announce_eq family i u)) hy
        (Outcome.Alike.after ⟨hannounced,hj,id⟩ hact)

theorem Instruction.Stands.performDirect_alikeAt (choice : Choice ι) {i i' : Instruction ι}
    (hs : ∀ s, i.Stands site.settings.container s i') (hw : i.isWrap = false)
    (hw' : i'.isWrap = false) (required : List Key) {u v : World ι}
    (hj : (redirecting family family').Joined u v) (hf : u.state.failed = i.isFailure) :
    AlikeAt (redirectingRun family family') (· = ·) (site.enact family launch required i)
      (site.performDirect family' choice launch' required i') u v := by
  rw [Site.performDirect_of_not_isWrap family' choice launch' hw']
  have hdirect : site.enactDirect family' choice launch' required i' v =
      site.enact family' launch' required (if choice site v.state i' then
        i'.direct site.settings.container v.state else i') v :=
    Exec.bind_of_ok (Exec.state_apply v)
  refine .congr rfl hdirect ?_
  rw [← hj.1]
  split
  · exact (hs u.state).direct.enact_alikeAt h hl hw required hj hf
  · exact (hs u.state).enact_alikeAt h hl hw required hj hf

omit site in
/-- Levels of which one has names replaced are alike, whatever is replaced later, when reached. -/
theorem Instruction.Redirects.aligned (choice : Choice ι) {container : Option (Registry ι)}
    {is is' : List (Instruction ι)} (hr : Instruction.Redirects container is is') {site : Site ι}
    (hsite : site.settings.container = container) (required : List Key) :
    Aligned (redirectingRun family family') (site.enact family launch)
      (site.performDirect family' choice launch') required is is' := by
  have hleaf : ∀ {site : Site ι} {required : List Key} {i i' : Instruction ι}
      {is is' : List (Instruction ι)}, site.settings.container = container → i.Akin i' →
      (∀ s, i.Stands container s i') → i.isWrap = false → i'.isWrap = false →
      Aligned (redirectingRun family family') (site.enact family launch)
        (site.performDirect family' choice launch') (i.requiredAfter required) is is' →
      Aligned (redirectingRun family family') (site.enact family launch)
        (site.performDirect family' choice launch') required (i :: is) (i' :: is') := by
    rintro site required i i' is is' rfl hk hs hw hw' hrest
    refine .cons (hk.inStep required) (fun keys _ u v hj hf => ?_) hrest
    exact Stands.performDirect_alikeAt h hl choice hs hw hw' keys hj hf
  induction hr generalizing site required with
  | nil => exact .nil
  | keep hi _ ih => exact hleaf hsite ⟨rfl,rfl,rfl⟩ (fun _ => Or.inl rfl) hi hi (ih hsite _)
  | @step q handler handler' o _ _ hq hq' _ ih =>
    have hk : Akin (.step handler o) (.step handler' o) := ⟨rfl,rfl,rfl⟩
    exact hleaf hsite hk (fun s => Or.inr ⟨Or.inl rfl,hk,q,hq s,hq' s⟩) rfl rfl (ih hsite _)
  | @failure q handler handler' o _ _ hq hq' _ ih =>
    have hk : Akin (.failure handler o) (.failure handler' o) := ⟨rfl,rfl,rfl⟩
    exact hleaf hsite hk (fun s => Or.inr ⟨Or.inr rfl,hk,q,hq s,hq' s⟩) rfl rfl (ih hsite _)
  | @wrap handler o children children' _ _ _ _ ihc ih =>
    have hg := redirectingRun_governs h
    have hchildren : Exec.Alike (redirectingRun family family') (· = ·)
        (site.deeper.traverse family launch [] children)
        (site.deeper.traverseDirect family' choice launch' [] children') := by
      rw [Site.traverse_eq_walk, Site.traverseDirect_eq_walk]
      exact (@ihc site.deeper hsite []).walk_alike fun hj => hg.cascading ⟨rfl,rfl,rfl⟩ hj
    have hmates : Instruction.Mates (.wrap handler o children) (.wrap handler o children') :=
      .wrap handler o children children'
    refine .cons (hmates.akin.inStep required) (fun keys _ u v hj hf => ?_) (ih hsite _)
    rw [Site.enact_eq, Site.performDirect]
    exact hg.surround_alikeAt hl ⟨rfl,rfl,rfl⟩ hmates hchildren hj hf

end

/-! ## Sessions -/

section

variable (h : family.Redirects family')
include h

theorem redirectingRun_tree (q : ι) :
    Alike (redirectingRun family family') Tree.Redirects (family.tree q) (family'.tree q) := by
  intro u v hj
  have hbuilt := hj.2.2.2
  rcases h.compile q with ⟨tree,tree',hc,hc',ht⟩ | ⟨f,hc,hc'⟩
  · by_cases hu : q ∈ u.forest.built
    · have hv : q ∈ v.forest.built := hbuilt ▸ hu
      exact Exec.alikeAt_of_eq (Family.tree_of_built hc hj.2.1 hu)
        (Family.tree_of_built hc' hj.2.2.1 hv) (.ok ht ⟨.nil,hj,id⟩)
    · have hv : q ∉ v.forest.built := hbuilt ▸ hu
      have hy := Family.tree_of_not_built hc' hv
      rw [← h.declaring] at hy
      refine Exec.alikeAt_of_eq (Family.tree_of_not_built hc hu) hy
        (.ok ht ⟨Event.forall₂_sameButHandlers _,⟨hj.1,hj.2.1.cons hc,hj.2.2.1.cons hc',?_⟩,id⟩)
      exact congrArg (q :: ·) hbuilt
  · have hy := Family.tree_of_flawed hc' hj.2.2.1
    rw [← h.declaring, ← hj.1] at hy
    exact Exec.alikeAt_of_eq (Family.tree_of_flawed hc hj.2.1) hy
      (.halted ⟨⟨Event.forall₂_sameButHandlers _,hj,id⟩,fun _ _ => trivial⟩)

theorem redirectingRun_launch (choice : Choice ι) (depth : Nat) :
    (family.launchWith family.tree depth).Alike (redirectingRun family family')
      (family'.launchDirect choice family'.tree depth) := by
  have hg := redirectingRun_governs h
  rw [family.launchWith_eq]
  refine hg.launchBy_alike (fun {launch launch'} hl q level => ?_) depth
  have hstart : Alike (redirectingRun family family') Tree.Redirects
      (Family.start family.tree q level) (Family.start family'.tree q level) :=
    Family.start_alike (redirectingRun_tree h q)
      fun hj => ⟨Event.forall₂_sameButHandlers _,hj,id⟩
  refine hstart.bind fun {t t'} ht => hg.round_alike hl q level ?_
  rw [← ht.settings, Site.traverse_eq_walk, Site.traverseDirect_eq_walk]
  exact (ht.roots.aligned h hl choice rfl []).walk_alike fun hj => hg.cascading ⟨rfl,rfl,rfl⟩ hj

theorem Turn.execBy_redirects (choice : Choice ι) (depth : Nat) (t : Turn ι) {u v : World ι}
    (hj : (redirecting family family').Joined u v) :
    Outcome.SameButHandlers (t.execBy (family.launchWith family.tree depth) family.tree u)
        (t.execBy (family'.launchDirect choice family'.tree depth) family'.tree v) ∧
      (redirecting family family').Joined
        (t.execBy (family.launchWith family.tree depth) family.tree u).world
        (t.execBy (family'.launchDirect choice family'.tree depth) family'.tree v).world := by
  have hsame : ∀ {out out' : Outcome ι (Answer ι)} {u v : World ι},
      out.Alike (redirectingRun family family') Answer.SameButHandlers u v out' →
      out.SameButHandlers out' ∧ (redirecting family family').Joined out.world out'.world := by
    intro out out' u v ho
    refine ⟨⟨ho.result.imp_right ?_,ho.holds.2.1.1,ho.holds.1⟩,ho.holds.2.1⟩
    rintro ⟨halt,hout,hout',_⟩
    exact ⟨halt,hout,hout'⟩
  cases t with
  | tree q =>
    exact hsame ((redirectingRun_tree h q).bind
      (fun ht => Exec.alike_pure (Answer.SameButHandlers.tree ht)) hj)
  | request prepare r =>
    have hl := redirectingRun_launch h choice depth
    exact hsame (Turn.request_alike hl (fun _ hj => ⟨rfl,hj.2⟩) prepare r .value hj)

end

/-- Names may be replaced by what they stand for, where they are declared or when they are reached:
no session comes to anything else. What a name stands for is settled by the last container that its
pipeline declares and the last registration there, and it is looked up when it is dispatched. -/
theorem session_direct {family family' : Family ι} (h : family.Redirects family')
    (choice : Choice ι) (depth : Nat) (turns : List (Turn ι)) (s : State) :
    List.Forall₂ Outcome.SameButHandlers (session family depth turns { state := s })
      (session family' depth turns { state := s }) ∧
    List.Forall₂ Outcome.SameButHandlers (session family depth turns { state := s })
      (sessionBy (family'.launchDirect choice family'.tree depth) family'.tree turns
        { state := s }) ∧
    (∀ q tree, family.compile q = .ok tree → tree.settings.container =
      ((Declaration.documentOf (family q).declarations).filterMap
        Declaration.container?).getLast?) ∧
    (∀ (registry : Registry ι) name registration k,
      (registry.register name registration).resolve? k =
        if name = k then some registration else registry.resolve? k) ∧
    ∀ (site : Site ι) launch required i entry w, i.handler = .named entry →
      i.isStep = true ∨ i.isFailure = true → site.LooksUp family launch required i entry w := by
  have hj : (redirecting family family').Joined { state := s } { state := s } :=
    ⟨rfl,Forest.faithful_nil,Forest.faithful_nil,rfl⟩
  have hdirect : ∀ choice, List.Forall₂ Outcome.SameButHandlers
      (session family depth turns { state := s })
      (sessionBy (family'.launchDirect choice family'.tree depth) family'.tree turns
        { state := s }) := by
    intro choice
    rw [session_eq]
    exact sessionBy_rel (fun t u v hj => t.execBy_redirects h choice depth hj) turns hj
  refine ⟨?_,hdirect choice,?_,?_,?_⟩
  · rw [session_eq family', ← family'.launchDirect_never]
    exact hdirect fun _ _ _ => false
  · intro q tree hc
    obtain ⟨_,rfl⟩ := (family.compile_eq_ok_iff q).1 hc
    exact Declaration.container_settingsOf _
  · intro registry name registration k
    exact registry.resolve?_register name k registration
  · intro site launch required i entry w hn hi
    exact site.looksUp family launch required hn hi w

/-- A name for a pipeline, and one for a choice between two by the state. -/
def notices : Registry (Fin 3) :=
  (Registry.empty.register "receipt" (.pipeline 1)).register "notice" (.byFlag "paid" 1 2)

def marks (key : String) : Declaration (Fin 3) :=
  .step (.function (.change (.set key (.bool true)) (.done (.bool true)))) .empty

/-- An order gives a receipt and then, as it is paid, another one for a notice. -/
def orders (receipt : Handler (Fin 3)) : Family (Fin 3)
  | 0 => { name := "order", declarations :=
      [.container notices, .step receipt .empty, .step (.named "notice") .empty] }
  | 1 => { name := "receipt", declarations := [marks "paid"] }
  | 2 => { name := "reminder", declarations := [marks "reminded"] }

theorem orders_redirects : (orders (.named "receipt")).Redirects (orders (.pipeline 1)) where
  name q := by
    match q with
    | 0 | 1 | 2 => rfl
  entry q := by
    match q with
    | 0 | 1 | 2 => rfl
  around q := by
    match q with
    | 0 | 1 | 2 => rfl
  declarations q := by
    have hr : notices.resolve? "receipt" = some (.pipeline 1) := by simp [notices]
    match q with
    | 0 => exact .keep _ (.step rfl hr (.keep _ .nil))
    | 1 | 2 => exact .keep _ .nil

theorem session_direct_orders :
    let turns : List (Turn (Fin 3)) := [.request id (.run 0 0)]
    let executed := fun out : Outcome (Fin 3) (Answer (Fin 3)) => out.events.filterMap fun
      | .executing q level _ _ => some (q, level)
      | _ => none
    (session (orders (.named "receipt")) 2 turns {}).map executed =
      [[(0, 0), (1, 1), (0, 0), (1, 1)]] ∧
    (orders (.named "receipt")).Redirects (orders (.pipeline 1)) ∧
    List.Forall₂ Outcome.SameButHandlers (session (orders (.named "receipt")) 2 turns {})
      (session (orders (.pipeline 1)) 2 turns {}) := by
  intro turns executed
  have h := session_direct orders_redirects (fun _ _ _ => true) 2 turns .empty
  exact ⟨by decide +kernel,orders_redirects,h.1⟩

end Cascade
