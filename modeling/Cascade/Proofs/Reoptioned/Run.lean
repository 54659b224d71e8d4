import Cascade.Proofs.Request
import Cascade.Proofs.FailedMark
import Cascade.Proofs.Gates.Level
import Cascade.Proofs.Reoptioned.Declared

/-! # Options do not shield from a nested pipeline

A step that nests a pipeline gives back whether the state is still successful, and the state is the
one that the nested run has left. So the options of the step have no say in it: a nested run that
fails the state fails the level of the step, also if the options tell the step not to fail.
-/
namespace Cascade

open Json (Value)
open Exec (Alike AlikeAt)

variable {ι : Type} [DecidableEq ι] {family family' : Family ι}

/-! ## One step -/

/-- The state is not failed anew when the result is given back. -/
theorem Site.act_nested {site : Site ι} {i : Instruction ι} {q : ι} {w : World ι}
    (hi : i.isStep = true ∨ i.isFailure = true)
    (hq : i.handler.StandsFor site.settings.container w.state q) (he : (family q).entry = none)
    (depth : Nat) : site.act family (family.launchWith family.tree (depth + 1)) i w =
      (family.run (depth + 1) q (site.level + 1) >>= fun _ => Exec.state >>= fun s =>
        Exec.emit (.returned site.pipeline site.level i (.bool s.successful))) w := by
  have hconclude : ∀ v : World ι,
      (Exec.state >>= fun s => site.conclude i (.bool s.successful) : Exec ι Unit) v =
        (Exec.state >>= fun s =>
          Exec.emit (.returned site.pipeline site.level i (.bool s.successful))) v := by
    intro v
    have hv := site.conclude_apply i (.bool v.state.successful) v
    rw [i.verdict_successful] at hv
    rw [Exec.bind_of_ok (Exec.state_apply v), Exec.bind_of_ok (Exec.state_apply v), hv]
    rfl
  rw [act_delegated hi hq he depth]
  rw [Exec.bind_apply, Exec.bind_apply]
  simp only [hconclude]

/-- What a level makes of a step whose nested run has failed the state: the step gives back `false`,
and nothing but failure handlers of what is left is executed from there on. -/
theorem Site.Arrives.traverse_nested {site : Site ι} {depth : Nat} {required keys : List Key}
    {before : List (Instruction ι)} {w v u : World ι} {d e : List (Event ι)} {h : Handler ι}
    {o : Options} {q : ι} (ha : site.Arrives family (family.launchWith family.tree (depth + 1))
      required before w keys v d)
    (hq : h.StandsFor site.settings.container v.state q) (he : (family q).entry = none)
    (ho : o.lacking? keys = none)
    (hrun : family.run (depth + 1) q (site.level + 1) v = ⟨.ok (), u, e⟩)
    (hu : u.state.failed = true) (after : List (Instruction ι)) :
    site.traverse family (family.launchWith family.tree (depth + 1)) required
        (before ++ .step h o :: after) w =
      (site.traverse family (family.launchWith family.tree (depth + 1)) keys after u).prepend
        (d ++ site.announcement family (.step h o) v.state ++ e ++
          [.returned site.pipeline site.level (.step h o) (.bool false)]) := by
  have hresult : u.state.successful = false := by
    rw [State.successful, hu]
    rfl
  have henact : site.enact family (family.launchWith family.tree (depth + 1)) keys (.step h o) v =
      ⟨.ok (), u, site.announcement family (.step h o) v.state ++
        (e ++ [.returned site.pipeline site.level (.step h o) (.bool false)])⟩ := by
    have hmet : (Instruction.step h o).lacking? keys = none := ho
    rw [enact_of_not_lacking hmet, act_nested (Or.inl rfl) hq he, Exec.bind_of_ok hrun,
      Exec.bind_of_ok (Exec.state_apply u), hresult]
    rfl
  rw [ha.traverse, traverse_eq_walk, walk_cons, ha.not_failed, if_neg (by simp)]
  have hkind : (Instruction.step h o).isFailure = false := rfl
  rw [hkind, if_neg (by simp), Exec.bind_of_ok henact, ← traverse_eq_walk]
  simp only [Outcome.prepend, List.append_assoc]
  rfl

/-- How a level goes on once the nested run of a step has failed the state. -/
structure Site.Unshielded (family : Family ι) (launch : Launch ι) (site : Site ι)
    (required keys : List Key) (before : List (Instruction ι)) (i : Instruction ι) (w u : World ι)
    (told : List (Event ι)) : Prop where
  last : site.traverse family launch required (before ++ [i]) w = ⟨.ok (), u, told⟩
  cascades (j : Instruction ι) (after : List (Instruction ι)) :
    site.traverse family launch required (before ++ i :: j :: after) w =
      ((Exec.emit (.cascading site.pipeline site.level) >>= fun _ =>
        (Instruction.cascade (j :: after)).forM (site.enact family launch keys)) u).prepend told
  failed (after : List (Instruction ι)) :
    (site.traverse family launch required (before ++ i :: after) w).world.state.failed = true

/-! ## The likeness -/

/-- Both worlds are in the same state, and each keeps the trees of its family. -/
structure World.Beside (family family' : Family ι) (u v : World ι) : Prop where
  state : u.state = v.state
  faithful : u.forest.Faithful family
  faithful' : v.forest.Faithful family'

def reoptioning (family family' : Family ι) : Comparison ι where
  Joined := World.Beside family family'
  Holds u _ _ _ u' v' :=
    World.Beside family family' u' v' ∧ (u.state.failed = true → u'.state.failed = true)
  refl h := ⟨h,fun hu => hu⟩
  trans h h' := ⟨h'.1,fun hu => h'.2 (h.2 hu)⟩
  joined h := h.1
  state_eq h := h.state
  sticky h := h.2

def reoptioningRun (family family' : Family ι) : Likeness ι :=
  (reoptioning family family').likeness (.over (· = ·) fun _ => Instruction.Mates) fun _ => True

theorem reoptioning_holds {u v : World ι} {d e : List (Event ι)} {s : State}
    (hj : World.Beside family family' u v) (hs : u.state.failed = true → s.failed = true) :
    (reoptioning family family').Holds u v d e { u with state := s } { v with state := s } :=
  ⟨⟨rfl,hj.faithful,hj.faithful'⟩,hs⟩

theorem reoptioningRun_tolerant : (reoptioningRun family family').Tolerant := by
  refine Comparison.tolerant (fun _ => trivial) ?_ ?_
  · intro c u v s hj hc
    exact reoptioning_holds hj (Change.failed_of_apply hc)
  · intro f u v hj _
    exact ⟨hj,id⟩

section

variable (h : family.Reoptions family')
include h

theorem reoptioningRun_governs : (reoptioningRun family family').Governs family family' where
  toTolerant := reoptioningRun_tolerant
  signature := h.signature
  entry := h.entry
  around := h.around
  entry_suits _ _ := Program.suits_of_forall (fun _ => trivial) _
  around_suits _ _ := Program.suits_of_forall (fun _ => trivial) _
  mates hi := hi
  handler_suits {_ _ i _} _ := i.handler.suits_of_forall fun _ => trivial
  fits _ := Or.inr fun _ => trivial
  container hs _ _ _ _ _ := congrArg Settings.container hs.settings
  announced {site site'} _ i i' _ u v hj _ :=
    Exec.alikeAt_of_eq (site.announce_eq family i u) (site'.announce_eq family' i' v)
      (.ok rfl ⟨hj,id⟩)
  returned _ i _ _ u _ hj result := by
    rw [← hj.state]
    exact reoptioning_holds hj (i.failed_verdict_of_failed result)
  cascading _ _ _ hj := ⟨hj,id⟩
  entered hj _ _ := ⟨hj,id⟩
  finished hj _ _ := ⟨hj,id⟩

/-! ## Levels and runs -/

variable {depth : Nat} (hl : (family.launchWith family.tree depth).Alike
  (reoptioningRun family family') (family'.launchWith family'.tree depth))
include hl

/-- Whatever the options are, both steps run the same pipeline and leave what it has left. -/
theorem Handler.Nests.act_alikeAt {site : Site ι} {handler : Handler ι}
    (hn : handler.Nests family site.settings.container) (o o' : Options) {u v : World ι}
    (hj : World.Beside family family' u v) :
    AlikeAt (reoptioningRun family family') (· = ·)
      (site.act family (family.launchWith family.tree depth) (.step handler o))
      (site.act family' (family'.launchWith family'.tree depth) (.step handler o')) u v := by
  obtain ⟨q,hq,he⟩ := hn u.state
  have hq' : handler.StandsFor site.settings.container v.state q := hj.state ▸ hq
  have he' : (family' q).entry = none := (h.entry q).symm.trans he
  cases depth with
  | zero =>
    -- Neither run may start another one, so both steps are halted.
    have hhalted : ∀ {f : Family ι} {o : Options} {w : World ι},
        handler.StandsFor site.settings.container w.state q →
        site.act f (f.launchWith f.tree 0) (.step handler o) w = ⟨.error .tooDeep, w, []⟩ := by
      intro f o w hw
      refine Exec.bind_of_error ?_
      exact Site.dispatch_of_standsFor hw .step o
    exact Exec.alikeAt_of_eq (hhalted hq) (hhalted hq') (.halted ⟨⟨hj,id⟩,fun _ _ => trivial⟩)
  | succ depth =>
    refine .congr (Site.act_nested (Or.inl rfl) hq he depth)
      (Site.act_nested (Or.inl rfl) hq' he' depth) ?_
    have hrun : Alike (reoptioningRun family family') (· = ·)
        (family.run (depth + 1) q (site.level + 1))
        (family'.run (depth + 1) q (site.level + 1)) := hl.run q (site.level + 1)
    refine hrun.bind (fun _ => Exec.alike_state.bind fun {s t} hs => ?_) hj
    cases hs
    exact fun _ _ hj => Exec.alikeAt_emit ⟨hj,id⟩

/-- Levels of which one has steps with other options are alike. -/
theorem Instruction.Reoptions.aligned {container : Option (Registry ι)} {required : List Key}
    {is is' : List (Instruction ι)} (hi : Instruction.Reoptions family container required is is')
    {site : Site ι} (hsite : site.settings.container = container) :
    Aligned (reoptioningRun family family')
      (site.enact family (family.launchWith family.tree depth))
      (site.enact family' (family'.launchWith family'.tree depth)) required is is' := by
  have hg := reoptioningRun_governs h
  have hself : ∀ {site : Site ι}, (reoptioningRun family family').Sites site site := ⟨rfl,rfl,rfl⟩
  induction hi generalizing site with
  | nil => exact .nil
  | keep i _ ih =>
    refine .cons (i.inStep_refl _) (fun keys _ u v hj hf => ?_) (ih hsite)
    refine hg.enact_alikeAt hl (fun _ => trivial) hself (Mates.refl i) ?_ keys hj hf
    exact hg.traverse_alike hl (fun _ => trivial) hself (fun j _ => Mates.refl j) []
  | @wrap _ handler o children children' _ _ _ _ ihc ih =>
    have hchildren : Alike (reoptioningRun family family') (· = ·)
        (site.deeper.traverse family (family.launchWith family.tree depth) [] children)
        (site.deeper.traverse family' (family'.launchWith family'.tree depth) [] children') := by
      rw [Site.traverse_eq_walk, Site.traverse_eq_walk]
      exact (@ihc site.deeper hsite).walk_alike fun hj => hg.cascading hself hj
    refine .cons ⟨rfl,nofun,rfl⟩ (fun keys _ u v hj hf => ?_) (ih hsite)
    rw [Site.enact_eq, Site.enact_eq]
    exact hg.surround_alikeAt hl hself (Mates.wrap handler o children children') hchildren hj hf
  | @step _ handler o o' _ _ hn ho ho' _ ih =>
    refine .cons ⟨rfl,nofun,rfl⟩ (fun keys hkeys u v hj _ => ?_) (ih hsite)
    have hmet : (Instruction.step handler o).lacking? keys = none := hkeys rfl ▸ ho
    have hmet' : (Instruction.step handler o').lacking? keys = none := hkeys rfl ▸ ho'
    rw [Site.enact_eq, Site.enact_eq, hmet, hmet']
    have hnests : handler.Nests family site.settings.container := hsite ▸ hn
    have hact := hnests.act_alikeAt h hl o o' hj
    exact Exec.alikeAt_of_eq (Exec.bind_of_ok (site.announce_eq family _ u))
      (Exec.bind_of_ok (site.announce_eq family' _ v)) (Outcome.Alike.after ⟨hj,id⟩ hact)

omit hl

theorem reoptioningRun_tree (q : ι) : Alike (reoptioningRun family family')
    (Tree.Reoptions family) (family.tree q) (family'.tree q) := by
  intro u v hj
  rcases h.compile q with ⟨tree,tree',hc,hc',ht⟩ | ⟨f,hc,hc'⟩
  · obtain ⟨forest,d,hx,hforest,_⟩ := Family.tree_of_compile hc hj.faithful
    obtain ⟨forest',e,hy,hforest',_⟩ := Family.tree_of_compile hc' hj.faithful'
    exact Exec.alikeAt_of_eq hx hy (.ok ht ⟨⟨hj.state,hforest,hforest'⟩,id⟩)
  · have hx := Family.tree_of_flawed hc hj.faithful
    have hy := Family.tree_of_flawed hc' hj.faithful'
    exact Exec.alikeAt_of_eq hx hy (.halted ⟨⟨hj,id⟩,fun _ _ => trivial⟩)

theorem reoptioningRun_launch (depth : Nat) : (family.launchWith family.tree depth).Alike
    (reoptioningRun family family') (family'.launchWith family'.tree depth) := by
  have hg := reoptioningRun_governs h
  induction depth with
  | zero => exact ⟨fun _ _ => Exec.alike_tooDeep,fun _ _ _ => Exec.alike_tooDeep⟩
  | succ depth ih =>
    have hrun : ∀ q level, Alike (reoptioningRun family family') (· = ·)
        (family.runWith (family.launchWith family.tree depth) family.tree q level)
        (family'.runWith (family'.launchWith family'.tree depth) family'.tree q level) := by
      intro q level
      have hstart : Alike (reoptioningRun family family') (Tree.Reoptions family)
          (Family.start family.tree q level) (Family.start family'.tree q level) :=
        Family.start_alike (reoptioningRun_tree h q) fun hj => ⟨hj,id⟩
      refine hstart.bind fun {t t'} ht => hg.round_alike ih q level ?_
      rw [← ht.settings, Site.traverse_eq_walk, Site.traverse_eq_walk]
      exact (ht.roots.aligned h ih rfl).walk_alike fun hj => hg.cascading ⟨rfl,rfl,rfl⟩ hj
    rw [family.launchWith_succ, family'.launchWith_succ]
    exact ⟨hrun,hg.invokeBy_alike ih hrun⟩

/-! ## Requests -/

theorem Request.exec_reoptioned (depth : Nat) (r : Request ι) {u v : World ι}
    (hj : World.Beside family family' u v) :
    (r.exec family depth u).result = (r.exec family' depth v).result ∧
      (r.exec family depth u).world.state = (r.exec family' depth v).world.state := by
  have hstart : World.Beside family family' { u with state := r.start u.state }
      { v with state := r.start v.state } :=
    ⟨congrArg r.start hj.state,hj.faithful,hj.faithful'⟩
  have hexec := r.execBy_alike (reoptioningRun_launch h depth) hstart
  rw [r.exec_eq, r.exec_eq]
  refine ⟨?_,hexec.holds.1.1⟩
  rcases hexec.result with ⟨a,b,rfl,ha,hb⟩ | ⟨halt,ha,hb,_⟩
  · exact ha.trans hb.symm
  · exact ha.trans hb.symm

end

/-- If steps that nest pipelines are given other options, every request comes to the same result or
fault and leaves the same state, from any state and whatever trees are kept. A nested run that fails
the state fails the level of its step, whatever the options are: from the next instruction on the
level executes nothing but failure handlers. -/
theorem Family.Reoptions.unshielded (h : family.Reoptions family') :
    (∀ depth (r : Request ι) u v, World.Beside family family' u v →
      (r.exec family depth u).result = (r.exec family' depth v).result ∧
        (r.exec family depth u).world.state = (r.exec family' depth v).world.state) ∧
    (∀ depth (site : Site ι) required keys before w v d handler o q u e,
      let launch := family.launchWith family.tree (depth + 1)
      site.Arrives family launch required before w keys v d →
      handler.StandsFor site.settings.container v.state q → (family q).entry = none →
      o.lacking? keys = none → family.run (depth + 1) q (site.level + 1) v = ⟨.ok (), u, e⟩ →
      u.state.failed = true →
      site.Unshielded family launch required keys before (.step handler o) w u
        (d ++ site.announcement family (.step handler o) v.state ++ e ++
          [.returned site.pipeline site.level (.step handler o) (.bool false)])) ∧
    ∀ (is : List (Instruction ι)), ∀ i ∈ Instruction.cascade is, i ∈ is ∧ i.isFailure = true := by
  refine ⟨fun depth r u v hj => r.exec_reoptioned h depth hj,?_,?_⟩
  · intro depth site required keys before w v d handler o q u e launch ha hq he ho hrun hu
    have htraverse := ha.traverse_nested hq he ho hrun hu
    refine ⟨?_,fun j after => ?_,fun after => ?_⟩
    · rw [htraverse]
      simp [Outcome.prepend, Site.traverse]
    · rw [htraverse, Site.traverse_eq_walk, Site.walk_cons, hu, if_pos rfl]
    · rw [htraverse]
      exact Site.failed_traverse (depth + 1) site after keys hu
  · intro is i hi
    exact List.mem_filter.1 (mem_of_mem_upThrough hi)

/-- Picks the same pipeline in every state. -/
def checks : Registry Bool := Registry.empty.register "check" (.choice fun _ => true)

theorem resolve?_checks : checks.resolve? "check" = some (.choice fun _ => true) := by
  simp [checks]

def mode : List (String × Value) := [("mode", .bool true)]

def marking (key : String) : Handler Bool :=
  .function (.change (.set key (.bool true)) (.done (.bool true)))

/-- An order is checked, with these options, before it is shipped; the check fails it. -/
def checked (o : Options) : Family Bool
  | false => { name := "order", declarations :=
      [.container checks, .dependsOn .options ["mode"], .step (.named "check") o,
        .step (marking "shipped") (.ofList mode), .failure (marking "kept") (.ofList mode)] }
  | true => { name := "check", declarations := [.step (.function (.done (.bool false))) .empty] }

theorem checked_reoptions {o o' : Options} (ho : o.contains "mode" = true)
    (ho' : o'.contains "mode" = true) : (checked o).Reoptions (checked o') where
  name q := by cases q <;> rfl
  entry q := by cases q <;> rfl
  around q := by cases q <;> rfl
  declarations q := by
    cases q with
    | true => exact .refl _
    | false => exact .same _ (.same _ (.step _ trivial (.refl _)))
  trees {q tree tree'} hc hc' := by
    cases q with
    | true =>
      cases hc
      cases hc'
      exact .keep _ .nil
    | false =>
      cases hc
      cases hc'
      have hlacks : ∀ {o : Options}, o.contains "mode" = true →
          o.lacking? [⟨"mode", rfl⟩] = none := by
        intro o h
        simp [Options.lacking?, h]
      have hn : (Handler.named "check").Nests (checked o) (some checks) :=
        Handler.nests_named resolve?_checks fun _ => rfl
      exact .keep _ (.step hn (hlacks ho) (hlacks ho') (.keep _ (.keep _ .nil)))

theorem Family.Reoptions.unshielded_checked :
    let shield : Options := .ofList (("fail", .bool false) :: mode)
    let bare := checked (.ofList mode)
    let shielded := checked shield
    let order : Request Bool := .run false 0
    let executed := fun out : Outcome Bool Value => out.events.filterMap fun
      | .executing _ level i _ => some (level, i.kind)
      | _ => none
    let site : Site Bool := ⟨false, { container := some checks }, 0⟩
    let step : Instruction Bool := .step (.named "check") shield
    let launch := shielded.launchWith shielded.tree 1
    let out := shielded.run 1 true 1 {}
    shield.fail = false ∧ bare.Reoptions shielded ∧
    executed (order.exec shielded 2 {}) =
      [(0, "depend"), (0, "step"), (1, "step"), (0, "failure")] ∧
    (order.exec shielded 2 {}).world.state.failed = true ∧
    (order.exec bare 2 {}).result = (order.exec shielded 2 {}).result ∧
    (order.exec bare 2 {}).world.state = (order.exec shielded 2 {}).world.state ∧
    site.Unshielded shielded launch [⟨"mode", rfl⟩] [⟨"mode", rfl⟩] [] step {} out.world
      ([] ++ site.announcement shielded step .empty ++ out.events ++
        [.returned false 0 step (.bool false)]) := by
  intro shield bare shielded order executed site step launch out
  have hr : bare.Reoptions shielded := checked_reoptions (by decide +kernel) (by decide +kernel)
  have hself : shielded.Reoptions shielded :=
    checked_reoptions (by decide +kernel) (by decide +kernel)
  obtain ⟨hsame,_⟩ := hr.unshielded
  obtain ⟨_,hlevel,_⟩ := hself.unshielded
  obtain ⟨hresult,hstate⟩ :=
    hsame 2 order {} {} ⟨rfl,Forest.faithful_nil,Forest.faithful_nil⟩
  have hq : (Handler.named "check").StandsFor site.settings.container State.empty true :=
    .named rfl resolve?_checks
  have hrun : out = ⟨.ok (), out.world, out.events⟩ := rfl
  refine ⟨by decide +kernel,hr,by decide +kernel,by decide +kernel,hresult,hstate,?_⟩
  exact hlevel 0 site _ _ [] {} {} [] _ shield true out.world out.events (.nil rfl) hq rfl
    (by decide +kernel) hrun (by decide +kernel)

end Cascade
