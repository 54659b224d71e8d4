import Cascade.Proofs.Continued.Conduct
import Cascade.Proofs.Level.Required
import Cascade.Proofs.Performed
import Cascade.Proofs.Raised.Session
import Cascade.Proofs.Replay

/-! # Wraps and their continuations

Whenever a wrap is executed its handler gets a continuation that has not been run. Each passage
traverses the children a level deeper, with no keys required, from the world that the handler has
then. Nothing else is known of the children: a handler that does not run them does the same whatever
they are, and what it gives back is told, and not looked at.
-/
namespace Cascade

open Json (Value)

variable {ι : Type}

/-- The passage is a traversal of the children of a wrap at this site. In a state that is failed
already it runs none but their failure handlers, from the first child on. -/
structure Site.Traverses (family : Family ι) (launch : Launch ι) (site : Site ι)
    (children : List (Instruction ι)) (passage : Passage ι) : Prop where
  outcome : passage.outcome =
    Site.traverse family launch ⟨site.pipeline, site.settings, site.level + 1⟩ [] children
      passage.start
  course : Site.Course family launch ⟨site.pipeline, site.settings, site.level + 1⟩ [] children
    passage.start passage.outcome
  failed (h : passage.start.state.failed = true) (hc : children ≠ []) : passage.outcome =
    (Exec.emit (.cascading site.pipeline (site.level + 1)) >>= fun _ =>
      (Instruction.cascade children).forM (site.deeper.enact family launch [])) passage.start

theorem Site.traverses (family : Family ι) (launch : Launch ι) (site : Site ι)
    (children : List (Instruction ι)) {passage : Passage ι}
    (h : passage.outcome = site.deeper.traverse family launch [] children passage.start) :
    site.Traverses family launch children passage where
  outcome := h
  course := by
    rw [h]
    exact site.deeper.course_of_traverse family launch [] children passage.start
  failed hf hc := by
    cases children with
    | nil => exact absurd rfl hc
    | cons c rest =>
      rw [h, traverse_cons, if_pos hf, cascade_eq]
      rfl

/-- How a wrap at this site uses its continuation. -/
structure Site.Continues (family : Family ι) (launch : Launch ι) (site : Site ι) (h : Handler ι)
    (o : Options) (children : List (Instruction ι)) (w : World ι) (out : Outcome ι Value)
    (passages : List (Passage ι)) : Prop where
  /-- The body starts with a continuation that has not been run, and conducts itself in this way
  only. -/
  conduct : ∃ p, h.Surrounds family o p ∧ ∀ out' passages',
    p.Conduct launch (site.deeper.traverse family launch [] children) 0 w out' passages' ↔
      out' = out ∧ passages' = passages
  traverses : ∀ passage ∈ passages, site.Traverses family launch children passage
  /-- In the end it has been run as often as there are passages. -/
  counted : h.wrap family launch o (site.deeper.traverse family launch [] children) w =
    out.counted passages.length
  /-- Without a passage it does not matter what the children are. -/
  unused : passages = [] → ∀ continuation, h.wrap family launch o continuation w = out.counted 0
  /-- A passage starts in the state that all that is told before it leaves. -/
  told {before after : List (Passage ι)} {passage : Passage ι}
    (hp : passages = before ++ passage :: after) : ∃ earlier rest,
      out.events = earlier ++ (passage.outcome.events ++ rest) ∧
      passage.start.state = replay w.state earlier

theorem Program.Conduct.exec_eq {launch : Launch ι} {continuation : Exec ι Unit} {runs : Nat}
    {p : Program ι} {w : World ι} {out : Outcome ι Value} {passages : List (Passage ι)}
    (h : p.Conduct launch continuation runs w out passages) :
    p.exec launch (some continuation) runs w = out.counted (runs + passages.length) := by
  obtain ⟨out',passages',h',he⟩ := p.conducted launch continuation runs w
  obtain ⟨rfl,rfl⟩ := h.unique h'
  exact he

variable [DecidableEq ι] {family : Family ι}

theorem Handler.Surrounds.continues {h : Handler ι} {o : Options} {p : Program ι}
    (hp : h.Surrounds family o p) (depth : Nat) (site : Site ι) (children : List (Instruction ι))
    (w : World ι) : ∃ out passages,
      site.Continues family (family.launchWith family.tree depth) h o children w out passages := by
  have hwrap : ∀ k, h.wrap family (family.launchWith family.tree depth) o k =
      p.exec (family.launchWith family.tree depth) (some k) 0 := hp.wrap_eq _
  have hg := replayLaw_governs family
  obtain ⟨out,passages,hc,he⟩ := p.conducted (family.launchWith family.tree depth)
    (site.deeper.traverse family (family.launchWith family.tree depth) [] children) 0 w
  rw [Nat.zero_add] at he
  refine ⟨out,passages,⟨p,hp,fun out' passages' => ⟨fun h => h.unique hc,?_⟩⟩,?_,
    (congrFun (hwrap _) w).trans he,?_,?_⟩
  · rintro ⟨rfl,rfl⟩
    exact hc
  · exact fun passage hm => site.traverses family _ children (hc.outcome_eq passage hm)
  · rintro rfl continuation
    have hother : p.Conduct (family.launchWith family.tree depth) continuation 0 w out [] :=
      hc.congr (by simp)
    exact (congrFun (hwrap _) w).trans hother.exec_eq
  · intro before after passage hpassages
    obtain ⟨earlier,rest,hevents,hholds⟩ := hc.passage_told hg.toTolerant
      (hg.launchWith_obeys hg.tree_obeys depth)
      (hg.traverse_obeys hg.tree_obeys depth site.deeper children []) hpassages
    exact ⟨earlier,rest,hevents,hholds.2⟩

omit [DecidableEq ι] in
/-- What a wrap tells, once it is announced: all that its body and the passages tell, and the value
that it gives back. -/
theorem Site.Continues.events_act {launch : Launch ι} {site : Site ι} {h : Handler ι} {o : Options}
    {children : List (Instruction ι)} {w : World ι} {out : Outcome ι Value}
    {passages : List (Passage ι)}
    (hc : site.Continues family launch h o children w out passages) :
    (site.act family launch (.wrap h o children) w).events = out.events ++ match out.result with
      | .ok value => [.returned site.pipeline site.level (.wrap h o children) value]
      | .error _ => [] := by
  have hwrap := hc.counted
  rcases out with ⟨_ | value,v,events⟩
  · have hact : site.act family launch (.wrap h o children) w = ⟨.error _, v, events⟩ :=
      Exec.bind_of_error hwrap
    rw [hact]
    exact (List.append_nil events).symm
  · have hact : site.act family launch (.wrap h o children) w = ⟨.ok (), v, events ++
        [.returned site.pipeline site.level (.wrap h o children) value]⟩ := Exec.bind_of_ok hwrap
    rw [hact]

/-- Whenever a wrap is executed its handler gets a fresh continuation, and each passage through it
traverses the children a level deeper, without required keys, from the state that the handler has
then; it counts however it ends. The handler learns whether the state is successful after a passage
that ends well, and is halted with the same fault in the same state otherwise, unless it looks at
the fault. Without a passage the children do not matter. The rest of a level goes on in the state
that the wrap leaves, and is the same whatever value it gives back. All this holds of every wrap
that a run executes. -/
theorem Family.wraps_continue (family : Family ι) :
    (∀ depth (site : Site ι) h o children p w, h.Surrounds family o p → ∃ out passages,
      site.Continues family (family.launchWith family.tree depth) h o children w out passages ∧
      ∀ value w' events, out = ⟨.ok value, w', events⟩ → w.state.failed = false →
        ∀ required rest,
          site.traverse family (family.launchWith family.tree depth) required
            (.wrap h o children :: rest) w =
          (site.traverse family (family.launchWith family.tree depth) required rest w').prepend
            (site.announcement family (.wrap h o children) w.state ++ (events ++
              [.returned site.pipeline site.level (.wrap h o children) value]))) ∧
    ∀ depth (r : Request ι) w, w.forest.Faithful family → ∀ before q level h o children s after,
      (r.exec family depth w).events =
        before ++ .executing q level (.wrap h o children) s :: after →
      ∃ left v out passages more, v.state = s ∧ v.forest.Faithful family ∧
        (family.site q level).Continues family (family.launchWith family.tree left) h o children v
          out passages ∧
        .executing q level (.wrap h o children) s :: after =
          (family.site q level).announcement family (.wrap h o children) s ++
            (out.events ++ (match out.result with
              | .ok value => [.returned q level (.wrap h o children) value]
              | .error _ => []) ++ more) := by
  constructor
  · intro depth site h o children p w hp
    obtain ⟨out,passages,hc⟩ := hp.continues depth site children w
    refine ⟨out,passages,hc,?_⟩
    rintro value w' events rfl hw required rest
    exact site.traverse_wrap required hw hc.counted rest
  · intro depth r w hw before q level h o children s after he
    have hperforms := r.performed family depth hw he
    obtain ⟨left,v,more,rfl,hv,hafter⟩ := hperforms.exists_act
    have hfits : h.canWrap family.signature = true := hperforms.has.fits.wrap rfl
    obtain ⟨p,hp⟩ := Handler.exists_surrounds hfits o
    obtain ⟨out,passages,hc⟩ := hp.continues left (family.site q level) children v
    rw [hc.events_act] at hafter
    exact ⟨left,v,out,passages,more,rfl,hv,hc,hafter⟩

/-- Runs its continuation, sees to what a first passage may lack, and runs it again. -/
def preparing : Program Unit :=
  .attempt .next fun
    | .ok v => .done v
    | .error _ => .change (.set "ready" (.bool true)) (.call .next fun _ => .count fun n =>
        .change (.set "passages" (.int n)) (.done .null))

/-- The children of one wrap are refused at first; those of the other are never run. -/
def prepared : Family Unit := fun _ =>
  { name := "prepared", declarations :=
    [.wrap (.around preparing) .empty
      [.dependsOn .state ["ready"], .step (.function (.done (.bool true))) .empty],
    .wrap (.around (.done (.bool false))) .empty [.dependsOn .state ["never"]]] }

theorem Family.wraps_continue_prepared :
    let children : List (Instruction Unit) :=
      [.gate ⟨.state, [⟨"ready", rfl⟩]⟩, .step (.function (.done (.bool true))) .empty]
    let out := (Request.run () 0).exec prepared 1 {}
    let told := out.events.filterMap fun
      | .executing _ level i _ => some (level, i.kind)
      | .raised _ _ => some (1, "raised")
      | _ => none
    told = [(0, "wrap"), (1, "depend"), (1, "raised"), (1, "depend"), (1, "step"), (0, "wrap")] ∧
    out.world.state.get? "passages" = some (.int 2) ∧ out.world.state.failed = false ∧
    (∃ out passages, (prepared.site () 0).Continues prepared (prepared.launchWith prepared.tree 0)
      (.around preparing) .empty children {} out passages ∧ passages.length = 2) ∧
    ∃ left v out passages, v.state = .empty ∧ (prepared.site () 0).Continues prepared
      (prepared.launchWith prepared.tree left) (.around preparing) .empty children v out passages := by
  intro children out told
  obtain ⟨hwraps,hruns⟩ := wraps_continue prepared
  refine ⟨by decide +kernel,rfl,rfl,?_,?_⟩
  · obtain ⟨out,passages,hc,_⟩ :=
      hwraps 0 (prepared.site () 0) (.around preparing) .empty children preparing {} (.around _)
    refine ⟨out,passages,hc,?_⟩
    have hcount : (out.counted passages.length).result.toOption.map Prod.snd = some 2 := by
      rw [← hc.counted]
      rfl
    rcases out with ⟨_ | _,_,_⟩
    · cases hcount
    · exact Option.some.inj hcount
  · have hout : out.events = [.declaring (), .compiled (), .started () 0] ++
        .executing () 0 (.wrap (.around preparing) .empty children) .empty ::
          out.events.drop 4 := rfl
    obtain ⟨left,v,out,passages,_,hv,_,hc,_⟩ := hruns 1 (.run () 0) {} Forest.faithful_nil _ _ _ _
      _ _ _ _ hout
    exact ⟨left,v,out,passages,hv,hc⟩

end Cascade
