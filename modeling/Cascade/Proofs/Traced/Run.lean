import Cascade.Proofs.Traced.Levels

/-! # Traced runs

A run of a tree tells that it starts, then what belongs to its instructions and to the pipelines
that they start, and that it is finished unless it is halted. Together with the records of a session
this says where each record stands, what it holds and on which level.
-/
namespace Cascade

variable {ι : Type}

/-! ## Runs of a tree -/

/-- All that a run tells: that it starts, then what it tells itself of the tree and what the
pipelines tell that it starts, and in the end, unless it is halted, that it is finished. -/
def Outcome.TellsRun (launch : Launch ι) (tree : Tree ι) (q : ι) (level : Level)
    (out : Outcome ι Unit) : Prop :=
  ∃ body, Interleaved (Event.OwnOf q level tree.roots) launch.Block body ∧
    out.events = .started q level :: (body ++ match out.result with
      | .ok _ => [.finished q level out.world.state.successful]
      | .error _ => [])

variable {family : Family ι} {launch : Launch ι}

theorem Tree.run_tells (tree : Tree ι) (q : ι) (level : Level) (w : World ι) :
    (tree.run family launch q level w).TellsRun launch tree q level := by
  have ht := launch.tells_own q level tree.roots
  have htraverse : (Site.traverse family launch ⟨q, tree.settings, level⟩ [] tree.roots).Tells
      (Event.OwnOf q level tree.roots) launch.Block :=
    Site.tells_traverse ⟨q, tree.settings, level⟩ tree.roots []
  have hbody : (tree.body family launch q level).Tells (Event.OwnOf q level tree.roots)
      launch.Block := Family.tells_body ht (fun _ => trivial) htraverse
  have h := hbody w
  rw [tree.run_apply]
  rcases hw : tree.body family launch q level w with ⟨_ | _,v,events⟩
  · rw [hw] at h
    exact ⟨events,h,by simp⟩
  · rw [hw] at h
    exact ⟨events,h,rfl⟩

/-! ## Sessions -/

/-- In every turn of a session each instruction of a traced pipeline is recorded when it is
executed, before it acts, and nothing else is recorded. A run executes the instructions of its tree
that many levels below its own as there are wraps around them, less than the tree is deep; a step or
failure handler starts the pipeline that it stands for a level deeper. These levels are counted up
as long as they do not run out. An instruction that lacks an option is not executed, while a gate is
executed before it is refused. -/
theorem session_traced [DecidableEq ι] (family : Family ι) :
    (∀ depth turns w, w.forest.Faithful family → ∀ out ∈ session family depth turns w,
      Recording family out.events) ∧
    (∀ q tree depth level w, family.compile q = .ok tree → w.forest.Faithful family →
      ∃ (out : Outcome ι Unit) (building : List (Event ι)),
        out.TellsRun (family.launchWith family.tree depth) tree q level ∧
        unbuilding building = [] ∧ family.run (depth + 1) q level w = out.prepend building) ∧
    (∀ (tree : Tree ι) (n : Nat) i, Instruction.Within tree.roots n i → n < tree.depth ∧
      ∀ level, tree.InRange level → (level + (n : Level)).toNat = level.toNat + n) ∧
    (∀ (site : Site ι) depth i w q, i.isStep = true ∨ i.isFailure = true →
      i.handler.StandsFor site.settings.container w.state q → (family q).entry = none →
      site.act family (family.launchWith family.tree (depth + 1)) i w =
        (family.run (depth + 1) q (site.level + 1) >>= fun _ => Exec.state >>= fun s =>
          site.conclude i (.bool s.successful)) w ∧
      (site.level.toNat + 1 < UInt64.size → (site.level + 1).toNat = site.level.toNat + 1)) ∧
    (∀ (site : Site ι) launch required i w, i.lacking? required = none →
      site.enact family launch required i w =
        (site.act family launch i w).prepend (site.announcement family i w.state)) ∧
    (∀ (site : Site ι) launch required i w k, i.lacking? required = some k →
      site.enact family launch required i w =
        ⟨.error (.fault (.missingOption k.raw i.options.text)), w,
          [.raised (.missingOption k.raw i.options.text) w.state]⟩) ∧
    ∀ (site : Site ι) launch required g w k, g.missing? w.state = some k →
      site.enact family launch required (.gate g) w =
        ⟨.error (.fault (.missingKey g.category k.raw w.state.text)), w,
          site.announcement family (.gate g) w.state ++
            [.raised (.missingKey g.category k.raw w.state.text) w.state]⟩ := by
  refine ⟨fun depth turns w hw => session_recording depth turns hw,?_,
    fun _ _ _ h => ⟨h.lt_depthOf,fun _ hl => h.toNat_level hl⟩,
    fun _ depth _ _ _ hi hq he => ⟨Site.act_delegated hi hq he depth,Level.toNat_add_one⟩,
    fun _ _ _ _ _ h => Site.enact_of_not_lacking h,fun _ _ _ _ _ _ h => Site.enact_of_lacking h,
    fun _ _ _ _ _ _ h => Site.Refusal.enact (.gate rfl h)⟩
  intro q tree depth level w hc hw
  obtain ⟨forest,building,_,hbuilding,hrun⟩ := Way.exec_apply hc hw depth (a := .run level) trivial
  exact ⟨_,building,tree.run_tells q level _,hbuilding,hrun⟩

theorem session_traced_nested :
    let tree : Tree Bool := ⟨Declaration.imageOf (nested false).declarations, { debug := true }⟩
    let told := fun out : Outcome Bool (Answer Bool) => out.events.filterMap fun
      | .executing _ level i _ => some (level, i.kind)
      | .logged _ r => some (r.level, "recorded " ++ r.kind)
      | _ => none
    let turns : List (Turn Bool) := [.request id (.run false 3)]
    let launch := nested.launchWith nested.tree 1
    let site : Site Bool := ⟨false, { debug := true }, 4⟩
    let step : Instruction Bool := .step (.pipeline true) .empty
    let k : Key := ⟨"id", rfl⟩
    let gate : Gate := ⟨.params, [k]⟩
    (session nested 2 turns {}).map told = [[(3, "wrap"), (3, "recorded wrap"), (4, "step"),
      (4, "recorded step"), (5, "step"), (5, "failure")]] ∧
    (∀ out ∈ session nested 2 turns {}, Recording nested out.events) ∧
    (∃ (out : Outcome Bool Unit) (building : List (Event Bool)),
      out.TellsRun launch tree false 3 ∧ unbuilding building = [] ∧
        nested.run 2 false 3 {} = out.prepend building) ∧
    Instruction.Within tree.roots 1 step ∧ 1 < tree.depth ∧ tree.InRange 3 ∧
    ((3 : Level) + ((1 : Nat) : Level)).toNat = (3 : Level).toNat + 1 ∧
    site.act nested launch step {} = (nested.run 1 true 5 >>= fun _ => Exec.state >>= fun s =>
      site.conclude step (.bool s.successful)) {} ∧ (4 + 1 : Level).toNat = (4 : Level).toNat + 1 ∧
    site.enact nested launch [] step {} =
      (site.act nested launch step {}).prepend (site.announcement nested step .empty) ∧
    site.enact nested launch [k] step {} =
      ⟨.error (.fault (.missingOption "id" "{}")), {},
        [.raised (.missingOption "id" "{}") .empty]⟩ ∧
    site.enact nested launch [] (.gate gate) {} =
      ⟨.error (.fault (.missingKey .params "id" State.empty.text)), {},
        site.announcement nested (.gate gate) .empty ++
          [.raised (.missingKey .params "id" State.empty.text) .empty]⟩ := by
  intro tree told turns launch site step k gate
  obtain ⟨hrecords,hrun,hwithin,hact,hannounced,hlacking,hgate⟩ := session_traced nested
  have hstep : Instruction.Within tree.roots 1 step :=
    .inside List.mem_cons_self (.here List.mem_cons_self)
  have hrange : tree.InRange 3 := by
    unfold Tree.InRange
    decide
  obtain ⟨hdepth,hcounted⟩ := hwithin tree 1 step hstep
  obtain ⟨hdelegated,hdeeper⟩ := hact site 0 step {} true (Or.inl rfl) (.pipeline true) rfl
  exact ⟨by decide +kernel,hrecords 2 turns {} Forest.faithful_nil,
    hrun false tree 1 3 {} rfl Forest.faithful_nil,hstep,hdepth,hrange,hcounted 3 hrange,
    hdelegated,hdeeper (by decide),hannounced site launch [] step {} rfl,
    hlacking site launch [k] step {} k rfl,hgate site launch [] gate {} k rfl⟩

/-- A step for another pipeline, and a wrap around a step that finds itself that an option is
missing. -/
def brink : Family Bool := fun inner =>
  if inner then
    { name := "inner", declarations := [.step (.function (.done (.bool true))) .empty] }
  else { name := "outer", declarations := [.debug true, .logger (.collector "log"),
    .step (.pipeline true) .empty, .wrap (.around (.call .next .done)) .empty
      [.step (.function (.raise (.missingOption "id" "{}"))) .empty]] }

/-- On the last level they run out: what a step starts there, and what a wrap runs, is on the first
level again. And a step that raises that an option is missing, instead of being refused for it, has
been recorded. -/
theorem session_traced_last_level :
    let last : Level := .ofNat (UInt64.size - 1)
    let tree : Tree Bool := ⟨Declaration.imageOf (brink false).declarations,
      { debug := true, logger := .collector "log" }⟩
    let raising : Instruction Bool := .step (.function (.raise (.missingOption "id" "{}"))) .empty
    let told := fun out : Outcome Bool Unit => out.events.filterMap fun
      | .started q level => some (q, level, "started")
      | .executing q level i _ => some (q, level, i.kind)
      | .logged _ r => some (false, r.level, "recorded " ++ r.kind)
      | _ => none
    let out := brink.run 2 false last {}
    brink.compile false = .ok tree ∧ Instruction.Within tree.roots 1 raising ∧
    told out = [(false, last, "started"), (false, last, "step"), (false, last, "recorded step"),
      (true, 0, "started"), (true, 0, "step"), (false, last, "wrap"),
      (false, last, "recorded wrap"), (false, 0, "step"), (false, 0, "recorded step")] ∧
    (0 : Level).toNat ≠ last.toNat + 1 ∧ ¬ last.toNat ≤ (0 : Level).toNat ∧
    out.result = .error (.fault (.missingOption "id" "{}")) := by
  intro last tree raising told out
  exact ⟨rfl,.inside (List.mem_cons_of_mem _ List.mem_cons_self) (.here List.mem_cons_self),
    by decide +kernel,by decide,by decide,rfl⟩

end Cascade
