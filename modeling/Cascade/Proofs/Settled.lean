import Cascade.Proofs.Declared.Settled
import Cascade.Proofs.Performed

/-! # Running under what is settled

An instruction runs under what its pipeline settles in the end, also where that is declared after it
or in another body: it is recorded by the last logger if it is traced at last, and a name stands for
what the last container has under it.
-/
namespace Cascade

open Declaration (lastOf Moved)

variable {ι : Type} [DecidableEq ι] {family : Family ι}

/-- What follows once it is told that the instruction is executed: its record, if the pipeline is
traced in the end, and all that the instruction does under what is settled; a name is looked up in
the container that is declared last. -/
def Family.RunsSettled (family : Family ι) (q : ι) (level : Level) (i : Instruction ι) (s : State)
    (after : List (Event ι)) : Prop :=
  let settled := lastOf (family q).declarations
  let site : Site ι := ⟨q, settled, level⟩
  ∃ depth v rest, v.state = s ∧ v.forest.Faithful family ∧
    after = (if settled.debug then [.logged settled.logger (site.record family i s)] else []) ++
      rest ∧
    (site.act family (family.launchWith family.tree depth) i v).events <+: rest ∧
    ∀ entry, i.isStep = true ∨ i.isFailure = true → i.handler = .named entry →
      site.LooksUp family (family.launchWith family.tree depth) [] i entry v

theorem Family.Performs.runsSettled {q : ι} {level : Level} {i : Instruction ι} {s : State}
    {after : List (Event ι)}
    (h : family.Performs q level i s (.executing q level i s :: after)) :
    family.RunsSettled q level i s after := by
  obtain ⟨depth,v,more,rfl,hv,hmore⟩ := h.exists_act
  unfold Family.site at hmore
  rw [Declaration.settingsOf_eq] at hmore
  exact ⟨depth,v,_,rfl,hv,(List.cons.inj hmore).2,List.prefix_append _ more,
    fun entry hi hn => Site.looksUp family _ _ [] hn hi v⟩

/-- A pipeline is settled by the last declaration of each setting in its document, whatever bodies
they stand in, and by the defaults where there is none. Settings that are declared elsewhere, those
of one kind in the same order, settle and build the same, and meet the same fault. In every run each
instruction of the pipeline runs under what is settled in the end. -/
theorem Family.settled_last (family : Family ι) :
    (∀ q, (family.declared q).settings = lastOf (family q).declarations ∧
      ∀ tree, family.compile q = .ok tree → tree.settings = lastOf (family q).declarations) ∧
    (∀ ds es : List (Declaration ι), Moved ds es → ∀ sig b,
      Builder.declareAll sig b ds = Builder.declareAll sig b es) ∧
    (∀ family', family.Rearranged family' → ∀ q, family.declared q = family'.declared q ∧
      family.compile q = family'.compile q) ∧
    ∀ depth (r : Request ι) w, w.forest.Faithful family → ∀ before q level i s after,
      (r.exec family depth w).events = before ++ .executing q level i s :: after →
      family.RunsSettled q level i s after := by
  refine ⟨fun q => ⟨?_,fun tree ht => ?_⟩,fun _ _ h sig b => h.declareAll_eq sig b,
    fun family' h q => ⟨h.declared_eq q,?_⟩,fun depth r w hw before q level i s after h => ?_⟩
  · rw [family.declared_eq, Declaration.settingsOf_eq]
  · obtain ⟨_,rfl⟩ := (family.compile_eq_ok_iff q).1 ht
    exact Declaration.settingsOf_eq _
  · unfold compile
    rw [h.declared_eq]
  · exact (r.performed family depth hw h).runsSettled

/-- The settings are declared after the step that needs them, some of them in another body. -/
def late : Family Bool := fun inner =>
  if inner then { name := "inner", declarations := [] }
  else { name := "outer", declarations := [.debug false, .step (.named "inner") .empty,
    .wrap (.around (.call .next .done)) .empty
      [.container (Registry.empty.register "inner" (.pipeline true)), .logger (.collector "last")],
    .debug true] }

/-- The same, with the settings declared first. -/
def early : Family Bool := fun inner =>
  if inner then late true
  else { name := "outer", declarations :=
    [.container (Registry.empty.register "inner" (.pipeline true)), .debug false,
      .step (.named "inner") .empty, .logger (.collector "last"), .debug true,
      .wrap (.around (.call .next .done)) .empty []] }

theorem late_rearranged : late.Rearranged early where
  name q := by cases q <;> rfl
  around q := by cases q <;> rfl
  moved q := by cases q <;> exact ⟨rfl,rfl,rfl,rfl⟩

theorem Family.settled_last_late :
    let out := (Request.run false 0).exec late 2 {}
    let told := out.events.filterMap fun
      | .logged (.collector name) r => some (name, r.level)
      | .started q level => some (late.signature.name q, level)
      | _ => none
    let before := [.declaring false, .compiled false, .started false 0]
    let step : Instruction Bool := .step (.named "inner") .empty
    told = [("outer", 0), ("last", 0), ("inner", 1), ("last", 0)] ∧
    (late.declared false).settings = lastOf (late false).declarations ∧
    late.compile false = early.compile false ∧
    Builder.declareAll late.signature {} (late false).declarations =
      Builder.declareAll late.signature {} (early false).declarations ∧
    out.events = before ++ .executing false 0 step .empty :: out.events.drop 4 ∧
    late.RunsSettled false 0 step .empty (out.events.drop 4) := by
  intro out told before step
  obtain ⟨hsettings,hbuilder,hmoved,hruns⟩ := settled_last late
  have hout : out.events = before ++ .executing false 0 step .empty :: out.events.drop 4 := rfl
  exact ⟨by decide +kernel,(hsettings false).1,(hmoved early late_rearranged false).2,
    hbuilder _ _ (late_rearranged.moved false) _ _,hout,
    hruns 2 (.run false 0) {} Forest.faithful_nil before false 0 step .empty _ hout⟩

end Cascade
