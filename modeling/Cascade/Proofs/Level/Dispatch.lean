import Cascade.Proofs.Declared.Need
import Cascade.Proofs.Level.Performance
import Cascade.Proofs.Round

/-! # Pipelines as handlers

A handler may stand for a pipeline, by itself or by a name. Then its instruction invokes that
pipeline, once it has passed the check of its options and is announced. What the invocation needs it
needs only then: so a pipeline that does not compile is refused when it is reached, not before.
-/
namespace Cascade

open Json (Value)

variable {ι : Type} {family : Family ι} {launch : Launch ι} {site : Site ι}

/-- With this container, and in this state, the handler stands for the pipeline. -/
inductive Handler.StandsFor (container : Option (Registry ι)) (s : State) :
    Handler ι → ι → Prop where
  | pipeline (q : ι) : StandsFor container s (.pipeline q) q
  | named {entry : String} {registry : Registry ι} {registration : Registration ι}
    (hc : container = some registry) (hr : registry.resolve? entry = some registration) :
    StandsFor container s (.named entry) (registration.pipelineFor s)

/-- The same outcome, with these events told before. -/
def Outcome.prepend {α : Type} (told : List (Event ι)) (out : Outcome ι α) : Outcome ι α :=
  { out with events := told ++ out.events }

namespace Site

variable (family site) in
/-- What is told when an instruction is announced. -/
def announcement (i : Instruction ι) (s : State) : List (Event ι) :=
  .executing site.pipeline site.level i s ::
    if site.settings.debug then [.logged site.settings.logger (site.record family i s)] else []

variable (family site) in
theorem announce_eq (i : Instruction ι) (w : World ι) : site.announce family i w =
    ⟨.ok (), w, site.announcement family i w.state⟩ := site.announce_apply family i w

theorem forall_announcement {P : Event ι → Prop} {i : Instruction ι} {s : State}
    (hi : P (.executing site.pipeline site.level i s)) (hl : ∀ logger r, P (.logged logger r)) :
    ∀ e ∈ site.announcement family i s, P e := by
  intro e he
  rcases List.mem_cons.1 he with rfl | he
  · exact hi
  · split at he
    · cases List.mem_singleton.1 he
      exact hl _ _
    · cases he

theorem resolve_of_registered {entry : String} {registry : Registry ι}
    {registration : Registration ι} (hc : site.settings.container = some registry)
    (hr : registry.resolve? entry = some registration) (w : World ι) :
    site.resolve entry w = ⟨.ok (registration.pipelineFor w.state), w, []⟩ := by
  unfold resolve
  rw [hc]
  simp only [hr]
  rfl

theorem resolve_of_noContainer (hc : site.settings.container = none) (entry : String) :
    site.resolve entry = Exec.raise (.noContainer entry) := by
  unfold resolve
  rw [hc]

theorem resolve_of_unknown {entry : String} {registry : Registry ι}
    (hc : site.settings.container = some registry) (hr : registry.resolve? entry = none) :
    site.resolve entry = Exec.raise (.unknownEntry entry) := by
  unfold resolve
  rw [hc]
  simp only [hr]

theorem dispatch_of_standsFor {h : Handler ι} {q : ι} {w : World ι}
    (hq : h.StandsFor site.settings.container w.state q) (role : Role) (o : Options) :
    site.dispatch family launch role o h w = launch.invoke q o (site.level + 1) w := by
  cases hq with
  | pipeline => rfl
  | named hc hr =>
    refine (Exec.bind_of_ok (resolve_of_registered hc hr w)).trans ?_
    rw [List.nil_append]

variable (family launch site) in
theorem perform_apply (i : Instruction ι) (w : World ι) : site.perform family launch i w =
    (site.act family launch i w).prepend (site.announcement family i w.state) :=
  Exec.bind_of_ok (site.announce_eq family i w)

/-- An instruction whose dispatch is halted has been announced and does nothing else. -/
theorem perform_of_error {i : Instruction ι} (hi : i.isStep = true ∨ i.isFailure = true)
    {w w' : World ι} {halt : Halt} {events : List (Event ι)}
    (h : site.dispatch family launch i.role i.options i.handler w =
      ⟨.error halt, w', events⟩) : site.perform family launch i w =
        ⟨.error halt, w', site.announcement family i w.state ++ events⟩ := by
  unfold perform
  rw [Exec.bind_of_ok (site.announce_eq family i w), site.act_leaf family launch hi,
    Exec.bind_of_error h]

section

variable {required : List Key} {i : Instruction ι} {w : World ι}

/-- An instruction that lacks an option is not announced. -/
theorem enact_of_lacking {k : Key} (h : i.lacking? required = some k) :
    site.enact family launch required i w =
      ⟨.error (.fault (.missingOption k.raw i.options.text)), w,
        [.raised (.missingOption k.raw i.options.text) w.state]⟩ := by
  rw [enact_eq, h]
  rfl

theorem enact_of_not_lacking (h : i.lacking? required = none) :
    site.enact family launch required i w =
      (site.act family launch i w).prepend (site.announcement family i w.state) := by
  rw [enact_eq, h]
  exact site.perform_apply family launch i w

end

end Site

/-! ## What is invoked -/

section

variable {q : ι}

theorem Family.invoke_of_entry {c : Callable ι} (he : (family q).entry = some c)
    (need : ι → Exec ι (Tree ι)) (depth : Nat) (o : Options) (level : Level) :
    (family.launchWith need (depth + 1)).invoke q o level =
      enter (family.launchWith need depth) q c o := by
  rw [launchWith_succ]
  simp only [invokeBy, he]

variable [DecidableEq ι]

theorem Family.invoke_of_open (he : (family q).entry = none) (depth : Nat) (o : Options)
    (level : Level) : family.invoke (depth + 1) q o level =
      (family.run (depth + 1) q level >>= fun _ => Exec.state >>= fun s =>
        pure (.bool s.successful)) := by
  unfold invoke run
  rw [launchWith_succ]
  simp only [invokeBy, he]

/-- A step or failure handler that stands for a pipeline without entry runs it a level deeper. -/
theorem Site.act_delegated {i : Instruction ι} {w : World ι}
    (hi : i.isStep = true ∨ i.isFailure = true)
    (hq : i.handler.StandsFor site.settings.container w.state q) (he : (family q).entry = none)
    (depth : Nat) : site.act family (family.launchWith family.tree (depth + 1)) i w =
      (family.run (depth + 1) q (site.level + 1) >>= fun _ => Exec.state >>= fun s =>
        site.conclude i (.bool s.successful)) w := by
  have hinvoke := Family.invoke_of_open he depth i.options (site.level + 1)
  calc site.act family (family.launchWith family.tree (depth + 1)) i w
      = (family.invoke (depth + 1) q i.options (site.level + 1) >>= site.conclude i) w := by
        rw [act_leaf _ _ _ hi, Exec.bind_apply, dispatch_of_standsFor hq]
        rfl
    _ = _ := by
        rw [hinvoke, Exec.bind_assoc]
        simp only [Exec.bind_assoc, Exec.pure_bind]

end

/-! ## Lookups -/

/-- A handler given by name, at this site: its options are checked first, then the name is looked up
in the container, and what it stands for is invoked. -/
structure Site.LooksUp (family : Family ι) (launch : Launch ι) (site : Site ι)
    (required : List Key) (i : Instruction ι) (entry : String) (w : World ι) : Prop where
  lacking (k : Key) : i.lacking? required = some k → site.enact family launch required i w =
    Exec.raise (.missingOption k.raw i.options.text) w
  noContainer : (site.resolve entry w).result = .error (.fault (.noContainer entry)) ↔
    site.settings.container = none
  unknownEntry : (site.resolve entry w).result = .error (.fault (.unknownEntry entry)) ↔
    ∃ registry, site.settings.container = some registry ∧ registry.resolve? entry = none
  refused (f : Fault) : i.lacking? required = none →
    (site.resolve entry w).result = .error (.fault f) → site.enact family launch required i w =
      ⟨.error (.fault f), w, site.announcement family i w.state ++ [.raised f w.state]⟩
  found (q : ι) : (site.resolve entry w).result = .ok q →
    site.dispatch family launch i.role i.options i.handler w =
      launch.invoke q i.options (site.level + 1) w

theorem Site.looksUp (family : Family ι) (launch : Launch ι) (site : Site ι)
    (required : List Key) {i : Instruction ι} {entry : String} (hn : i.handler = .named entry)
    (hi : i.isStep = true ∨ i.isFailure = true) (w : World ι) :
    site.LooksUp family launch required i entry w := by
  have hrefused : ∀ f, site.resolve entry = Exec.raise f → i.lacking? required = none →
      site.enact family launch required i w =
        ⟨.error (.fault f), w, site.announcement family i w.state ++ [.raised f w.state]⟩ := by
    intro f hf hl
    rw [enact_eq, hl]
    refine perform_of_error hi ?_
    rw [hn]
    exact Exec.bind_of_error (by rw [hf]; rfl)
  have hlacking : ∀ k, i.lacking? required = some k → site.enact family launch required i w =
      Exec.raise (.missingOption k.raw i.options.text) w := by
    intro k hk
    rw [enact_eq, hk]
  cases hc : site.settings.container with
  | none =>
    have hr := resolve_of_noContainer hc entry
    refine ⟨hlacking,by simp [hr, hc],by simp [hr, hc],fun f hl hf => ?_,fun q hq => ?_⟩
    · rw [hr] at hf
      cases hf
      exact hrefused _ hr hl
    · rw [hr] at hq
      cases hq
  | some registry =>
    cases he : registry.resolve? entry with
    | none =>
      have hr := resolve_of_unknown hc he
      refine ⟨hlacking,by simp [hr, hc],by simp [hr, hc, he],fun f hl hf => ?_,fun q hq => ?_⟩
      · rw [hr] at hf
        cases hf
        exact hrefused _ hr hl
      · rw [hr] at hq
        cases hq
    | some registration =>
      have hr := resolve_of_registered hc he w
      refine ⟨hlacking,by simp [hr, hc],by simp [hr, hc, he],fun f hl hf => ?_,fun q hq => ?_⟩
      · rw [hr] at hf
        cases hf
      · rw [hr] at hq
        cases hq
        rw [hn]
        exact dispatch_of_standsFor (.named hc he) _ _

/-! ## Pipelines that do not compile -/

section

variable [DecidableEq ι] {q : ι} {f : Fault} {w : World ι}

theorem Family.invoke_of_flawed (hc : family.compile q = .error f)
    (he : (family q).entry = none) (hw : w.forest.Faithful family) (depth : Nat) (o : Options)
    (level : Level) : (family.launchWith family.tree (depth + 1)).invoke q o level w =
      ⟨.error (.fault f), w, family.declaring q ++ [.raised f w.state]⟩ := by
  show family.invokeWith _ family.tree q o level w = _
  unfold Family.invokeWith
  rw [he]
  exact Exec.bind_of_error (family.tree_of_flawed hc hw)

/-- A step or failure handler that stands for a pipeline without entry that does not compile is
announced, and the pipeline is declared and refused; the world stays as it was. -/
theorem Site.enact_of_flawed {required : List Key} {i : Instruction ι}
    (hi : i.isStep = true ∨ i.isFailure = true) (hl : i.lacking? required = none)
    (hq : i.handler.StandsFor site.settings.container w.state q) (he : (family q).entry = none)
    (hc : family.compile q = .error f) (hw : w.forest.Faithful family) (depth : Nat) :
    site.enact family (family.launchWith family.tree (depth + 1)) required i w =
      ⟨.error (.fault f), w, site.announcement family i w.state ++
        (family.declaring q ++ [.raised f w.state])⟩ := by
  rw [enact_eq, hl]
  refine perform_of_error hi ?_
  rw [dispatch_of_standsFor hq]
  exact Family.invoke_of_flawed hc he hw depth i.options (site.level + 1)

end

end Cascade
