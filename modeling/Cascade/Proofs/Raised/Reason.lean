import Cascade.Proofs.Placement
import Cascade.Proofs.Level.Dispatch

/-! # How faults come about

A fault is raised by an instruction that is refused when it is reached, by a pipeline that does not
compile, or by a handler. If handlers pass on the faults that they meet, all that comes after it is
that the same fault is passed on: nothing else is told, and the state stays as it was.
-/
namespace Cascade

open Exec (Alike AlikeAt)

variable {ι : Type}

/-! ## Handlers that pass faults on -/

/-- Faults of the continuation and of pipelines that are started are raised again at once. -/
def Program.PassesOn : Program ι → Prop
  | done _ | raise _ => True
  | read rest => ∀ s, (rest s).PassesOn
  | change _ rest => rest.PassesOn
  | count rest => ∀ n, (rest n).PassesOn
  | call _ rest => ∀ v, (rest v).PassesOn
  | attempt _ rest => (∀ v, (rest (.ok v)).PassesOn) ∧ ∀ f, rest (.error f) = .raise f

theorem Program.PassesOn.suits {S : Fault → Prop} {p : Program ι} (hp : p.PassesOn)
    (hr : p.RaisesOnly S) : p.Suits S False := by
  induction p with
  | done v => trivial
  | raise f => exact hr
  | read rest ih => exact fun s => ih s (hp s) (hr s)
  | change c rest ih => exact ih hp hr
  | count rest ih => exact fun n => ih n (hp n) (hr n)
  | call c rest ih => exact fun v => ih v (hp v) (hr v)
  | attempt c rest ih => exact ⟨fun v => ih _ (hp.1 v) (hr _ (by simp)),fun f => Or.inl (hp.2 f)⟩

variable {family : Family ι}

/-! ## Instructions that are refused -/

/-- The fault with which an instruction is refused when it is reached in the state `s`, without any
handler being run, and what is told before. -/
inductive Site.Refusal (family : Family ι) (site : Site ι) (required : List Key) (s : State)
    (i : Instruction ι) : Fault → List (Event ι) → Prop where
  | lacking {k : Key} (h : i.lacking? required = some k) :
    Refusal family site required s i (.missingOption k.raw i.options.text) []
  | gate {g : Gate} {k : Key} (hi : i = .gate g) (h : g.missing? s = some k) :
    Refusal family site required s i (.missingKey g.category k.raw s.text)
      (site.announcement family i s)
  | noContainer {entry : String} (hl : i.lacking? required = none)
    (hi : i.isStep = true ∨ i.isFailure = true) (hn : i.handler = .named entry)
    (hc : site.settings.container = none) :
    Refusal family site required s i (.noContainer entry) (site.announcement family i s)
  | unknownEntry {entry : String} {registry : Registry ι} (hl : i.lacking? required = none)
    (hi : i.isStep = true ∨ i.isFailure = true) (hn : i.handler = .named entry)
    (hc : site.settings.container = some registry) (hr : registry.resolve? entry = none) :
    Refusal family site required s i (.unknownEntry entry) (site.announcement family i s)

/-- A step or failure handler that stands for a pipeline without entry that does not compile. -/
structure Site.Flawed (family : Family ι) (site : Site ι) (required : List Key) (s : State)
    (i : Instruction ι) (q : ι) (f : Fault) : Prop where
  lacking : i.lacking? required = none
  leaf : i.isStep = true ∨ i.isFailure = true
  standsFor : i.handler.StandsFor site.settings.container s q
  entry : (family q).entry = none
  compile : family.compile q = .error f

theorem Gate.check_apply (g : Gate) (w : World ι) :
    (g.check : Exec ι Unit) w = match g.missing? w.state with
      | some k => ⟨.error (.fault (.missingKey g.category k.raw w.state.text)), w,
        [.raised (.missingKey g.category k.raw w.state.text) w.state]⟩
      | none => ⟨.ok (), w, []⟩ := by
  refine (Exec.bind_of_ok (Exec.state_apply w)).trans ?_
  cases g.missing? w.state <;> rfl

namespace Site

variable {launch : Launch ι} {site : Site ι}

variable (family launch site) in
theorem perform_gate (g : Gate) (w : World ι) : site.perform family launch (.gate g) w =
    ⟨(g.check w).result, (g.check w).world,
      site.announcement family (.gate g) w.state ++ (g.check w).events⟩ :=
  Exec.bind_of_ok (site.announce_eq family (.gate g) w)

/-- The world stays as it was when the instruction was reached. -/
theorem Refusal.enact {required : List Key} {i : Instruction ι} {w : World ι} {f : Fault}
    {told : List (Event ι)} (h : site.Refusal family required w.state i f told) :
    site.enact family launch required i w =
      ⟨.error (.fault f), w, told ++ [.raised f w.state]⟩ := by
  cases h with
  | lacking h =>
    rw [enact_eq, h]
    rfl
  | gate hi h =>
    subst hi
    show site.perform family launch (.gate _) w = _
    rw [perform_gate, Gate.check_apply, h]
  | noContainer hl hi hn hc =>
    refine (site.looksUp family launch required hn hi w).refused _ hl ?_
    rw [resolve_of_noContainer hc]
    rfl
  | unknownEntry hl hi hn hc hr =>
    refine (site.looksUp family launch required hn hi w).refused _ hl ?_
    rw [resolve_of_unknown hc hr]
    rfl

/-! What is not refused has the options that it needs and the keys of its gate, and its name is
registered. -/

section

variable {required : List Key} {i : Instruction ι} {s : State}
  (h : ∀ f told, ¬ site.Refusal family required s i f told)
include h

theorem lacking?_of_not_refusal : i.lacking? required = none := by
  cases hl : i.lacking? required with
  | none => rfl
  | some k => exact absurd (.lacking hl) (h _ _)

theorem missing?_of_not_refusal {g : Gate} (hi : i = .gate g) : g.missing? s = none := by
  cases hg : g.missing? s with
  | none => rfl
  | some k => exact absurd (.gate hi hg) (h _ _)

theorem resolve_of_not_refusal (hi : i.isStep = true ∨ i.isFailure = true) {entry : String}
    (hn : i.handler = .named entry) : ∃ registration : Registration ι,
      ∀ w, site.resolve entry w = ⟨.ok (registration.pipelineFor w.state), w, []⟩ := by
  have hl := lacking?_of_not_refusal h
  cases hc : site.settings.container with
  | none => exact absurd (.noContainer hl hi hn hc) (h _ _)
  | some registry =>
    cases hr : registry.resolve? entry with
    | none => exact absurd (.unknownEntry hl hi hn hc hr) (h _ _)
    | some registration => exact ⟨registration,resolve_of_registered hc hr⟩

end

end Site

/-! ## Why faults are raised -/

namespace Event

def isRaised : Event ι → Bool
  | raised .. => true
  | _ => false

end Event

/-- The instruction stands in the tree of its pipeline, and so do the settings. -/
structure Family.Reaches (family : Family ι) (site : Site ι) (i : Instruction ι) : Prop where
  settings : ∃ tree, family.compile site.pipeline = .ok tree ∧ site.settings = tree.settings
  has : family.Has site.pipeline i

/-- A fault is raised in the state `s` after these events, for one of these reasons; handlers raise
none but those of `S` by themselves. -/
inductive Raising (family : Family ι) (S : Fault → Prop) (s : State) :
    Fault → List (Event ι) → Prop where
  /-- An instruction is refused in the state that it is reached in. -/
  | refused {before told : List (Event ι)} {site : Site ι} {required : List Key}
    {i : Instruction ι} {f : Fault} (hi : family.Reaches site i)
    (h : site.Refusal family required s i f told) : Raising family S s f (before ++ told)
  /-- In the state that it is reached in, an instruction stands for a pipeline that does not
  compile. -/
  | nested {before : List (Event ι)} {site : Site ι} {required : List Key} {i : Instruction ι}
    {q : ι} {f : Fault} (hi : family.Reaches site i) (h : site.Flawed family required s i q f) :
    Raising family S s f (before ++ (site.announcement family i s ++ family.declaring q))
  /-- A pipeline that is started by a handler or a request does not compile. -/
  | flawed {before : List (Event ι)} {q : ι} {f : Fault} (hc : family.compile q = .error f) :
    Raising family S s f (before ++ family.declaring q)
  /-- A handler raises it, or makes a change that is refused, or has no continuation to run. -/
  | handler {before : List (Event ι)} {f : Fault} (h : S f) : Raising family S s f before
  | change {before : List (Event ι)} {c : Change} {f : Fault} (h : c.apply s = .error f) :
    Raising family S s f before
  | uncontinued {before : List (Event ι)} : Raising family S s noContinuation before

/-- The fault is raised once, in the state `s`, and passed on until the end. -/
def Raised (family : Family ι) (S : Fault → Prop) (f : Fault) (events : List (Event ι))
    (s : State) : Prop :=
  ∃ before n, events = before ++ List.replicate (n + 1) (.raised f s) ∧
    (∀ e ∈ before, e.isRaised = false) ∧ Raising family S s f before

theorem Raising.prepend {S : Fault → Prop} {s : State} {f : Fault} {events : List (Event ι)}
    (h : Raising family S s f events) (before : List (Event ι)) :
    Raising family S s f (before ++ events) := by
  cases h with
  | refused hi hr =>
    rw [← List.append_assoc]
    exact .refused hi hr
  | nested hi hr =>
    rw [← List.append_assoc]
    exact .nested hi hr
  | flawed hc =>
    rw [← List.append_assoc]
    exact .flawed hc
  | handler h => exact .handler h
  | change h => exact .change h
  | uncontinued => exact .uncontinued

namespace Raised

variable {S : Fault → Prop} {s : State} {f : Fault} {events : List (Event ι)}

theorem of_raising (hb : ∀ e ∈ events, e.isRaised = false) (h : Raising family S s f events) :
    Raised family S f (events ++ [.raised f s]) s := ⟨events,0,rfl,hb,h⟩

theorem at_once (h : Raising family S s f []) : Raised family S f [.raised f s] s :=
  ⟨[],0,rfl,by simp,h⟩

theorem prepend (h : Raised family S f events s) {before : List (Event ι)}
    (hb : ∀ e ∈ before, e.isRaised = false) : Raised family S f (before ++ events) s := by
  obtain ⟨after,n,rfl,ha,hr⟩ := h
  refine ⟨before ++ after,n,(List.append_assoc _ _ _).symm,fun e he => ?_,hr.prepend before⟩
  exact (List.mem_append.1 he).elim (hb e) (ha e)

theorem pass (h : Raised family S f events s) :
    Raised family S f (events ++ [.raised f s]) s := by
  obtain ⟨before,n,rfl,hb,hr⟩ := h
  refine ⟨before,n + 1,?_,hb,hr⟩
  rw [List.append_assoc, ← List.replicate_succ']

end Raised

/-! ## What is told without a fault -/

theorem Family.isRaised_of_mem_declaring {q : ι} : ∀ e ∈ family.declaring q, e.isRaised = false :=
  Family.forall_declaring rfl fun _ => rfl

theorem Site.isRaised_of_mem_announcement {site : Site ι} {i : Instruction ι} {s : State} :
    ∀ e ∈ site.announcement family i s, e.isRaised = false :=
  Site.forall_announcement rfl fun _ _ => rfl

theorem Site.Refusal.isRaised_of_mem_told {site : Site ι} {required : List Key} {s : State}
    {i : Instruction ι} {f : Fault} {told : List (Event ι)}
    (h : site.Refusal family required s i f told) {e : Event ι} (he : e ∈ told) :
    e.isRaised = false := by
  cases h with
  | lacking _ => cases he
  | gate _ _ | noContainer _ _ _ _ | unknownEntry _ _ _ _ _ =>
    exact Site.isRaised_of_mem_announcement _ he

end Cascade
