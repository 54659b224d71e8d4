import Cascade.Proofs.Raised.Stopping

/-! # Faults stop a run

In a family whose handlers pass on the faults that they meet, a request that ends with a fault did
nothing after the fault was raised, at any level, and left the state as it was then. A request that
ends otherwise met no fault.
-/
namespace Cascade

open Exec (Alike AlikeAt)

variable {ι : Type}

/-! ## Faults that are caught -/

/-- Once a wrap has given a result, whatever was caught meanwhile, its level goes on in the world
that it left. -/
theorem Site.traverse_wrap {family : Family ι} {launch : Launch ι} (site : Site ι)
    (required : List Key) {handler : Handler ι} {o : Options} {children : List (Instruction ι)}
    {w w' : World ι} {result : Json.Value} {runs : Nat} {events : List (Event ι)}
    (hw : w.state.failed = false)
    (h : handler.wrap family launch o (site.deeper.traverse family launch [] children) w =
      ⟨.ok (result, runs), w', events⟩) (rest : List (Instruction ι)) :
    site.traverse family launch required (.wrap handler o children :: rest) w =
      (site.traverse family launch required rest w').prepend
        (site.announcement family (.wrap handler o children) w.state ++ (events ++
          [.returned site.pipeline site.level (.wrap handler o children) result])) := by
  have hact : site.act family launch (.wrap handler o children) w = ⟨.ok (), w', events ++
      [.returned site.pipeline site.level (.wrap handler o children) result]⟩ := Exec.bind_of_ok h
  have hperform : site.perform family launch (.wrap handler o children) w = ⟨.ok (), w',
      site.announcement family (.wrap handler o children) w.state ++ (events ++
        [.returned site.pipeline site.level (.wrap handler o children) result])⟩ := by
    unfold perform
    rw [Exec.bind_of_ok (site.announce_eq family _ w), hact]
  have hkind : (Instruction.wrap handler o children).isFailure = false := rfl
  rw [traverse_eq_walk, traverse_eq_walk, walk_cons, hw, if_neg (by simp), hkind,
    if_neg (by simp), enact_eq]
  exact Exec.bind_of_ok hperform

/-! ## The likeness -/

/-- No fault until the run is halted, and then one that is raised and passed on. -/
def unraised (family : Family ι) (S : Fault → Prop) : Stopping ι where
  Calm events := ∀ e ∈ events, e.isRaised = false
  Stopped
    | .fault f, s, events => Raised family S f events s
    | .tooDeep, _, events => ∀ e ∈ events, e.isRaised = false
  nil := by simp
  append hd he := List.forall_mem_append.2 ⟨hd,he⟩
  prepend {halt s d e} hd h := by
    cases halt with
    | fault f => exact Raised.prepend h hd
    | tooDeep => exact List.forall_mem_append.2 ⟨hd,h⟩
  tooDeep _ := by simp
  pass := Raised.pass

theorem unraised_admits (family : Family ι) (S : Fault → Prop) :
    (unraised family S).Admits S where
  act {e} h := by
    refine List.forall_mem_singleton.2 ?_
    cases e with
    | raised f s => cases h
    | _ => rfl
  raised h _ := Raised.at_once (.handler h)
  refused h := Raised.at_once (.change h)
  uncontinued _ := Raised.at_once .uncontinued

variable [DecidableEq ι]

/-- A run with no faults until it is halted, and then one that is raised and passed on. -/
abbrev raisingRun (family : Family ι) (S : Fault → Prop) : Likeness ι :=
  (unraised family S).run family S

variable {family : Family ι} {S : Fault → Prop}

theorem raisingRun_governs (hf : ∀ q, (family q).All (Program.Passes S)) :
    (raisingRun family S).Governs family family where
  toGovernsLevels := (unraised_admits family S).governsLevels hf
  finished {u v} hj q level := by
    obtain ⟨rfl,hu⟩ := hj
    exact Stopping.run_holds (List.forall_mem_singleton.2 rfl) hu id

/-! ## Instructions -/

/-- A pipeline without entry that does not compile is refused, or too deep. -/
def Launch.Refuses (family : Family ι) (launch : Launch ι) : Prop :=
  ∀ ⦃q : ι⦄ ⦃f : Fault⦄ ⦃w : World ι⦄, (family q).entry = none → family.compile q = .error f →
    w.forest.Faithful family → ∀ o level, launch.invoke q o level w = ⟨.error .tooDeep, w, []⟩ ∨
      launch.invoke q o level w =
        ⟨.error (.fault f), w, family.declaring q ++ [.raised f w.state]⟩

theorem Family.launchWith_refuses (family : Family ι) (depth : Nat) :
    (family.launchWith family.tree depth).Refuses family := by
  intro q f w he hc hw o level
  cases depth with
  | zero => exact Or.inl rfl
  | succ depth => exact Or.inr (Family.invoke_of_flawed hc he hw depth o level)

section

variable {launch : Launch ι} {site : Site ι} {required : List Key} {i : Instruction ι} {u : World ι}

theorem Site.Refusal.enact_alikeAt {f : Fault} {told : List (Event ι)}
    (h : site.Refusal family required u.state i f told) (hr : family.Reaches site i)
    (hu : u.forest.Faithful family) : AlikeAt (raisingRun family S) (· = ·)
      (site.enact family launch required i) (site.enact family launch required i) u u := by
  have hraising : Raising family S u.state f ([] ++ told) := .refused hr h
  exact Exec.alikeAt_of_eq h.enact h.enact
    (.halted (Stopping.run_halts (.of_raising (fun _ => h.isRaised_of_mem_told) hraising) hu))

theorem Site.Flawed.enact_alikeAt {q : ι} {f : Fault}
    (h : site.Flawed family required u.state i q f) (hr : family.Reaches site i)
    (hl : launch.Refuses family) (hu : u.forest.Faithful family) :
    AlikeAt (raisingRun family S) (· = ·) (site.enact family launch required i)
      (site.enact family launch required i) u u := by
  have henact : ∀ {out : Outcome ι Unit}, site.perform family launch i u = out →
      site.enact family launch required i u = out := by
    intro out hout
    rw [Site.enact_eq, h.lacking]
    exact hout
  have hdispatch : site.dispatch family launch i.role i.options i.handler u =
      launch.invoke q i.options (site.level + 1) u := Site.dispatch_of_standsFor h.standsFor _ _
  rcases hl h.entry h.compile hu i.options (site.level + 1) with hi | hi
  · have hx := henact (Site.perform_of_error h.leaf (hdispatch.trans hi))
    refine Exec.alikeAt_of_eq hx hx (.halted (Stopping.run_halts ?_ hu))
    rw [List.append_nil]
    exact Site.isRaised_of_mem_announcement
  · have hx := henact (Site.perform_of_error h.leaf (hdispatch.trans hi))
    rw [← List.append_assoc] at hx
    have hraising : Raising family S u.state f
        ([] ++ (site.announcement family i u.state ++ family.declaring q)) := .nested hr h
    refine Exec.alikeAt_of_eq hx hx
      (.halted (Stopping.run_halts (.of_raising (fun e he => ?_) hraising) hu))
    exact (List.mem_append.1 he).elim (Site.isRaised_of_mem_announcement e)
      (Family.isRaised_of_mem_declaring e)

/-- What an instruction that is not refused runs meets no fault or is stopped by one. -/
theorem Family.Reaches.perform_alikeAt (hf : ∀ q, (family q).All (Program.Passes S))
    (hr : family.Reaches site i) (hl : launch.Alike (raisingRun family S) launch)
    (hallowed : ∀ f told, ¬ site.Refusal family required u.state i f told)
    (hc : Alike (raisingRun family S) (· = ·) (site.deeper.traverse family launch [] i.children)
      (site.deeper.traverse family launch [] i.children))
    (hu : u.forest.Faithful family) (hfail : u.state.failed = i.isFailure) :
    AlikeAt (raisingRun family S) (· = ·) (site.perform family launch i)
      (site.perform family launch i) u u := by
  have hg := raisingRun_governs hf
  have hs : (raisingRun family S).Sites site site := ⟨rfl,hr.settings⟩
  have hi : (raisingRun family S).Runs site site i i := ⟨rfl,hr.has⟩
  have hj : (raisingRun family S).Joined u u := ⟨rfl,hu⟩
  have hleaf : i.isStep = true ∨ i.isFailure = true → AlikeAt (raisingRun family S) (· = ·)
      (site.perform family launch i) (site.perform family launch i) u u := by
    intro hk
    refine hg.perform_leaf_alikeAt hl hs hi hk (fun entry hn => ?_) hj hfail
    obtain ⟨registration,hx⟩ := Site.resolve_of_not_refusal hallowed hk hn
    rintro v _ ⟨rfl,hv⟩
    exact Exec.alikeAt_of_eq (hx v) (hx v) (.ok rfl ((raisingRun family S).refl ⟨rfl,hv⟩))
  cases i with
  | step h o => exact hleaf (Or.inl rfl)
  | failure h o => exact hleaf (Or.inr rfl)
  | wrap h o children =>
    rw [Site.perform_wrap]
    exact hg.surround_alikeAt hl hs hi hc hj hfail
  | gate g =>
    have hx := site.perform_gate family launch g u
    rw [Gate.check_apply, Site.missing?_of_not_refusal hallowed rfl, List.append_nil] at hx
    exact Exec.alikeAt_of_eq hx hx
      (.ok rfl (Stopping.run_holds Site.isRaised_of_mem_announcement hu id))

/-- An instruction is refused when it is reached, or stands for a pipeline that does not compile,
or else it is performed. -/
theorem Family.Reaches.enact_alikeAt (hf : ∀ q, (family q).All (Program.Passes S))
    (hr : family.Reaches site i)
    (hl : launch.Alike (raisingRun family S) launch) (hrefuses : launch.Refuses family)
    (hc : Alike (raisingRun family S) (· = ·) (site.deeper.traverse family launch [] i.children)
      (site.deeper.traverse family launch [] i.children))
    (hu : u.forest.Faithful family) (hfail : u.state.failed = i.isFailure) :
    AlikeAt (raisingRun family S) (· = ·) (site.enact family launch required i)
      (site.enact family launch required i) u u := by
  by_cases hrefused : ∃ f told, site.Refusal family required u.state i f told
  · obtain ⟨f,told,h⟩ := hrefused
    exact h.enact_alikeAt hr hu
  by_cases hflawed : ∃ q f, site.Flawed family required u.state i q f
  · obtain ⟨q,f,h⟩ := hflawed
    exact h.enact_alikeAt hr hrefuses hu
  have hallowed : ∀ f told, ¬ site.Refusal family required u.state i f told :=
    fun f told h => hrefused ⟨f,told,h⟩
  rw [Site.enact_eq, Site.lacking?_of_not_refusal hallowed]
  exact hr.perform_alikeAt hf hl hallowed hc hu hfail

end

/-! ## Runs -/

/-- A fault that the outcome ends with was raised and passed on; if it ends otherwise, there was
none. -/
structure Outcome.Stops {α : Type} (family : Family ι) (S : Fault → Prop)
    (out : Outcome ι α) : Prop where
  raised (f : Fault) : out.result = .error (.fault f) →
    Raised family S f out.events out.world.state
  calm : (∀ f, out.result ≠ .error (.fault f)) → ∀ e ∈ out.events, e.isRaised = false

theorem Outcome.Alike.stops {α β : Type} {r : α → β → Prop} {u v : World ι} {out : Outcome ι α}
    {out' : Outcome ι β} (h : out.Alike (raisingRun family S) r u v out') :
    out.Stops family S := by
  cases h with
  | ok _ hh => exact ⟨by simp,fun _ => hh.2.1⟩
  | @halted halt _ _ _ _ hh =>
    cases halt with
    | tooDeep => exact ⟨by simp,fun _ => hh.2.2⟩
    | fault f =>
      refine ⟨fun g hg => ?_,fun hn => absurd rfl (hn f)⟩
      cases hg
      exact hh.2.2
  | first h => exact h.elim
  | second h => exact h.elim

theorem raisingRun_tree (q : ι) : Alike (raisingRun family S) (Tree.Alike (raisingRun family S) q)
    (family.tree q) (family.tree q) := by
  have hflawed : ∀ f, family.compile q = .error f → ∀ s, (unraised family S).Stopped (.fault f) s
      (family.declaring q ++ [.raised f s]) := by
    intro f hc s
    have hraising : Raising family S s f ([] ++ family.declaring q) := .flawed hc
    exact .of_raising Family.isRaised_of_mem_declaring hraising
  intro u v hj
  refine ((unraised_admits family S).tree_compiled q hflawed hj).imp ?_
  rintro tree _ ⟨rfl,hc⟩
  exact Stopping.run_tree_self hc

section

variable (hf : ∀ q, (family q).All (Program.Passes S))
include hf

theorem raisingRun_launch (depth : Nat) : (family.launchWith family.tree depth).Alike
    (raisingRun family S) (family.launchWith family.tree depth) := by
  have hg := raisingRun_governs hf
  have hstarts : (raisingRun family S).Starts family.tree family.tree := by
    refine Likeness.starts_of_need raisingRun_tree ?_
    rintro u v ⟨rfl,hu⟩ q level
    exact Stopping.run_holds (List.forall_mem_singleton.2 rfl) hu id
  induction depth with
  | zero => exact ⟨fun _ _ => Exec.alike_tooDeep,fun _ _ _ => Exec.alike_tooDeep⟩
  | succ depth ih =>
    have hrun : ∀ q level, Alike (raisingRun family S) (· = ·)
        (family.runWith (family.launchWith family.tree depth) family.tree q level)
        (family.runWith (family.launchWith family.tree depth) family.tree q level) := by
      intro q level
      refine (hstarts q level).bind fun {t t'} ht => hg.round_alike ih q level ?_
      rw [← ht.roots, Site.traverse_eq_walk, Site.traverse_eq_walk]
      refine family.stage.walk_alike (fun s => s.enact family _) (fun s => s.enact family _)
        (fun hs _ _ hj => hg.cascading hs hj) ?_ (ht.sites level) (ht.runs level) []
      intro site site' i hs hi hc keys u v hj hfail
      obtain ⟨rfl,hu⟩ := hj
      cases hs.1
      rw [← Site.traverse_eq_walk] at hc
      exact (Family.reaches hs hi).enact_alikeAt hf ih (family.launchWith_refuses depth) hc hu hfail
    rw [family.launchWith_succ]
    exact ⟨hrun,hg.invokeBy_alike ih hrun⟩

theorem session_raised (depth : Nat) (turns : List (Turn ι)) (s : State)
    {out : Outcome ι (Answer ι)} (h : out ∈ session family depth turns { state := s }) :
    out.Stops family S := by
  have hj : (raisingRun family S).Joined { state := s } { state := s } :=
    ⟨rfl,Forest.faithful_nil⟩
  have hr : (raisingRun family S).Resumes := by
    rintro u v t ⟨rfl,hu⟩
    exact ⟨rfl,hu⟩
  have hall := sessionBy_alike (raisingRun_launch hf depth) hr raisingRun_tree id id turns hj
  rw [← session_eq] at hall
  obtain ⟨u,v,ho⟩ := List.forall₂_same.1 hall out h
  exact ho.stops

end

/-- If all handlers pass on the faults that they meet, a fault is raised by one act of the session
and stops it: nothing else happens after it and the state stays. An instruction that is refused
leaves the world as it was when it was reached. A wrap that gives a result ends no more than itself,
also if its handler has caught a fault. -/
theorem session_stops (family : Family ι) :
    (∀ S : Fault → Prop, (∀ q, (family q).All (Program.Passes S)) → ∀ depth turns s,
      ∀ out ∈ session family depth turns { state := s }, out.Stops family S) ∧
    (∀ (site : Site ι) launch required i w f told, site.Refusal family required w.state i f told →
      site.enact family launch required i w =
        ⟨.error (.fault f), w, told ++ [.raised f w.state]⟩) ∧
    (∀ (site : Site ι) depth required i w q f, site.Flawed family required w.state i q f →
      w.forest.Faithful family →
      site.enact family (family.launchWith family.tree (depth + 1)) required i w =
        ⟨.error (.fault f), w, site.announcement family i w.state ++
          (family.declaring q ++ [.raised f w.state])⟩) ∧
    ∀ (site : Site ι) launch required handler o children rest w w' result runs events,
      w.state.failed = false →
      handler.wrap family launch o (site.deeper.traverse family launch [] children) w =
        ⟨.ok (result, runs), w', events⟩ →
      site.traverse family launch required (.wrap handler o children :: rest) w =
        (site.traverse family launch required rest w').prepend
          (site.announcement family (.wrap handler o children) w.state ++ (events ++
            [.returned site.pipeline site.level (.wrap handler o children) result])) := by
  refine ⟨fun S hf depth turns s out h => session_raised hf depth turns s h,?_,?_,?_⟩
  · intro site launch required i w f told h
    exact h.enact
  · intro site depth required i w q f h hw
    exact Site.enact_of_flawed h.leaf h.lacking h.standsFor h.entry h.compile hw depth
  · intro site launch required handler o children rest w w' result runs events hw h
    exact site.traverse_wrap required hw h rest

/-- Runs its continuation, and raises the fault again if there is one. -/
def passing : Program Bool := .attempt .next fun
  | .ok v => .done v
  | .error f => .raise f

def absent : Declaration Bool := .step (.named "absent") .empty

/-- Two wraps around a name, at the top and in a pipeline that is nested, and no container. -/
def orphans : Family Bool := fun inner =>
  { name := if inner then "inner" else "outer"
    declarations := if inner then [.wrap (.around passing) .empty [absent]]
      else [.wrap (.around passing) .empty [.step (.pipeline true) .empty], absent] }

theorem orphans_pass (q : Bool) : (orphans q).All (Program.Passes fun _ => False) := by
  have hpassing : Program.Passes (fun _ => False) passing := by
    refine ⟨⟨fun _ => trivial,fun _ => rfl⟩,fun r hr => ?_⟩
    cases r with
    | ok v => trivial
    | error f => exact hr f rfl
  refine ⟨fun d hd => ?_,nofun,nofun⟩
  cases q with
  | false =>
    have hd : d ∈ [Declaration.wrap (.around passing) .empty [.step (.pipeline true) .empty],
      .step (.pipeline true) .empty, absent] := hd
    simp only [List.mem_cons, List.not_mem_nil, or_false] at hd
    rcases hd with rfl | rfl | rfl
    · exact hpassing
    · trivial
    · trivial
  | true =>
    have hd : d ∈ [Declaration.wrap (.around passing) .empty [absent], absent] := hd
    simp only [List.mem_cons, List.not_mem_nil, or_false] at hd
    rcases hd with rfl | rfl
    · exact hpassing
    · trivial

/-- Goes on whatever its continuation comes to. -/
def catching : Handler Bool := .around (.attempt .next fun _ => .done (.bool true))

theorem session_stops_orphans :
    let turns : List (Turn Bool) := [.request id (.run false 0)]
    let told := fun out : Outcome Bool (Answer Bool) => out.events.filterMap fun
      | .executing q level _ _ => some (some (q, level))
      | .raised _ _ => some none
      | _ => none
    let site : Site Bool := ⟨false, {}, 0⟩
    let launch := orphans.launchWith orphans.tree 0
    let lost : List (Instruction Bool) := [.step (.named "absent") .empty]
    (session orphans 2 turns {}).map told =
      [[some (false, 0), some (false, 1), some (true, 2), some (true, 3), none, none, none]] ∧
    (∀ out ∈ session orphans 2 turns {}, out.Stops orphans fun _ => False) ∧
    ∃ events, catching.wrap orphans launch .empty (site.deeper.traverse orphans launch [] lost) {} =
        ⟨.ok (.bool true, 1), {}, events⟩ ∧
      site.traverse orphans launch [] (.wrap catching .empty lost :: lost) {} =
        (site.traverse orphans launch [] lost {}).prepend
          (site.announcement orphans (.wrap catching .empty lost) .empty ++ (events ++
            [.returned false 0 (.wrap catching .empty lost) (.bool true)])) := by
  intro turns told site launch lost
  obtain ⟨hstops,_,_,hwrap⟩ := session_stops orphans
  refine ⟨by decide +kernel,hstops _ orphans_pass 2 turns .empty,_,rfl,?_⟩
  exact hwrap site launch [] catching .empty lost lost {} {} (.bool true) 1 _ rfl rfl

end Cascade
