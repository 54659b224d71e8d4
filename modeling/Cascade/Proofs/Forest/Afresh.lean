import Cascade.Proofs.Placement
import Cascade.Proofs.Forest.Kept
import Cascade.Proofs.Level.Dispatch

/-! # Keeping trees is not seen

A session goes on as if every tree were built again whenever it is needed: the results, the states
and all that is told are the same, apart from what is told of declaring and compiling.
-/
namespace Cascade

variable {ι : Type}

/-- A session in which each tree that is needed is built. -/
def sessionAfresh (family : Family ι) (depth : Nat) :
    List (Turn ι) → World ι → List (Outcome ι (Answer ι)) :=
  sessionBy (family.launchWith family.build depth) family.build

/-- All that is told in the session. -/
def logOf (outs : List (Outcome ι (Answer ι))) : List (Event ι) := outs.flatMap Outcome.events

variable [DecidableEq ι]

/-! ## Runs -/

/-- A run whose trees are kept, and one whose trees are built again. -/
def keeping (family : Family ι) : Comparison ι where
  Joined u v := u.state = v.state ∧ u.forest.Faithful family
  Holds u _ d e u' v' := Kept family (fun _ => False) u.forest.built d e u'.forest.built ∧
    (u'.state = v'.state ∧ u'.forest.Faithful family) ∧
    (u.state.failed = true → u'.state.failed = true)
  refl h := ⟨.nil _,h,id⟩
  trans h h' := ⟨h.1.append h'.1,h'.2.1,h'.2.2 ∘ h.2.2⟩
  joined h := h.2.1
  state_eq h := h.1
  sticky h := h.2.2

def keepingRun (family : Family ι) : Likeness ι :=
  (keeping family).likeness (.same (· = ·) fun _ _ => True) fun _ => True

variable {family : Family ι}

/-- An event that no need accounts for is told in both runs. -/
theorem keeping_holds {u v : World ι} {e : Event ι} {s : State} (hj : (keeping family).Joined u v)
    (he : e.isNeeding = false) (hs : u.state.failed = true → s.failed = true) :
    (keeping family).Holds u v [e] [e] { u with state := s } { v with state := s } :=
  ⟨.other he (.nil _),⟨rfl,hj.2⟩,hs⟩

theorem keepingRun_tolerant : (keepingRun family).Tolerant := by
  refine Comparison.tolerant (fun _ => trivial) ?_ ?_
  · intro c u v s hj hc
    exact keeping_holds hj rfl (Change.failed_of_apply hc)
  · intro f u v hj _
    rw [hj.1]
    exact ⟨.other rfl (.nil _),hj,id⟩

theorem keepingRun_governs : (keepingRun family).Governs family family where
  toTolerant := keepingRun_tolerant
  signature := rfl
  entry _ := rfl
  around _ := rfl
  entry_suits _ _ := Program.suits_of_forall (fun _ => trivial) _
  around_suits _ _ := Program.suits_of_forall (fun _ => trivial) _
  mates hi := by
    cases hi.1
    exact .refl _
  handler_suits {_ _ i _} _ := i.handler.suits_of_forall fun _ => trivial
  fits _ := Or.inr fun _ => trivial
  container hs _ _ _ _ _ := congrArg Settings.container hs.settings
  announced {site site'} hs i i' hi u v hj _ := by
    cases hi.1
    cases hs.eq
    have hx := site.announce_apply family i u
    have hy := site.announce_apply family i v
    rw [← hj.1] at hy
    refine Exec.alikeAt_of_eq hx hy (.ok rfl ⟨.other rfl ?_,hj,id⟩)
    cases site.settings.debug with
    | true => exact .other rfl (.nil _)
    | false => exact .nil _
  returned {site site'} hs i i' hi u v hj result := by
    cases hi.1
    cases hs.eq
    rw [← hj.1]
    exact keeping_holds hj rfl (i.failed_verdict_of_failed result)
  cascading {site site'} hs u v hj := by
    cases hs.eq
    exact ⟨.other rfl (.nil _),hj,id⟩
  entered hj _ _ := ⟨.other rfl (.nil _),hj,id⟩
  finished hj q level := by
    rw [hj.1]
    exact ⟨.other rfl (.nil _),hj,id⟩

/-- What a need comes to in both runs, whatever is served by it. -/
theorem tree_kept (asks : ι → Prop) (q : ι) {u v : World ι} (hj : (keeping family).Joined u v) :
    (∃ tree u' d e, family.compile q = .ok tree ∧ family.tree q u = ⟨.ok tree, u', d⟩ ∧
      family.build q v = ⟨.ok tree, v, e⟩ ∧ (keeping family).Joined u' v ∧
      u'.state = u.state ∧ ∀ served, Served asks q served →
        Kept family asks u.forest.built (d ++ served) (e ++ served) u'.forest.built) ∨
    ∃ f d, family.tree q u = ⟨.error (.fault f), u, d⟩ ∧
      family.build q v = ⟨.error (.fault f), v, d⟩ ∧
      Kept family asks u.forest.built d d u.forest.built := by
  cases hc : family.compile q with
  | ok tree =>
    refine Or.inl ⟨tree,?_⟩
    have hy := family.build_of_ok hc v
    by_cases hq : q ∈ u.forest.built
    · refine ⟨_,_,_,rfl,Family.tree_of_built hc hj.2 hq,hy,hj,rfl,fun served hs => ?_⟩
      have h := Kept.again hq hc hs (.nil u.forest.built)
      simpa using h
    · refine ⟨_,_,_,rfl,Family.tree_of_not_built hc hq,hy,⟨hj.1,hj.2.cons hc⟩,rfl,
        fun served hs => ?_⟩
      have h := Kept.first hq hc hs (.nil (q :: u.forest.built))
      simpa [Forest.built] using h
  | error f =>
    have hy := family.build_of_error hc v
    rw [← hj.1] at hy
    exact Or.inr ⟨f,_,Family.tree_of_flawed hc hj.2,hy,.flawed hc (.nil _)⟩

theorem keepingRun_starts : (keepingRun family).Starts family.tree family.build := by
  intro q level u v hj
  rcases tree_kept (fun _ => False) q hj with ⟨tree,u',d,e,_,hx,hy,hj',hs,hk⟩ | ⟨f,d,hx,hy,hk⟩
  · have hself : tree.Alike (keepingRun family) q tree :=
      ⟨rfl,fun _ => ⟨rfl,rfl,rfl⟩,fun _ _ _ => ⟨rfl,trivial⟩⟩
    refine Exec.alikeAt_of_eq (Family.start_of_ok hx level) (Family.start_of_ok hy level)
      (.ok hself ⟨hk _ (.run level),hj',fun hf => ?_⟩)
    rw [hs]
    exact hf
  · exact Exec.alikeAt_of_eq (Family.start_of_error hx level) (Family.start_of_error hy level)
      (.halted ⟨⟨hk,hj,id⟩,fun _ _ => trivial⟩)

/-! ## Sessions -/

theorem Turn.exec_kept (depth : Nat) (t : Turn ι) {u v : World ι}
    (hj : (keeping family).Joined u v) :
    (t.exec family depth u).result =
        (t.execBy (family.launchWith family.build depth) family.build v).result ∧
      Kept family (fun q => t = .tree q) u.forest.built (t.exec family depth u).events
        (t.execBy (family.launchWith family.build depth) family.build v).events
        (t.exec family depth u).world.forest.built ∧
      (keeping family).Joined (t.exec family depth u).world
        (t.execBy (family.launchWith family.build depth) family.build v).world := by
  cases t with
  | tree q =>
    simp only [Turn.exec, Turn.execBy, Exec.map_apply]
    rcases tree_kept (fun p => Turn.tree q = .tree p) q hj with
      ⟨tree,u',d,e,_,hx,hy,hj',_,hk⟩ | ⟨f,d,hx,hy,hk⟩
    · rw [hx, hy]
      have hkept := hk [] (.asked rfl)
      rw [List.append_nil, List.append_nil] at hkept
      exact ⟨rfl,hkept,hj'⟩
    · rw [hx, hy]
      exact ⟨rfl,hk,hj⟩
  | request prepare r =>
    have hstarts : (keepingRun family).Starts family.tree family.build := keepingRun_starts
    have hl := keepingRun_governs.launchWith_alike (fun _ => trivial) hstarts depth
    have hr : (keepingRun family).Resumes := fun _ hj => ⟨rfl,hj.2⟩
    have h : ((Turn.request prepare r).execBy (family.launchWith family.tree depth) family.tree
        u).Alike (keepingRun family) (· = ·) _ _ ((Turn.request prepare r).execBy
          (family.launchWith family.build depth) family.build v) :=
      Turn.request_alike hl hr prepare r (fun _ => rfl) hj
    rw [Turn.exec_eq]
    refine ⟨?_,h.holds.1.mono fun _ hq => hq.elim,h.holds.2.1⟩
    obtain ⟨a,b,rfl,hout,hout'⟩ | ⟨halt,hout,hout',_⟩ := h.result
    · rw [hout, hout']
    · rw [hout, hout']

/-- The logs of both sessions, from worlds that are joined. -/
theorem session_kept (depth : Nat) (turns : List (Turn ι)) {u v : World ι}
    (hj : (keeping family).Joined u v) : ∃ built, Kept family (fun q => .tree q ∈ turns)
      u.forest.built (logOf (session family depth turns u))
      (logOf (sessionAfresh family depth turns v)) built := by
  induction turns generalizing u v with
  | nil => exact ⟨_,.nil _⟩
  | cons t rest ih =>
    obtain ⟨_,hk,hw⟩ := t.exec_kept depth hj
    obtain ⟨built,hrest⟩ := ih hw
    refine ⟨built,(hk.mono fun q hq => ?_).append (hrest.mono fun q hq => ?_)⟩
    · simp [hq]
    · simp [hq]

/-- Two turns come to the same, but for what is told of declaring and compiling. -/
structure Outcome.SameUnbuilt (out out' : Outcome ι (Answer ι)) : Prop where
  result : out.result = out'.result
  state : out.world.state = out'.world.state
  events : unbuilding out.events = unbuilding out'.events

theorem session_sameUnbuilt (depth : Nat) (turns : List (Turn ι)) {u v : World ι}
    (hj : (keeping family).Joined u v) : List.Forall₂ Outcome.SameUnbuilt
      (session family depth turns u) (sessionAfresh family depth turns v) := by
  rw [session_eq]
  refine sessionBy_rel (fun t u v hj => ?_) turns hj
  obtain ⟨hresult,hk,hw⟩ := t.exec_kept depth hj
  rw [t.exec_eq] at hresult hk hw
  exact ⟨⟨hresult,hw.1,hk.unbuilding_eq⟩,hw⟩

theorem session_faithful (depth : Nat) (turns : List (Turn ι)) {w : World ι}
    (hw : w.forest.Faithful family) {out : Outcome ι (Answer ι)}
    (h : out ∈ session family depth turns w) : out.world.forest.Faithful family := by
  induction turns generalizing w with
  | nil => cases h
  | cons t rest ih =>
    obtain ⟨_,_,hj⟩ := t.exec_kept depth (u := w) (v := w) ⟨rfl,hw⟩
    rcases List.mem_cons.1 h with rfl | h
    · exact hj.2
    · exact ih hj.2 h

def Turn.asksFor (q : ι) : Turn ι → Nat
  | tree p => if p = q then 1 else 0
  | request .. => 0

/-- A type that compiles is declared afresh whenever a run of it starts or its tree is asked for,
and never else. -/
theorem Turn.countP_declares (depth : Nat) (t : Turn ι) (w : World ι) {q : ι} {tree : Tree ι}
    (hc : family.compile q = .ok tree) :
    let out := t.execBy (family.launchWith family.build depth) family.build w
    out.events.countP (Event.declares q) = out.events.countP (Event.starts q) + t.asksFor q := by
  intro out
  have hj : (keeping family).Joined { w with forest := [] } w := ⟨rfl,Forest.faithful_nil⟩
  obtain ⟨_,hk,_⟩ := t.exec_kept depth hj
  cases t with
  | request prepare r => exact hk.countP_starts_eq hc (by simp)
  | tree p =>
    by_cases hpq : p = q
    · subst hpq
      have hout : out = ⟨.ok (.tree tree), w, family.declaring p ++ [.compiled p]⟩ := by
        show (family.build p >>= fun t => pure (.tree t) : Exec ι (Answer ι)) w = _
        rw [Exec.map_apply, family.build_of_ok hc w]
        rfl
      rw [hout, List.countP_append, List.countP_append, Family.countP_declares_declaring,
        Family.countP_starts_declaring]
      simp [Event.declares, Event.starts, asksFor]
    · have ha : ¬ Turn.tree p = Turn.tree q := fun h => hpq (Turn.tree.inj h)
      rw [asksFor, if_neg hpq]
      exact hk.countP_starts_eq hc ha

/-- What does not compile is declared at each need, raises its fault each time, and is never kept,
compiled or run. -/
structure RefusedAlways (family : Family ι) (q : ι) (f : Fault)
    (outs outs' : List (Outcome ι (Answer ι))) : Prop where
  declared : (logOf outs).countP (Event.declares q) = (logOf outs').countP (Event.declares q)
  raised (before after : List (Event ι)) : logOf outs = before ++ .declaring q :: after →
    ∃ s rest, after = (family.declared q).probes.map .probed ++ .raised f s :: rest
  unkept (out : Outcome ι (Answer ι)) : out ∈ outs → out.world.forest.find? q = none
  uncompiled : .compiled q ∉ logOf outs
  unstarted (level : Level) : .started q level ∉ logOf outs
  unexecuted (level : Level) (i : Instruction ι) (s : State) : .executing q level i s ∉ logOf outs

theorem session_refused (depth : Nat) (turns : List (Turn ι)) (s : State) {q : ι} {f : Fault}
    (hc : family.compile q = .error f) : RefusedAlways family q f
      (session family depth turns { state := s })
      (sessionAfresh family depth turns { state := s }) := by
  have hj : (keeping family).Joined { state := s } { state := s } := ⟨rfl,Forest.faithful_nil⟩
  obtain ⟨_,hk⟩ := session_kept depth turns hj
  have hr := hk.refused hc
  constructor
  · exact hr.countP_declares_eq
  · intro before after h
    exact hr.raised ⟨before,h.symm⟩
  · intro out hout
    cases hq : out.world.forest.find? q with
    | none => rfl
    | some tree =>
      have hw : out.world.forest.Faithful family :=
        session_faithful depth turns Forest.faithful_nil hout
      rw [hw q tree hq] at hc
      cases hc
  · intro h
    cases hr.eq_declaring _ h (by simp [Event.concerns, Event.builds])
  · intro level h
    cases hr.eq_declaring _ h (by simp [Event.concerns, Event.starts])
  · intro level i t h
    obtain ⟨out,hout,he⟩ := List.mem_flatMap.1 h
    have hany := fun q => (family q).raisesOnly_of_forall (S := fun _ => True) fun _ => trivial
    have hplaced := session_placed (fun _ _ => trivial) hany depth turns s hout
    obtain ⟨tree,ht,_⟩ := hplaced.1 _ he
    rw [ht] at hc
    cases hc

/-- Keeping trees is not seen. A session has the same results, faults, states and records as one in
which every tree that is needed is declared and compiled again. What compiles is declared once, at
its first need, and compiled before it is run. What does not is declared and refused at each need.
Trees are needed where they are asked for and where runs start. A pipeline with an entry, an around
entry or a name in a container needs none to be dispatched by these, nor to be named in other
declarations; and one that does not compile is refused where an instruction invokes it. -/
theorem session_afresh (family : Family ι) (depth : Nat) (turns : List (Turn ι)) (s : State) :
    let outs := session family depth turns { state := s }
    let outs' := sessionAfresh family depth turns { state := s }
    List.Forall₂ Outcome.SameUnbuilt outs outs' ∧
    (∀ q tree, family.compile q = .ok tree →
      FirstNeed family q (logOf outs) (logOf outs') ∨ Unneeded q (logOf outs) (logOf outs')) ∧
    (∀ q f, family.compile q = .error f → RefusedAlways family q f outs outs') ∧
    (∀ (t : Turn ι) w q tree, family.compile q = .ok tree →
      let out := t.execBy (family.launchWith family.build depth) family.build w
      out.events.countP (Event.declares q) =
        out.events.countP (Event.starts q) + t.asksFor q) ∧
    (∀ need q o level, (∀ c, (family q).entry = some c →
        (family.launchWith need (depth + 1)).invoke q o level =
          enter (family.launchWith need depth) q c o) ∧
      ((family q).entry = none → (family.launchWith need (depth + 1)).invoke q o level = do
        (family.launchWith need (depth + 1)).run q level
        return .bool (← Exec.state).successful) ∧
      (family.launchWith need (depth + 1)).run q level = do
        (← need q).run family (family.launchWith need depth) q level) ∧
    (∀ launch q c o children, (family q).around = some c →
      (Handler.pipeline q).wrap family launch o children =
        (c.program o).exec launch (some children) 0) ∧
    (∀ (family' : Family ι) q, family.signature = family'.signature →
      (family q).declarations = (family' q).declarations →
      family.compile q = family'.compile q) ∧
    ∀ (site : Site ι) required i q f w, i.isStep = true ∨ i.isFailure = true →
      i.lacking? required = none → i.handler.StandsFor site.settings.container w.state q →
      (family q).entry = none → family.compile q = .error f → w.forest.Faithful family →
      site.enact family (family.launchWith family.tree (depth + 1)) required i w =
        ⟨.error (.fault f), w, site.announcement family i w.state ++
          (family.declaring q ++ [.raised f w.state])⟩ := by
  intro outs outs'
  have hj : (keeping family).Joined { state := s } { state := s } := ⟨rfl,Forest.faithful_nil⟩
  refine ⟨?_,?_,?_,?_,?_,?_,?_,?_⟩
  · exact session_sameUnbuilt depth turns hj
  · intro q tree hc
    obtain ⟨_,hk⟩ := session_kept depth turns hj
    exact hk.first_need hc (by simp [Forest.built])
  · intro q f hc
    exact session_refused depth turns s hc
  · intro t w q tree hc
    exact t.countP_declares depth w hc
  · intro need q o level
    refine ⟨fun c hq => ?_,fun hq => ?_,rfl⟩
    · show family.invokeWith _ need q o level = _
      unfold Family.invokeWith
      rw [hq]
    · show family.invokeWith _ need q o level = _
      unfold Family.invokeWith
      rw [hq]
      simp only [Family.launchWith, Exec.bind_assoc]
  · intro launch q c o children hq
    show family.invokeAround launch q o children = _
    unfold Family.invokeAround
    rw [hq]
  · intro family' q hsig hdecl
    unfold Family.compile Family.declared
    rw [hsig, hdecl]
  · intro site required i q f w hi hl hq he hc hw
    exact Site.enact_of_flawed hi hl hq he hc hw depth

end Cascade
