import Cascade.Proofs.Leeway.Run

/-! # Options are for handlers

Of the options of an instruction the run looks at the two rules and at the names of those that are
there. So if handlers do not look at them either, two families that agree in so much go the same
way: the same instructions are executed in the same states, with the same results. All that differs
are the options that are shown, in records and in faults that tell of a missing one.
-/
namespace Cascade

variable {ι : Type}

def Leeway.agreeing : Leeway where
  Levels := (· = ·)
  Opts := Options.Agree
  deeper := Leeway.deeper_of_eq
  refl := Options.Agree.refl
  agree := id

/-! ## Handlers that do not look -/

/-- The program does the same, whatever options a fault shows that it catches. -/
def Program.Blind (p : Program ι) : Prop := p.UpTo .agreeing (fun _ => True) p

/-- No handler of the family does anything else for other options that agree, whether they are its
own or shown by a fault that it catches. -/
structure Family.Blind (family : Family ι) : Prop where
  handler {q : ι} {i : Instruction ι} (h : family.Has q i) :
    i.handler.Suits .agreeing fun _ => True
  entry {q : ι} {c : Callable ι} (h : (family q).entry = some c) : c.Suits .agreeing fun _ => True
  around {q : ι} {c : Callable ι} (h : (family q).around = some c) :
    c.Suits .agreeing fun _ => True

/-- The program goes on in the same way, whatever options a fault shows that it catches. -/
def Program.IgnoresTexts : Program ι → Prop
  | done _ | raise _ => True
  | read rest => ∀ s, (rest s).IgnoresTexts
  | change _ rest => rest.IgnoresTexts
  | count rest => ∀ n, (rest n).IgnoresTexts
  | call _ rest => ∀ v, (rest v).IgnoresTexts
  | attempt _ rest => (∀ r, (rest r).IgnoresTexts) ∧
    ∀ key text text', rest (.error (.missingOption key text)) =
      rest (.error (.missingOption key text'))

theorem Call.upTo_agreeing (c : Call ι) : c.UpTo .agreeing (fun _ => True) c := by
  cases c with
  | next => exact .next
  | run q level => exact .run trivial rfl
  | invoke q o level => exact .invoke trivial (.refl o) rfl

theorem Program.IgnoresTexts.blind {p : Program ι} (h : p.IgnoresTexts) : p.Blind := by
  unfold Blind
  induction p with
  | done v => exact .done v
  | raise f => exact .raise (.refl f)
  | read _ ih => exact .read fun s => ih s (h s)
  | change c _ ih => exact .change c (ih h)
  | count _ ih => exact .count fun n => ih n (h n)
  | call c _ ih => exact .call c.upTo_agreeing fun v => ih v (h v)
  | attempt c rest ih =>
    refine .attempt c.upTo_agreeing fun r r' hr => ?_
    cases hr with
    | ok v => exact ih _ (h.1 _)
    | error hf =>
      cases hf with
      | refl f => exact ih _ (h.1 _)
      | missingOption key _ =>
        rw [h.2]
        exact ih _ (h.1 _)

theorem Callable.suits_of_ignores {c : Callable ι} (hc : ∀ o o', c.program o = c.program o')
    (hp : ∀ o, (c.program o).IgnoresTexts) : c.Suits .agreeing fun _ => True := by
  intro o o' _
  rw [hc o o']
  exact (hp o').blind

/-- So much is enough: no callable has another program for other options, and no program goes on
otherwise for other options shown. -/
theorem Family.blind_of_ignores {family : Family ι}
    (hp : ∀ q, (family q).All Program.IgnoresTexts)
    (hm : ∀ {q i m}, family.Has q i → i.handler = .method m →
      ∀ o o', m.callable.program o = m.callable.program o')
    (hc : ∀ {q c}, (family q).entry = some c ∨ (family q).around = some c →
      ∀ o o', c.program o = c.program o') : family.Blind where
  handler {q i} hi := by
    have hall := hi.all (hp q)
    have hmethod := fun m => hm (m := m) hi
    cases h : i.handler with
    | function p | around p =>
      rw [h] at hall
      exact Program.IgnoresTexts.blind hall
    | method m =>
      rw [h] at hall
      exact Callable.suits_of_ignores (hmethod m h) hall
    | pipeline _ | noop | named _ => trivial
  entry {q c} h := Callable.suits_of_ignores (hc (Or.inl h)) fun o => (hp q).entry c o h
  around {q c} h := Callable.suits_of_ignores (hc (Or.inr h)) fun o => (hp q).around c o h

/-! ## Families that agree -/

/-- The families are equal but for options, and these agree. -/
structure Family.SameButOptions (family family' : Family ι) : Prop where
  name (q : ι) : (family q).name = (family' q).name
  entry (q : ι) : (family q).entry = (family' q).entry
  around (q : ι) : (family q).around = (family' q).around
  declarations (q : ι) :
    Declaration.UpTo Options.Agree (family q).declarations (family' q).declarations

/-- Two turns come to the same: to an answer, to a fault, or too deep; in the same state, with the
same events. All of this is up to options that are shown. -/
structure Outcome.SameButOptions (out out' : Outcome ι (Answer ι)) : Prop where
  result : (∃ a a', out.result = .ok a ∧ out'.result = .ok a' ∧ a.UpTo Options.Agree a') ∨
    (∃ f f', out.result = .error (.fault f) ∧ out'.result = .error (.fault f') ∧
      f.UpTo Options.Agree f') ∨
    out.result = .error .tooDeep ∧ out'.result = .error .tooDeep
  state : out.world.state = out'.world.state
  events : List.Forall₂ (Event.UpTo .agreeing) out.events out'.events

variable {family family' : Family ι}

theorem Family.SameButOptions.upTo (hs : family.SameButOptions family') (hb : family.Blind) :
    family.UpTo .agreeing (fun _ _ => True) family' where
  name := hs.name
  entry := hs.entry
  around := hs.around
  declarations := hs.declarations
  entry_suits := hb.entry
  around_suits := hb.around
  handler_suits := hb.handler
  registered _ _ _ _ := trivial
  trans _ _ := trivial

variable [DecidableEq ι]

def Simulation.blind (family family' : Family ι) : Simulation ι where
  toLeeway := .agreeing
  Forests f g := f.Faithful family ∧ g.Faithful family' ∧ f.built = g.built
  Told := List.Forall₂ (Event.UpTo .agreeing)
  tires := True
  told_nil := .nil
  told_append h h' := List.rel_append h h'
  told_one h := .cons h .nil

theorem Simulation.blind_needs (hs : family.SameButOptions family') (hb : family.Blind) :
    (Simulation.blind family family').Needs family family.tree family'.tree := by
  refine Simulation.Grows.needs (hs.upTo hb) ⟨fun h => ⟨h.1,h.2.1⟩,?_,?_⟩
  · intro f g h q t t' hc hc'
    exact ⟨h.1.cons hc,h.2.1.cons hc',congrArg (q :: ·) h.2.2⟩
  · intro f g h q t t' _ _
    rw [h.2.2]
    exact Or.inl Iff.rfl

theorem Outcome.Paired.sameButOptions {out out' : Outcome ι (Answer ι)}
    (h : out.Paired (.blind family family') (Answer.UpTo Options.Agree) out') :
    out.SameButOptions out' := by
  obtain ⟨result,w,d⟩ := out
  obtain ⟨result',w',d'⟩ := out'
  obtain ⟨hends,htold,hjoined⟩ := h
  refine ⟨?_,hjoined.1,htold⟩
  cases hends with
  | ok ha => exact Or.inl ⟨_,_,rfl,rfl,ha⟩
  | fault hf => exact Or.inr (Or.inl ⟨_,_,rfl,rfl,hf⟩)
  | tooDeep _ => exact Or.inr (Or.inr ⟨rfl,rfl⟩)

/-- Families that are equal but for options that agree have the same sessions, up to the options
that are shown, if their handlers do not look at options. -/
theorem session_opaque (hs : family.SameButOptions family') (hb : family.Blind) (depth : Nat)
    (turns : List (Turn ι)) {u v : World ι} (hw : u.state = v.state)
    (hu : u.forest.Faithful family) (hv : v.forest.Faithful family')
    (hbuilt : u.forest.built = v.forest.built) :
    List.Forall₂ Outcome.SameButOptions (session family depth turns u)
      (session family' depth turns v) := by
  have hneeds := Simulation.blind_needs hs hb
  have hl := Family.launchWith_paired (hs.upTo hb).toSuits hneeds trivial depth
  have hall := sessionBy_paired hl (fun _ => rfl) hneeds turns ⟨hw,hu,hv,hbuilt⟩
  rw [session_eq, session_eq]
  exact hall.imp fun _ _ ho => ho.sameButOptions

/-- Options stay in agreement when the same one is set to values that are null or truthy alike. -/
theorem Options.Agree.insert {o o' : Options} (h : o.Agree o') (key : String)
    {v v' : Json.Value} (hnull : v.isNull = v'.isNull) (htruthy : v.truthy = v'.truthy) :
    (o.insert key v).Agree (o'.insert key v') := by
  have hflag : ∀ k fallback, o.flag k fallback = o'.flag k fallback →
      (o.insert key v).flag k fallback = (o'.insert key v').flag k fallback := by
    intro k fallback hk
    unfold flag at hk ⊢
    rw [get?_insert, get?_insert]
    by_cases hkey : key = k
    · rw [if_pos hkey, if_pos hkey]
      exact htruthy
    · rw [if_neg hkey, if_neg hkey]
      exact hk
  refine ⟨hflag _ _ h.fail,hflag _ _ h.failFast,fun k => ?_⟩
  have hk := h.contains k
  unfold Options.contains at hk ⊢
  rw [get?_insert, get?_insert]
  by_cases hkey : key = k
  · rw [if_pos hkey, if_pos hkey]
    exact congrArg (! ·) hnull
  · rw [if_neg hkey, if_neg hkey]
    exact hk

/-- Goes on whatever its continuation comes to. -/
def shrugging : Program Unit := .attempt .next fun _ => .done (.bool true)

/-- A wrap whose second step lacks an option that is needed in it. -/
def labelled (label : String) : Family Unit := fun _ =>
  { name := "p", declarations := [.debug true, .wrap (.around shrugging) .empty
    [.dependsOn .options ["size"],
      .step (.function (.done .null)) ((Options.empty.insert "fail" (.bool false)).insert "size"
        (.string label)),
      .step (.function (.done .null)) (Options.empty.insert "label" (.string label))]] }

theorem labelled_sameButOptions (label label' : String) :
    (labelled label).SameButOptions (labelled label') where
  name _ := rfl
  entry _ := rfl
  around _ := rfl
  declarations _ :=
    .same _ (.wrap _ (.refl _)
      (.same _ (.step _ (.insert (.refl _) "size" rfl rfl)
        (.step _ (.insert (.refl _) "label" rfl rfl) .nil))) .nil)

theorem labelled_blind (label : String) : (labelled label).Blind := by
  refine Family.blind_of_ignores (fun _ => ⟨?_,nofun,nofun⟩) ?_ nofun
  · have hshrugging : shrugging.IgnoresTexts := ⟨fun _ => trivial,fun _ _ _ => rfl⟩
    exact List.forall_mem_cons.2 ⟨trivial,List.forall_mem_cons.2 ⟨hshrugging,
      List.forall_mem_cons.2 ⟨trivial,List.forall_mem_cons.2 ⟨trivial,
        List.forall_mem_singleton.2 trivial⟩⟩⟩⟩
  · rintro q i m ⟨tree,ht,hi⟩ hm
    obtain ⟨_,rfl⟩ := ((labelled label).compile_eq_ok_iff q).1 ht
    have hnone : ∀ i ∈ Instruction.nodesOf (Declaration.imageOf (labelled label q).declarations),
        i.handler ≠ .method m :=
      List.forall_mem_cons.2 ⟨nofun,List.forall_mem_cons.2 ⟨nofun,List.forall_mem_cons.2
        ⟨nofun,List.forall_mem_singleton.2 nofun⟩⟩⟩
    exact absurd hm (hnone i hi)

theorem session_opaque_labelled :
    let turns : List (Turn Unit) := [.request id (.run () 0)]
    let raised := fun out : Outcome Unit (Answer Unit) => out.events.filterMap fun
      | .raised (.missingOption key text) _ => some (key, text)
      | _ => none
    (session (labelled "a") 1 turns {}).map raised = [[("size", "\x7b\"label\":\"a\"\x7d")]] ∧
    (session (labelled "b") 1 turns {}).map raised = [[("size", "\x7b\"label\":\"b\"\x7d")]] ∧
    (labelled "a").SameButOptions (labelled "b") ∧ (labelled "a").Blind ∧
    List.Forall₂ Outcome.SameButOptions (session (labelled "a") 1 turns {})
      (session (labelled "b") 1 turns {}) := by
  intro turns raised
  exact ⟨by decide +kernel,by decide +kernel,labelled_sameButOptions _ _,labelled_blind _,
    session_opaque (labelled_sameButOptions _ _) (labelled_blind _) 1 turns rfl
      Forest.faithful_nil Forest.faithful_nil rfl⟩

end Cascade
