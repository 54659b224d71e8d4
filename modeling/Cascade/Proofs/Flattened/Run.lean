import Cascade.Proofs.Flattened.Declared
import Cascade.Proofs.Inlined.Run
import Cascade.Proofs.Leeway.Run

/-! # Flattening a wrap

A run does the same if wraps that only run their continuation are flattened. Where a child fails,
both runs go over to the same failure handlers: those after the wrap, as there are none after the
child. What is moved is executed on other levels, and so is what it starts, but nothing else is.
-/
namespace Cascade

open Json (Value)
open Exec (Paired)
open Instruction (nodesOf inForce inForce_append)

variable {ι : Type}

/-! ## Levels in two parts -/

/-- What instructions and handlers do, and what they give back. -/
def Event.isDeed : Event ι → Bool
  | executing .. | returned .. | changed _ | entered .. => true
  | _ => false

/-- The deeds among the events. -/
def Event.deeds (events : List (Event ι)) : List (Event ι) := events.filter isDeed

theorem Event.deeds_append (d e : List (Event ι)) : deeds (d ++ e) = deeds d ++ deeds e :=
  List.filter_append d e

theorem Event.deeds_of_silent {events : List (Event ι)} (h : ∀ e ∈ events, e.isDeed = false) :
    deeds events = [] := List.filter_eq_nil_iff.2 fun e he => by simp [h e he]

theorem Site.deeds_announcement (family : Family ι) (site : Site ι) (i : Instruction ι)
    (s : State) : Event.deeds (site.announcement family i s) =
      [.executing site.pipeline site.level i s] := by
  unfold announcement
  cases site.settings.debug <;> rfl

/-- Both come to the same, by the same deeds. -/
structure Outcome.ActsAs {α : Type} (out out' : Outcome ι α) : Prop where
  result : out.result = out'.result
  world : out.world = out'.world
  deeds : Event.deeds out.events = Event.deeds out'.events

namespace Outcome.ActsAs

variable {α β : Type} {out out' out'' : Outcome ι α}

theorem refl (out : Outcome ι α) : out.ActsAs out := ⟨rfl,rfl,rfl⟩

theorem symm (h : out.ActsAs out') : out'.ActsAs out :=
  ⟨h.result.symm,h.world.symm,h.deeds.symm⟩

theorem trans (h : out.ActsAs out') (h' : out'.ActsAs out'') : out.ActsAs out'' :=
  ⟨h.result.trans h'.result,h.world.trans h'.world,h.deeds.trans h'.deeds⟩

/-- What comes after an execution may be replaced by what acts as it. -/
theorem bind {f g : α → Exec ι β} (h : ∀ a w, (f a w).ActsAs (g a w)) (x : Exec ι α)
    (w : World ι) : ((x >>= f) w).ActsAs ((x >>= g) w) := by
  rcases hx : x w with ⟨halt | a,v,events⟩
  · rw [Exec.bind_of_error hx, Exec.bind_of_error hx]
    exact .refl _
  · rw [Exec.bind_of_ok hx, Exec.bind_of_ok hx]
    refine ⟨(h a v).result,(h a v).world,?_⟩
    rw [Event.deeds_append, Event.deeds_append, (h a v).deeds]

/-- So may an execution be left out that tells of no deeds. -/
theorem bind_of_silent {x : Exec ι α} {f : α → Exec ι β} {w : World ι} {a : α}
    {events : List (Event ι)} (hx : x w = ⟨.ok a, w, events⟩)
    (he : ∀ e ∈ events, e.isDeed = false) : ((x >>= f) w).ActsAs (f a w) := by
  rw [Exec.bind_of_ok hx]
  refine ⟨rfl,rfl,?_⟩
  rw [Event.deeds_append, Event.deeds_of_silent he, List.nil_append]

end Outcome.ActsAs

/-- No failure handlers are among what is moved. -/
theorem Instruction.cascade_append {cs : List (Instruction ι)} (hc : ∀ i ∈ cs, i.Movable)
    (is : List (Instruction ι)) : cascade (cs ++ is) = cascade is := by
  unfold cascade
  rw [List.filter_append, filter_of_movable hc, List.nil_append]

namespace Site

variable (site : Site ι) (enact : List Key → Instruction ι → Exec ι Unit) (required : List Key)

/-- In a failed state a level is its cascade. -/
theorem walk_of_failed (is : List (Instruction ι)) {w : World ι} (hw : w.state.failed = true) :
    (site.walk enact required is w).ActsAs
      ((Instruction.cascade is).forM (enact required) w) := by
  cases is with
  | nil => exact .refl _
  | cons i rest =>
    rw [walk_cons, if_pos hw]
    exact .bind_of_silent (Exec.emit_apply _ w) (List.forall_mem_singleton.2 rfl)

/-- A level that begins with movable instructions does these on a level of their own, and then the
rest. If one of them fails the state, the cascade is that of the rest in either case. -/
theorem walk_append {cs : List (Instruction ι)} (hc : ∀ i ∈ cs, i.Movable)
    (is : List (Instruction ι)) (w : World ι) :
    (site.walk enact required (cs ++ is) w).ActsAs
      ((site.walk enact required cs >>= fun _ => site.walk enact required is) w) := by
  induction cs generalizing w with
  | nil => exact .refl _
  | cons i rest ih =>
    have hi := hc i List.mem_cons_self
    have hrest := ih fun j hj => hc j (List.mem_cons_of_mem i hj)
    cases hw : w.state.failed with
    | true =>
      have hnone : Instruction.cascade (i :: rest) = [] := by
        rw [← List.append_nil (i :: rest), Instruction.cascade_append hc]
        rfl
      have hfirst : site.walk enact required (i :: rest) w =
          ⟨.ok (), w, [.cascading site.pipeline site.level]⟩ := by
        rw [walk_cons, if_pos hw, hnone]
        rfl
      have hwhole := site.walk_of_failed enact required (i :: rest ++ is) hw
      rw [Instruction.cascade_append hc] at hwhole
      exact hwhole.trans ((Outcome.ActsAs.bind_of_silent hfirst
        (List.forall_mem_singleton.2 rfl)).trans (site.walk_of_failed enact required is hw)).symm
    | false =>
      have hfirst : site.walk enact required (i :: rest) w =
          (enact required i >>= fun _ => site.walk enact required rest) w := by
        rw [walk_cons, hw, hi.isFailure, hi.requiredAfter]
        rfl
      have hwhole : site.walk enact required (i :: rest ++ is) w =
          (enact required i >>= fun _ => site.walk enact required (rest ++ is)) w := by
        rw [List.cons_append, walk_cons, hw, hi.isFailure, hi.requiredAfter]
        rfl
      have hboth : (site.walk enact required (i :: rest) >>= fun _ =>
          site.walk enact required is) w = (enact required i >>= fun _ =>
            site.walk enact required rest >>= fun _ => site.walk enact required is) w := by
        rw [← Exec.bind_assoc, Exec.bind_apply, hfirst, ← Exec.bind_apply]
      rw [hwhole, hboth]
      exact .bind (fun _ => hrest) _ w

end Site

/-! ## What may differ -/

/-- The same instruction, but for what is flattened among its children. -/
inductive Instruction.Kept (family : Family ι) (lifted : Instruction ι → Prop) :
    Instruction ι → Instruction ι → Prop where
  | same (i : Instruction ι) : Kept family lifted i i
  | wrap (h : Handler ι) (o : Options) {children children' : List (Instruction ι)}
    (hc : Flattens family lifted [] children children') :
    Kept family lifted (.wrap h o children) (.wrap h o children')

/-- The same deeds in the same order. Those of the first list may be told at most `k` levels deeper;
it has lifted wraps besides, and what is done within these may be told another level deeper. A wrap
that is halted does not return. -/
inductive Event.Flattens (family : Family ι) (lifted : ι → Instruction ι → Prop) :
    Nat → List (Event ι) → List (Event ι) → Prop where
  | nil {k : Nat} : Flattens family lifted k [] []
  | executing {k : Nat} {q : ι} {m n : Level} {i i' : Instruction ι} {d e : List (Event ι)}
    (hm : m.Below k n) (hi : i.Kept family (lifted q) i') (s : State)
    (h : Flattens family lifted k d e) :
    Flattens family lifted k (.executing q m i s :: d) (.executing q n i' s :: e)
  | returned {k : Nat} {q : ι} {m n : Level} {i i' : Instruction ι} {d e : List (Event ι)}
    (hm : m.Below k n) (hi : i.Kept family (lifted q) i') (result : Value)
    (h : Flattens family lifted k d e) :
    Flattens family lifted k (.returned q m i result :: d) (.returned q n i' result :: e)
  | changed {k : Nat} (c : Change) {d e : List (Event ι)} (h : Flattens family lifted k d e) :
    Flattens family lifted k (.changed c :: d) (.changed c :: e)
  | entered {k : Nat} (q : ι) (o : Options) {d e : List (Event ι)}
    (h : Flattens family lifted k d e) :
    Flattens family lifted k (.entered q o :: d) (.entered q o :: e)
  | lifted {k : Nat} {q : ι} (level : Level) {i : Instruction ι} (s : State) (result : Value)
    {d e d' e' : List (Event ι)} (hi : lifted q i) (hc : Flattens family lifted (k + 1) d e)
    (h : Flattens family lifted k d' e') :
    Flattens family lifted k
      (.executing q level i s :: (d ++ .returned q level i result :: d')) (e ++ e')
  | halted {k : Nat} {q : ι} (level : Level) {i : Instruction ι} (s : State)
    {d e d' e' : List (Event ι)} (hi : lifted q i) (hc : Flattens family lifted (k + 1) d e)
    (h : Flattens family lifted k d' e') :
    Flattens family lifted k (.executing q level i s :: (d ++ d')) (e ++ e')

variable {family family' : Family ι} {lifted : ι → Instruction ι → Prop}

theorem Event.Flattens.append {k : Nat} {d e d' e' : List (Event ι)}
    (h : Flattens family lifted k d e) (h' : Flattens family lifted k d' e') :
    Flattens family lifted k (d ++ d') (e ++ e') := by
  induction h with
  | nil => exact h'
  | executing hm hi s _ ih => exact .executing hm hi s (ih h')
  | returned hm hi result _ ih => exact .returned hm hi result (ih h')
  | changed c _ ih => exact .changed c (ih h')
  | entered q o _ ih => exact .entered q o (ih h')
  | lifted level s result hi hc _ _ ih =>
    have hlifted := Event.Flattens.lifted level s result hi hc (ih h')
    rw [List.append_assoc, List.cons_append, List.append_assoc]
    exact hlifted
  | halted level s hi hc _ _ ih =>
    have hhalted := Event.Flattens.halted level s hi hc (ih h')
    rw [List.cons_append, List.append_assoc, List.append_assoc]
    exact hhalted

/-! ## The simulation -/

variable [DecidableEq ι]

/-- Runs of which the first may be on levels up to `k` deeper. -/
def Simulation.flattening (family family' : Family ι) (lifted : ι → Instruction ι → Prop)
    (k : Nat) : Simulation ι where
  Levels m n := m.Below k n
  Opts := (· = ·)
  deeper := Level.Below.add_one
  refl _ := rfl
  agree := .of_eq
  Forests f g := f.Faithful family ∧ g.Faithful family'
  Told d e := Event.Flattens family lifted k (Event.deeds d) (Event.deeds e)
  tires := True
  told_nil := .nil
  told_append h h' := by
    rw [Event.deeds_append, Event.deeds_append]
    exact h.append h'
  told_one h := by
    cases h with
    | executing q hl hi s =>
      cases hi.eq id
      exact .executing hl (.same _) s .nil
    | returned q hl hi result =>
      cases hi.eq id
      exact .returned hl (.same _) result .nil
    | changed c => exact .changed c .nil
    | entered q h =>
      cases h
      exact .entered q _ .nil
    | _ => exact .nil

variable {k : Nat}

theorem Outcome.Paired.congr_deeds {α β : Type} {r : α → β → Prop} {out out₀ : Outcome ι α}
    {out' out₀' : Outcome ι β} (h : out.Paired (.flattening family family' lifted k) r out')
    (h₀ : out₀.ActsAs out) (h₀' : out₀'.ActsAs out') :
    out₀.Paired (.flattening family family' lifted k) r out₀' := by
  obtain ⟨hends,htold,hstate,hforests⟩ := h
  refine ⟨?_,?_,?_,?_⟩
  · rw [h₀.result, h₀'.result]
    exact hends
  · show Event.Flattens family lifted k _ _
    rw [h₀.deeds, h₀'.deeds]
    exact htold
  · rw [h₀.world, h₀'.world]
    exact hstate
  · rw [h₀.world, h₀'.world]
    exact hforests

/-- Handlers may do anything. -/
theorem Family.Flattens.suits (h : family.Flattens lifted family') (k : Nat) :
    family.Suits (Simulation.flattening family family' lifted k).toLeeway (fun _ _ => True)
      family' :=
  Family.suits_of_same id h.name h.entry h.around (S := fun _ _ => True)
    (fun q => (family q).all_of_forall (Program.startsOnly_of_forall fun _ => trivial))
    (fun _ _ _ => ⟨trivial,.refl k⟩) (fun _ _ => trivial)
    (fun _ _ _ _ => trivial) fun _ _ => trivial

section

variable {launch launch' : Launch ι} {site site' : Site ι}

/-! ## Wraps -/

theorem Site.announce_kept
    (hs : site.UpTo (Simulation.flattening family family' lifted k).toLeeway site')
    {i i' : Instruction ι} (hi : i.Kept family (lifted site.pipeline) i') :
    Paired (.flattening family family' lifted k) (· = ·) (site.announce family i)
      (site'.announce family' i') := by
  intro u v hj
  rw [announce_eq, announce_eq]
  refine ⟨.ok rfl,?_,hj⟩
  show Event.Flattens family lifted k _ _
  rw [deeds_announcement, deeds_announcement, ← hj.1, ← hs.pipeline]
  exact .executing hs.level hi _ .nil

omit [DecidableEq ι] in
theorem Site.enact_wrap (site : Site ι) (required : List Key) (h : Handler ι) (o : Options)
    (children : List (Instruction ι)) :
    site.enact family launch required (.wrap h o children) =
      (site.announce family (.wrap h o children) >>= fun _ =>
        h.wrap family launch o (site.deeper.traverse family launch [] children) >>= fun r =>
          Exec.emit (.returned site.pipeline site.level (.wrap h o children) r.1)) := by
  rw [enact_eq]
  rfl

/-- A wrap that stays, around children of which some are flattened. -/
theorem Site.enact_kept (hf : family.Flattens lifted family')
    (hl : launch.Paired (.flattening family family' lifted k) (fun _ => True) launch')
    (hs : site.UpTo (Simulation.flattening family family' lifted k).toLeeway site')
    {h : Handler ι} {o : Options} {children children' : List (Instruction ι)}
    (hr : family.Reaches site (.wrap h o children))
    (hc : Instruction.Flattens family (lifted site.pipeline) [] children children')
    (ht : Paired (.flattening family family' lifted k) (· = ·)
      (site.deeper.traverse family launch [] children)
      (site'.deeper.traverse family' launch' [] children')) (required : List Key) :
    Paired (.flattening family family' lifted k) (· = ·)
      (site.enact family launch required (.wrap h o children))
      (site'.enact family' launch' required (.wrap h o children')) := by
  have hwrap : Paired (.flattening family family' lifted k) (· = ·)
      (h.wrap family launch o (site.deeper.traverse family launch [] children))
      (h.wrap family' launch' o (site'.deeper.traverse family' launch' [] children')) :=
    Handler.wrap_paired (hf.suits k) hl hr rfl ht
  rw [enact_wrap, enact_wrap]
  refine (announce_kept hs (.wrap h o hc)).bind fun _ => hwrap.bind fun {a b} hab => ?_
  cases hab
  refine fun _ _ hj => ⟨.ok rfl,?_,hj⟩
  rw [← hs.pipeline]
  exact .returned hs.level (.wrap h o hc) a.1 .nil

/-- A wrap that is lifted does what its children do. These are a level above it in the other run. -/
theorem Site.enact_lifted {h : Handler ι} {o : Options} {children : List (Instruction ι)}
    (hi : lifted site.pipeline (.wrap h o children))
    (ht : Instruction.Transparent family (.wrap h o children)) {y : Exec ι Unit}
    (hc : Paired (.flattening family family' lifted (k + 1)) (· = ·)
      (site.deeper.traverse family launch [] children) y) (required : List Key) :
    Paired (.flattening family family' lifted k) (· = ·)
      (site.enact family launch required (.wrap h o children)) y := by
  obtain @⟨_,_,p,_,hs,hp,_⟩ := ht
  intro u v hj
  have hpaired := hc (u := u) (v := v) hj
  have hrepeats := hp.exec launch (site.deeper.traverse family launch [] children) 0 u
  have henact : site.enact family launch required (.wrap h o children) u =
      ((p.exec launch (some (site.deeper.traverse family launch [] children)) 0 >>= fun r =>
        Exec.emit (.returned site.pipeline site.level (.wrap h o children) r.1)) u).prepend
          (site.announcement family (.wrap h o children) u.state) := by
    rw [enact_wrap, hs.wrap_eq]
    exact Exec.bind_of_ok (site.announce_eq family _ u)
  have hhalted : ∀ {d e rest : List (Event ι)}, (∀ a ∈ rest, a.isDeed = false) →
      (Simulation.flattening family family' lifted (k + 1)).Told d e →
      (Simulation.flattening family family' lifted k).Told
        (site.announcement family (.wrap h o children) u.state ++ (d ++ rest)) e := by
    intro d e rest hrest h
    have hhalted := Event.Flattens.halted site.level u.state hi h .nil
    rw [List.append_nil, List.append_nil] at hhalted
    show Event.Flattens family lifted k _ _
    rw [Event.deeds_append, Event.deeds_append, deeds_announcement, Event.deeds_of_silent hrest,
      List.append_nil]
    exact hhalted
  have hreturned : ∀ {d e : List (Event ι)} (result : Value),
      (Simulation.flattening family family' lifted (k + 1)).Told d e →
      (Simulation.flattening family family' lifted k).Told
        (site.announcement family (.wrap h o children) u.state ++
          (d ++ [.returned site.pipeline site.level (.wrap h o children) result])) e := by
    intro d e result h
    have hlifted := Event.Flattens.lifted site.level u.state result hi h .nil
    rw [List.append_nil] at hlifted
    show Event.Flattens family lifted k _ _
    rw [Event.deeds_append, Event.deeds_append, deeds_announcement]
    exact hlifted
  rw [henact, Exec.bind_apply]
  generalize site.deeper.traverse family launch [] children u = out at hpaired hrepeats
  generalize p.exec launch _ 0 u = repeated at hrepeats ⊢
  generalize y v = out' at hpaired ⊢
  obtain ⟨result,v',e⟩ := out'
  obtain ⟨hends,hdone,hjoined⟩ := hpaired
  cases hrepeats with
  | ok a b w events =>
    cases hends with
    | ok hb => exact ⟨.ok hb,hreturned a.1 hdone,hjoined⟩
  | halted halt w events =>
    have hnothing : ∀ a ∈ ([] : List (Event ι)), a.isDeed = false := by simp
    have htold := hhalted hnothing hdone
    rw [List.append_nil] at htold
    cases hends with
    | fault hf => exact ⟨.fault hf,htold,hjoined⟩
    | tooDeep ht => exact ⟨.tooDeep ht,htold,hjoined⟩
  | raised f w events =>
    cases hends with
    | fault hf => exact ⟨.fault hf,hhalted (List.forall_mem_singleton.2 rfl) hdone,hjoined⟩

/-! ## Levels and runs -/

/-- The failure handlers are the same, so the cascades of both levels go side by side. -/
theorem Instruction.Flattens.cascade_paired (hf : family.Flattens lifted family')
    (hl : launch.Paired (.flattening family family' lifted k) (fun _ => True) launch')
    {p : Instruction ι → Prop} {before is is' : List (Instruction ι)}
    (h : Instruction.Flattens family p before is is')
    (hs : site.UpTo (Simulation.flattening family family' lifted k).toLeeway site')
    (hr : ∀ i ∈ nodesOf is, family.Reaches site i) (required : List Key) :
    Paired (.flattening family family' lifted k) (· = ·)
      ((cascade is).forM (site.enact family launch required))
      ((cascade is').forM (site'.enact family' launch' required)) := by
  have hcascade : cascade is' = cascade is := by
    unfold cascade
    rw [h.filter_isFailure]
  rw [hcascade]
  exact Site.cascade_paired (hf.suits k) hl hs (Instruction.UpTo.refl (fun _ => rfl) is)
    (Family.reaches_heads hr) required

/-- A wrap that is lifted, and what stands after it, against its children and what stands after
these. In a failed state both levels are their cascades. -/
theorem Site.traverse_lifted {h : Handler ι} {o : Options}
    {children children' is is' : List (Instruction ι)}
    (hi : lifted site.pipeline (.wrap h o children))
    (ht : Instruction.Transparent family (.wrap h o children))
    (hmovable : ∀ i ∈ children', i.Movable)
    (hcascade : Paired (.flattening family family' lifted k) (· = ·)
      ((Instruction.cascade (.wrap h o children :: is)).forM (site.enact family launch []))
      ((Instruction.cascade (children' ++ is')).forM (site'.enact family' launch' [])))
    (hc : Paired (.flattening family family' lifted (k + 1)) (· = ·)
      (site.deeper.traverse family launch [] children)
      (site'.traverse family' launch' [] children'))
    (hrest : Paired (.flattening family family' lifted k) (· = ·)
      (site.traverse family launch [] is) (site'.traverse family' launch' [] is')) :
    Paired (.flattening family family' lifted k) (· = ·)
      (site.traverse family launch [] (.wrap h o children :: is))
      (site'.traverse family' launch' [] (children' ++ is')) := by
  have hboth := (enact_lifted hi ht hc []).bind fun _ => hrest
  intro u v hj
  rw [traverse_eq_walk, traverse_eq_walk]
  cases hu : u.state.failed with
  | true =>
    have hv : v.state.failed = true := hj.1 ▸ hu
    exact (hcascade hj).congr_deeds (site.walk_of_failed _ [] _ hu) (site'.walk_of_failed _ [] _ hv)
  | false =>
    have hwrap : site.walk (site.enact family launch) [] (.wrap h o children :: is) u =
        (site.enact family launch [] (.wrap h o children) >>= fun _ =>
          site.traverse family launch [] is) u := by
      rw [walk_cons, hu, traverse_eq_walk]
      rfl
    have happend := site'.walk_append (site'.enact family' launch') [] hmovable is' v
    rw [← traverse_eq_walk, ← traverse_eq_walk, ← traverse_eq_walk] at happend
    rw [hwrap, ← traverse_eq_walk]
    exact (hboth hj).congr_deeds (.refl _) happend

/-- Levels of which one has wraps flattened. By induction on how their instructions go together, at
every distance between the levels. -/
theorem Instruction.Flattens.traverse_paired (hf : family.Flattens lifted family')
    (hl : ∀ k, launch.Paired (.flattening family family' lifted k) (fun _ => True) launch')
    {p : ι} {before is is' : List (Instruction ι)}
    (h : Instruction.Flattens family (lifted p) before is is') (hp : site.pipeline = p)
    (hs : site.UpTo (Simulation.flattening family family' lifted k).toLeeway site')
    (hr : ∀ i ∈ nodesOf is, family.Reaches site i) :
    Paired (.flattening family family' lifted k) (· = ·)
      (site.traverse family launch (inForce before) is)
      (site'.traverse family' launch' (inForce before) is') := by
  induction h generalizing k site site' with
  | nil => exact Exec.paired_pure rfl
  | @keep before i is is' h ih =>
    have hone := Instruction.UpTo.refl_one (fun _ => rfl) i
    have hrest := ih hp hs (Family.reaches_rest hr)
    rw [inForce_append] at hrest
    refine Site.traverse_cons_paired_of hs (i.inStep_refl _) ?_
      (cascade_paired hf (hl k) (.keep i h) hs hr _) hrest
    refine Site.enact_paired (hf.suits k) (hl k) hs hone
      (Family.reaches_heads hr _ List.mem_cons_self) ?_ _
    exact Site.traverse_paired (hf.suits k) (hl k) hs.deeper
      (Instruction.UpTo.refl (fun _ => rfl) i.children) (Family.reaches_children hr) []
  | @wrap before handler o children children' is is' hc h ihc ih =>
    have hrest := ih hp hs (Family.reaches_rest hr)
    rw [inForce_append] at hrest
    have hdeeper : site.deeper.UpTo (Simulation.flattening family family' lifted k).toLeeway
        site'.deeper := hs.deeper
    subst hp
    refine Site.traverse_cons_paired_of hs ⟨rfl,fun _ => rfl,rfl⟩ ?_
      (cascade_paired hf (hl k) (.wrap handler o hc h) hs hr _) hrest
    exact Site.enact_kept hf (hl k) hs (Family.reaches_heads hr _ List.mem_cons_self) hc
      (ihc rfl hdeeper (Family.reaches_children hr)) _
  | @lift before handler o children children' is is' hi ht hk hc h ihc ih =>
    have hrest := ih hp hs (Family.reaches_rest hr)
    rw [inForce_append, hk] at hrest
    have hlifted : site.deeper.UpTo (Simulation.flattening family family' lifted (k + 1)).toLeeway
        site' := ⟨hs.pipeline,hs.settings,hs.level.succ⟩
    have hcascade := cascade_paired hf (hl k) (.lift hi ht hk hc h) hs hr []
    subst hp
    rw [hk]
    obtain ⟨_,_,hmovable⟩ := id ht
    exact Site.traverse_lifted hi ht (hc.movable hmovable) hcascade
      (ihc rfl hlifted (Family.reaches_children hr)) hrest

end

omit [DecidableEq ι] in
theorem Event.Flattens.of_silent {d e : List (Event ι)} (hd : ∀ a ∈ d, a.isDeed = false)
    (he : ∀ a ∈ e, a.isDeed = false) : Flattens family lifted k (deeds d) (deeds e) := by
  rw [deeds_of_silent hd, deeds_of_silent he]
  exact .nil

namespace Family.Flattens

variable (hf : family.Flattens lifted family')
include hf

/-- No deeds belong to building a tree. -/
theorem tree_paired (q : ι) (k : Nat) : Paired (.flattening family family' lifted k)
    (fun t t' => family.compile q = .ok t ∧ t.Flattens family (lifted q) t') (family.tree q)
    (family'.tree q) := by
  have hsilent : ∀ {family : Family ι} {e : Event ι}, e.isDeed = false →
      ∀ a ∈ family.declaring q ++ [e], a.isDeed = false := fun he => List.forall_mem_append.2
    ⟨Family.forall_declaring rfl fun _ => rfl,List.forall_mem_singleton.2 he⟩
  intro u v hj
  obtain ⟨hu,hv⟩ := hj.2
  rcases hf.compile q with ⟨tree,tree',hc,hc',ht⟩ | ⟨f,hc,hc'⟩
  · obtain ⟨forest,d,hx,hforest,hd⟩ := Family.tree_of_compile hc hu
    obtain ⟨forest',e,hy,hforest',he⟩ := Family.tree_of_compile hc' hv
    rw [hx, hy]
    exact ⟨.ok ⟨hc,ht⟩,.of_silent (fun a h => hsilent rfl a (hd a h))
      fun a h => hsilent rfl a (he a h),hj.1,hforest,hforest'⟩
  · rw [Family.tree_of_flawed hc hu, Family.tree_of_flawed hc' hv]
    exact ⟨.fault (.refl f),.of_silent (hsilent rfl) (hsilent rfl),hj⟩

theorem run_paired {launch launch' : Launch ι}
    (hl : ∀ k, launch.Paired (.flattening family family' lifted k) (fun _ => True) launch')
    {q : ι} {tree tree' : Tree ι} (hc : family.compile q = .ok tree)
    (ht : tree.Flattens family (lifted q) tree') {m n : Level}
    (h : (Simulation.flattening family family' lifted k).Levels m n) :
    Paired (.flattening family family' lifted k) (· = ·) (tree.run family launch q m)
      (tree'.run family' launch' q n) :=
  Tree.run_paired_of (hf.suits k) (hl k) h <| ht.roots.traverse_paired hf hl rfl
    ⟨rfl,ht.settings,h⟩ fun _ hi => ⟨⟨tree,hc,rfl⟩,tree,hc,hi⟩

/-- Pipelines are started side by side, at whatever distance between the levels. -/
theorem launch_paired (depth : Nat) : ∀ k, (family.launchWith family.tree depth).Paired
    (.flattening family family' lifted k) (fun _ => True)
    (family'.launchWith family'.tree depth) := by
  induction depth with
  | zero =>
    intro k
    constructor
    · exact fun _ _ _ _ => Exec.paired_tooDeep trivial
    · exact fun _ _ _ _ _ _ _ => Exec.paired_tooDeep trivial
  | succ depth ih =>
    intro k
    constructor
    · intro q _ m n h
      exact (hf.tree_paired q k).bind fun ht => hf.run_paired ih ht.1 ht.2 h
    · intro q _ o o' ho m n h
      exact invokeWith_paired_of (hf.suits k) (ih k) (hf.tree_paired q k) ho
        fun ht => hf.run_paired ih ht.1 ht.2 h

end Family.Flattens

/-! ## Requests -/

/-- Both come to the same result in the same state. The deeds are the same, those of the wraps that
are lifted aside, and on the same levels, but for what is done within these. -/
structure Outcome.SameButFlattened (family : Family ι) (lifted : ι → Instruction ι → Prop)
    (out out' : Outcome ι Value) : Prop where
  result : out.result = out'.result
  state : out.world.state = out'.world.state
  deeds : Event.Flattens family lifted 0 (Event.deeds out.events) (Event.deeds out'.events)

/-- Wraps that only run their continuation may be flattened where no option keys are in force, if
there are no failure handlers and no gates on options among their children. From the same state,
whatever trees are kept, every request comes to the same result or fault in the same state, and the
same other instructions are executed in the same order. -/
theorem Request.exec_flattened (h : family.Flattens lifted family') (r : Request ι) (u v : World ι)
    (hs : u.state = v.state) (hu : u.forest.Faithful family) (hv : v.forest.Faithful family')
    (depth : Nat) :
    (r.exec family depth u).SameButFlattened family lifted (r.exec family' depth v) := by
  have hlevel : ∀ n, (Simulation.flattening family family' lifted 0).Levels n n :=
    Level.Below.refl 0
  have hpaired := Request.execBy_paired (h.launch_paired depth 0) hlevel r (u := u) (v := v)
    ⟨hs,hu,hv⟩
  rw [r.exec_eq, r.exec_eq]
  exact ⟨hpaired.ends.eq id id,hpaired.joined.1,hpaired.told⟩

/-- Runs its continuation and gives back what it gives. -/
def dayShift : Handler Bool := .around (.call .next fun v => .done v)

/-- Runs its continuation, and raises again what it catches. -/
def nightShift : Handler Bool := .around (.attempt .next fun
  | .ok v => .done v
  | .error f => .raise f)

/-- A step, a gate and a pipeline that fails the state, in two wraps or in none. -/
def bakers (declared : List (Declaration Bool)) : Family Bool
  | false => { name := "bakery", declarations := declared ++
      [.failure (.function (.change (.remove "dough") (.done .null))) .empty] }
  | true => { name := "oven", declarations := [.step (.function (.done (.bool false))) .empty] }

def kneading : Declaration Bool :=
  .step (.function (.change (.set "dough" (.bool true)) (.done .null)))
    (.ofList [("fail", .bool false)])

def baking : List (Declaration Bool) :=
  [.dependsOn .state ["dough"], .step (.pipeline true) .empty]

def shifts : List (Declaration Bool) :=
  [.wrap dayShift .empty [kneading, .wrap nightShift .empty baking]]

def isShift (q : Bool) (i : Instruction Bool) : Prop := q = false ∧ i.isWrap = true

theorem bakers_flattens :
    (bakers shifts).Flattens isShift (bakers (kneading :: baking)) where
  name q := by
    match q with
    | false | true => rfl
  entry q := by
    match q with
    | false | true => rfl
  around q := by
    match q with
    | false | true => rfl
  declarations q := by
    match q with
    | false =>
      have hpasses : Program.PassesThrough (.attempt .next fun
          | .ok v => .done v
          | .error f => .raise f : Program Bool) := ⟨fun _ => trivial,fun _ => rfl⟩
      have hinner : Instruction.Transparent (bakers shifts)
          (.wrap nightShift .empty (Declaration.imageOf baking)) :=
        .wrap (.around _) hpasses
          (List.forall_mem_cons.2 ⟨⟨rfl,rfl⟩,List.forall_mem_singleton.2 ⟨rfl,rfl⟩⟩)
      have houter : Instruction.Transparent (bakers shifts) (.wrap dayShift .empty
          (Declaration.imageOf [kneading, .wrap nightShift .empty baking])) :=
        .wrap (.around _) (fun _ => trivial)
          (List.forall_mem_cons.2 ⟨⟨rfl,rfl⟩,List.forall_mem_singleton.2 ⟨rfl,rfl⟩⟩)
      refine .lift ⟨rfl,rfl⟩ houter rfl (.keep kneading ?_) (.keep _ .nil)
      exact .lift ⟨rfl,rfl⟩ hinner rfl (.keep _ (.keep _ .nil)) .nil
    | true => exact .keep _ .nil

theorem Request.exec_flattened_bakers :
    let request : Request Bool := .run false 0
    let nested := request.exec (bakers shifts) 2 {}
    let flat := request.exec (bakers (kneading :: baking)) 2 {}
    let executed := fun out : Outcome Bool Value => out.events.filterMap fun
      | .executing _ level i _ => some (level, i.kind)
      | _ => none
    executed nested = [(0, "wrap"), (1, "step"), (1, "wrap"), (2, "depend"), (2, "step"),
      (3, "step"), (0, "failure")] ∧
    executed flat = [(0, "step"), (0, "depend"), (0, "step"), (1, "step"), (0, "failure")] ∧
    (bakers shifts).Flattens isShift (bakers (kneading :: baking)) ∧
    nested.SameButFlattened (bakers shifts) isShift flat := by
  intro request nested flat executed
  exact ⟨by decide +kernel,by decide +kernel,bakers_flattens,
    request.exec_flattened bakers_flattens {} {} rfl Forest.faithful_nil Forest.faithful_nil 2⟩

end Cascade
