import Cascade.Proofs.Placement

/-! # Laws of the parts of a run

A law that is kept by what handlers do by themselves, and by all that is launched for them, is kept
by programs, by the acts of instructions and by whole levels. It is enough that it is kept by the
changes that the handlers make. What is told of instructions when they are announced or give their
results is left to the law.
-/
namespace Cascade

open Json (Value)

variable {ι α : Type} {law : Law ι}

namespace Exec

theorem obeys_state : (state : Exec ι State).Obeys law := fun w => law.refl w

theorem obeys_tooDeep : (tooDeep : Exec ι α).Obeys law := fun w => law.refl w

theorem Obeys.attempt {x : Exec ι α} (hx : x.Obeys law) : x.attempt.Obeys law := by
  intro w
  have h := hx w
  unfold ObeysAt at h ⊢
  rcases hw : x w with ⟨(_ | _) | a,w',events⟩
  · rw [hw] at h
    rw [attempt_of_fault hw]
    exact h
  · rw [hw] at h
    rw [attempt_of_tooDeep hw]
    exact h
  · rw [hw] at h
    rw [attempt_of_ok hw]
    exact h

theorem obeys_forM {is : List (Instruction ι)} {f : Instruction ι → Exec ι Unit}
    (h : ∀ i ∈ is, (f i).Obeys law) : Exec.Obeys law (is.forM f) := by
  induction is with
  | nil => exact obeys_pure _
  | cons i rest ih =>
    exact (h i List.mem_cons_self).bind fun _ => ih fun j hj => h j (List.mem_cons_of_mem i hj)

end Exec

/-! ## Changes that handlers make -/

/-- All changes that the program makes are of `C`. -/
def Program.ChangesOnly (C : Change → Prop) : Program ι → Prop
  | done _ | raise _ => True
  | read rest => ∀ s, (rest s).ChangesOnly C
  | change c rest => C c ∧ rest.ChangesOnly C
  | count rest => ∀ n, (rest n).ChangesOnly C
  | call _ rest => ∀ v, (rest v).ChangesOnly C
  | attempt _ rest => ∀ r, (rest r).ChangesOnly C

theorem Program.changesOnly_of_forall {C : Change → Prop} (hC : ∀ c, C c) (p : Program ι) :
    p.ChangesOnly C := by
  induction p with
  | done _ | raise _ => trivial
  | read _ ih | count _ ih | call _ _ ih | attempt _ _ ih => exact ih
  | change c _ ih => exact ⟨hC c,ih⟩

/-- The law is kept by what a handler does by itself, if it makes changes of `C` only. -/
structure Law.Allows (law : Law ι) (C : Change → Prop) : Prop where
  changed {c : Change} (hc : C c) {w : World ι} {s : State} (h : c.apply w.state = .ok s) :
    law.Holds w [.changed c] { w with state := s }
  raised (f : Fault) (w : World ι) : law.Holds w [.raised f w.state] w

theorem Law.Tolerant.allows (ht : law.Tolerant) : law.Allows fun _ => True :=
  ⟨fun _ => ht.changed,ht.raised⟩

/-- Any changes are allowed to the handlers of any family. -/
theorem Family.changesOnly (family : Family ι) (q : ι) :
    (family q).All (Program.ChangesOnly fun _ => True) :=
  (family q).all_of_forall (Program.changesOnly_of_forall fun _ => trivial)

theorem Handler.changesOnly (h : Handler ι) : h.All (Program.ChangesOnly fun _ => True) :=
  h.all_of_forall (Program.changesOnly_of_forall fun _ => trivial)

/-! ## Handlers -/

section

variable {launch : Launch ι} {C : Change → Prop} (ht : law.Allows C)
include ht

theorem Law.Allows.obeys_raise (f : Fault) : (Exec.raise f : Exec ι α).Obeys law :=
  fun w => ht.raised f w

theorem Law.Allows.obeys_change {c : Change} (hc : C c) :
    (Exec.change c : Exec ι Unit).Obeys law := by
  intro w
  unfold Exec.ObeysAt
  rw [Exec.change_apply]
  cases h : c.apply w.state with
  | ok s => exact ht.changed hc h
  | error f => exact ht.raised f w

theorem Gate.obeys_check (g : Gate) : (g.check : Exec ι Unit).Obeys law := by
  unfold check
  refine Exec.obeys_state.bind fun s => ?_
  cases g.missing? s with
  | none => exact Exec.obeys_pure ()
  | some k => exact ht.obeys_raise _

variable (hl : launch.Obeys law)
include hl

omit ht in
theorem Call.obeys_of_exec? {continuation : Option (Exec ι Unit)}
    (hk : ∀ x ∈ continuation, x.Obeys law) {c : Call ι} {x : Exec ι Value}
    (hx : c.exec? launch continuation = some x) : x.Obeys law := by
  cases c with
  | next =>
    obtain ⟨children,hc,rfl⟩ := Option.map_eq_some_iff.1 hx
    exact (hk children hc).bind fun _ => Exec.obeys_state.bind fun _ => Exec.obeys_pure _
  | run p l =>
    cases hx
    exact (hl.run p l).bind fun _ => Exec.obeys_pure _
  | invoke p o l =>
    cases hx
    exact hl.invoke p o l

theorem Program.obeys_exec {continuation : Option (Exec ι Unit)}
    (hk : ∀ x ∈ continuation, x.Obeys law) {p : Program ι} (hp : p.ChangesOnly C) (runs : Nat) :
    (p.exec launch continuation runs).Obeys law := by
  induction p generalizing runs with
  | done v => exact Exec.obeys_pure _
  | raise f => exact ht.obeys_raise f
  | read _ ih => exact Exec.obeys_state.bind fun s => ih s (hp s) runs
  | change c _ ih => exact (ht.obeys_change hp.1).bind fun _ => ih hp.2 runs
  | count _ ih =>
    unfold Program.exec
    cases continuation with
    | none => exact ht.obeys_raise _
    | some _ => exact ih runs (hp runs) runs
  | call c _ ih =>
    unfold Program.exec
    cases hx : c.exec? launch continuation with
    | none => exact ht.obeys_raise _
    | some x => exact (c.obeys_of_exec? hl hk hx).bind fun v => ih v (hp v) _
  | attempt c _ ih =>
    unfold Program.exec
    cases hx : c.exec? launch continuation with
    | none => exact ht.obeys_raise _
    | some x => exact (c.obeys_of_exec? hl hk hx).attempt.bind fun r => ih r (hp r) _

theorem Program.obeys_value {p : Program ι} (hp : p.ChangesOnly C) : (p.value launch).Obeys law :=
  (Program.obeys_exec ht hl (fun _ hx => by cases hx) hp 0).bind fun _ => Exec.obeys_pure _

theorem obeys_enter {q : ι} {o : Options} (ho : ∀ w, law.Holds w [.entered q o] w)
    {c : Callable ι} (hc : (c.program o).ChangesOnly C) : (enter launch q c o).Obeys law := by
  have hentered : (Exec.emit (.entered q o)).Obeys law := ho
  exact hentered.bind fun _ => Program.obeys_value ht hl hc

variable {family : Family ι} {site : Site ι}

omit hl in
theorem Site.obeys_resolve (entry : String) : (site.resolve entry).Obeys law := by
  unfold resolve
  cases site.settings.container with
  | none => exact ht.obeys_raise _
  | some registry =>
    cases he : registry.resolve? entry with
    | none =>
      simp only [he]
      exact ht.obeys_raise _
    | some registration =>
      simp only [he]
      exact Exec.obeys_state.bind fun _ => Exec.obeys_pure _

theorem Site.obeys_dispatch (role : Role) (o : Options) {h : Handler ι}
    (hh : h.All (Program.ChangesOnly C)) : (site.dispatch family launch role o h).Obeys law := by
  unfold dispatch
  cases h with
  | noop | around p => exact ht.obeys_raise _
  | function p => exact Program.obeys_value ht hl hh
  | pipeline p => exact hl.invoke p o _
  | named entry => exact (obeys_resolve ht entry).bind fun p => hl.invoke p o _
  | method m =>
    cases hm : m.around with
    | true =>
      simp only [hm]
      exact ht.obeys_raise _
    | false =>
      simp only [hm]
      exact Program.obeys_value ht hl (hh o)

variable (hf : ∀ q, (family q).All (Program.ChangesOnly C))
include hf

theorem Handler.obeys_wrap {children : Exec ι Unit} (hc : children.Obeys law) (o : Options)
    {h : Handler ι} (hh : h.All (Program.ChangesOnly C)) :
    (h.wrap family launch o children).Obeys law := by
  have hk : ∀ x ∈ some children, x.Obeys law := by
    intro x hx
    cases hx
    exact hc
  unfold wrap
  cases h with
  | noop | function p | named entry => exact ht.obeys_raise _
  | around p => exact Program.obeys_exec ht hl hk hh 0
  | pipeline p =>
    simp only [Family.invokeAround]
    cases hp : (family p).around with
    | none => exact ht.obeys_raise _
    | some c => exact Program.obeys_exec ht hl hk ((hf p).around c o hp) 0
  | method m =>
    cases hm : m.around with
    | true =>
      simp only [hm]
      exact Program.obeys_exec ht hl hk (hh o) 0
    | false =>
      simp only [hm]
      exact ht.obeys_raise _

/-! ## Instructions -/

/-- Once it is announced, an instruction does what its handler or its children do, and gives its
result. -/
theorem Site.obeys_act (site : Site ι) {i : Instruction ι}
    (hi : i.handler.All (Program.ChangesOnly C))
    (hreturned : ∀ result, (site.conclude i result).Obeys law)
    (hc : (site.deeper.traverse family launch [] i.children).Obeys law) :
    (site.act family launch i).Obeys law := by
  cases i with
  | step h o => exact (obeys_dispatch ht hl .step o hi).bind hreturned
  | failure h o => exact (obeys_dispatch ht hl .failure o hi).bind hreturned
  | wrap h o children =>
    exact (Handler.obeys_wrap ht hl hf hc o hi).bind fun result => hreturned result.1
  | gate g => exact g.obeys_check ht

theorem Family.obeys_body {q : ι} (ho : ∀ o w, law.Holds w [.entered q o] w)
    {traversal : Exec ι Unit} (h : traversal.Obeys law) :
    (family.body launch q traversal).Obeys law := by
  unfold body
  cases hq : (family q).entry with
  | none => exact h.bind fun _ => Exec.obeys_pure ()
  | some c =>
    exact h.bind fun _ => Exec.obeys_state.bind fun s =>
      (obeys_enter ht hl (ho _) ((hf q).entry c _ hq)).bind fun _ => Exec.obeys_pure ()

end

/-! ## Levels -/

theorem Instruction.mem_of_mem_cascade {is : List (Instruction ι)} {i : Instruction ι}
    (h : i ∈ Instruction.cascade is) : i ∈ is :=
  (List.mem_filter.1 (mem_of_mem_upThrough h)).1

section

variable {family : Family ι} {launch : Launch ι} {C : Change → Prop}

theorem Site.obeys_enact_of_perform (ht : law.Allows C) (site : Site ι) {i : Instruction ι}
    (h : (site.perform family launch i).Obeys law) (keys : List Key) :
    (site.enact family launch keys i).Obeys law := by
  rw [enact_eq]
  cases i.lacking? keys with
  | some k => exact ht.obeys_raise _
  | none => exact h

/-- A level keeps what its instructions keep, if it may tell that its failure handlers take over. -/
theorem Site.obeys_walk (site : Site ι) {is : List (Instruction ι)}
    {enact : List Key → Instruction ι → Exec ι Unit}
    (hcascading : is ≠ [] → ∀ w, law.Holds w [.cascading site.pipeline site.level] w)
    (h : ∀ i ∈ is, ∀ keys, (enact keys i).Obeys law) (required : List Key) :
    (site.walk enact required is).Obeys law := by
  induction is generalizing required with
  | nil => exact Exec.obeys_pure _
  | cons i rest ih =>
    have hrest : ∀ keys, (site.walk enact keys rest).Obeys law :=
      ih (fun _ => hcascading (by simp)) fun j hj => h j (List.mem_cons_of_mem i hj)
    have hemit : (Exec.emit (.cascading site.pipeline site.level)).Obeys law :=
      hcascading (by simp)
    unfold walk
    refine Exec.obeys_state.bind fun s => ?_
    cases s.failed with
    | true =>
      exact hemit.bind fun _ =>
        Exec.obeys_forM fun j hj => h j (Instruction.mem_of_mem_cascade hj) required
    | false =>
      cases i.isFailure with
      | true => exact hrest required
      | false => exact (h i List.mem_cons_self required).bind fun _ => hrest _

/-- The levels of a tree keep what its instructions keep where they are performed. The induction is
on how deep these go. -/
theorem Site.obeys_traverse_of (ht : law.Allows C)
    (hcascading : ∀ q level w, law.Holds w [.cascading q level] w)
    (Stands : Site ι → Instruction ι → Prop)
    (hdeeper : ∀ {site h o children c}, Stands site (.wrap h o children) → c ∈ children →
      Stands site.deeper c)
    (hperform : ∀ site i, Stands site i →
      (site.deeper.traverse family launch [] i.children).Obeys law →
      (site.perform family launch i).Obeys law)
    (site : Site ι) {is : List (Instruction ι)} (hs : ∀ i ∈ is, Stands site i)
    (required : List Key) : (site.traverse family launch required is).Obeys law := by
  have henact : ∀ i (site : Site ι), Stands site i → ∀ keys,
      (site.enact family launch keys i).Obeys law := by
    intro i
    induction i using Instruction.induction with
    | step _ _ | failure _ _ | gate _ =>
      intro site hi
      exact site.obeys_enact_of_perform ht (hperform site _ hi (Exec.obeys_pure _))
    | wrap h o children ih =>
      intro site hi
      refine site.obeys_enact_of_perform ht (hperform site _ hi ?_)
      rw [traverse_eq_walk]
      exact site.deeper.obeys_walk (fun _ => hcascading _ _)
        (fun c hc => ih c hc site.deeper (hdeeper hi hc)) []
  rw [traverse_eq_walk]
  exact site.obeys_walk (fun _ => hcascading _ _) (fun i hi => henact i site (hs i hi)) required

end

/-! ## Launches -/

/-- By induction on how deep pipelines may be started: what is left are the runs of trees. -/
theorem Family.launchWith_obeys_of {C : Change → Prop} (ht : law.Allows C) {family : Family ι}
    (hf : ∀ q, (family q).All (Program.ChangesOnly C)) {need : ι → Exec ι (Tree ι)}
    (hentered : ∀ q o w, law.Holds w [.entered q o] w)
    (hrun : ∀ depth, (family.launchWith need depth).Obeys law → ∀ q level,
      (family.runWith (family.launchWith need depth) need q level).Obeys law) (depth : Nat) :
    (family.launchWith need depth).Obeys law := by
  induction depth with
  | zero => exact ⟨fun _ _ => Exec.obeys_tooDeep,fun _ _ _ => Exec.obeys_tooDeep⟩
  | succ depth ih =>
    rw [launchWith_succ]
    refine ⟨hrun depth ih,fun q o level => ?_⟩
    show (family.invokeBy _ _ q o level).Obeys law
    unfold invokeBy
    cases hq : (family q).entry with
    | some c => exact obeys_enter ht ih (hentered q o) ((hf q).entry c o hq)
    | none =>
      exact (hrun depth ih q level).bind fun _ => Exec.obeys_state.bind fun _ => Exec.obeys_pure _

end Cascade
