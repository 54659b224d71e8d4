import Mathlib.Data.Option.Basic
import Cascade.Proofs.Declared.Agree
import Cascade.Proofs.Forest.Kept
import Cascade.Proofs.Level.Dispatch
import Cascade.Proofs.Round
import Cascade.Proofs.Request

/-! # Declarations that a run does not need

Two families that differ in the declarations of one pipeline do the same until its tree is needed or
run. So a run that comes to no such need, or run, is the same run in both, event by event. This goes
by induction on what runs are made of, as both families have the same handlers everywhere else.
-/
namespace Cascade

open Json (Value)

variable {ι α β : Type} {P : Event ι → Prop}

namespace Exec

/-- From any world, the first execution tells of such an event, or the second does the same. -/
def SameUnless (P : Event ι → Prop) (x y : Exec ι α) : Prop :=
  ∀ w, (∃ e ∈ (x w).events, P e) ∨ y w = x w

namespace SameUnless

theorem refl (x : Exec ι α) : SameUnless P x x := fun _ => Or.inr rfl

theorem bind {x y : Exec ι α} {f g : α → Exec ι β} (hx : SameUnless P x y)
    (hf : ∀ a, SameUnless P (f a) (g a)) : SameUnless P (x >>= f) (y >>= g) := by
  intro w
  have hxw := hx w
  rcases hw : x w with ⟨halt | a,v,d⟩
  · rw [hw] at hxw
    rw [Exec.bind_of_error hw]
    exact hxw.imp_right fun hy => Exec.bind_of_error hy
  · rw [hw] at hxw
    rw [Exec.bind_of_ok hw]
    rcases hxw with ⟨e,he,hp⟩ | hy
    · exact Or.inl ⟨e,List.mem_append_left _ he,hp⟩
    · rw [Exec.bind_of_ok hy]
      rcases hf a v with ⟨e,he,hp⟩ | hg
      · exact Or.inl ⟨e,List.mem_append_right _ he,hp⟩
      · exact Or.inr (by rw [hg])

theorem attempt {x y : Exec ι α} (h : SameUnless P x y) : SameUnless P x.attempt y.attempt := by
  intro w
  rcases h w with ⟨e,he,hp⟩ | hy
  · refine Or.inl ⟨e,?_,hp⟩
    rcases hw : x w with ⟨(_ | _) | _,_,_⟩ <;> rw [hw] at he
    · rwa [attempt_of_fault hw]
    · rwa [attempt_of_tooDeep hw]
    · rwa [attempt_of_ok hw]
  · refine Or.inr ?_
    unfold Exec.attempt
    rw [hy]

theorem forM {γ : Type} {is : List γ} {f g : γ → Exec ι Unit}
    (h : ∀ i ∈ is, SameUnless P (f i) (g i)) : SameUnless P (is.forM f) (is.forM g) := by
  induction is with
  | nil => exact refl _
  | cons i rest ih =>
    exact (h i List.mem_cons_self).bind fun _ => ih fun j hj => h j (List.mem_cons_of_mem i hj)

end SameUnless

end Exec

open Exec (SameUnless)

structure Launch.SameUnless (P : Event ι → Prop) (launch launch' : Launch ι) : Prop where
  run (q : ι) (level : Level) : Exec.SameUnless P (launch.run q level) (launch'.run q level)
  invoke (q : ι) (o : Options) (level : Level) :
    Exec.SameUnless P (launch.invoke q o level) (launch'.invoke q o level)

section

variable {launch launch' : Launch ι} (hl : launch.SameUnless P launch')
include hl

/-! ## Handlers -/

theorem Call.exec?_sameUnless {continuation continuation' : Option (Exec ι Unit)}
    (hk : Option.Rel (SameUnless P) continuation continuation') (c : Call ι) :
    Option.Rel (SameUnless P) (c.exec? launch continuation) (c.exec? launch' continuation') := by
  cases c with
  | next =>
    cases hk with
    | none => exact .none
    | some h => exact .some (h.bind fun _ => .refl _)
  | run q level => exact .some ((hl.run q level).bind fun _ => .refl _)
  | invoke q o level => exact .some (hl.invoke q o level)

theorem Program.exec_sameUnless {continuation continuation' : Option (Exec ι Unit)}
    (hk : Option.Rel (SameUnless P) continuation continuation') (p : Program ι) (runs : Nat) :
    SameUnless P (p.exec launch continuation runs) (p.exec launch' continuation' runs) := by
  induction p generalizing runs with
  | done v => exact .refl _
  | raise f => exact .refl _
  | read _ ih => exact (SameUnless.refl _).bind fun s => ih s runs
  | change c _ ih => exact (SameUnless.refl _).bind fun _ => ih runs
  | count _ ih =>
    unfold Program.exec
    cases hk with
    | none => exact .refl _
    | some _ => exact ih runs runs
  | call c _ ih =>
    unfold Program.exec
    have hc := Call.exec?_sameUnless hl hk c
    cases hx : c.exec? launch continuation <;> cases hy : c.exec? launch' continuation' <;>
      rw [hx, hy] at hc <;> cases hc
    · exact .refl _
    · rename_i h
      exact h.bind fun v => ih v _
  | attempt c _ ih =>
    unfold Program.exec
    have hc := Call.exec?_sameUnless hl hk c
    cases hx : c.exec? launch continuation <;> cases hy : c.exec? launch' continuation' <;>
      rw [hx, hy] at hc <;> cases hc
    · exact .refl _
    · rename_i h
      exact h.attempt.bind fun r => ih r _

theorem Program.value_sameUnless (p : Program ι) :
    SameUnless P (p.value launch) (p.value launch') :=
  (p.exec_sameUnless hl .none 0).bind fun _ => .refl _

theorem enter_sameUnless (q : ι) (c : Callable ι) (o : Options) :
    SameUnless P (enter launch q c o) (enter launch' q c o) :=
  (SameUnless.refl _).bind fun _ => Program.value_sameUnless hl _

end

/-! ## Families that differ in the declarations of one pipeline -/

structure Family.SameBut (q : ι) (family family' : Family ι) : Prop where
  elsewhere (p : ι) (h : p ≠ q) : family' p = family p
  name : (family' q).name = (family q).name
  entry : (family' q).entry = (family q).entry
  around : (family' q).around = (family q).around

namespace Family.SameBut

variable {q : ι} {family family' : Family ι} (hs : family.SameBut q family')
include hs

theorem name_eq (p : ι) : (family' p).name = (family p).name := by
  by_cases h : p = q
  · rw [h, hs.name]
  · rw [hs.elsewhere p h]

theorem entry_eq (p : ι) : (family' p).entry = (family p).entry := by
  by_cases h : p = q
  · rw [h, hs.entry]
  · rw [hs.elsewhere p h]

theorem around_eq (p : ι) : (family' p).around = (family p).around := by
  by_cases h : p = q
  · rw [h, hs.around]
  · rw [hs.elsewhere p h]

theorem signature : family'.signature = family.signature :=
  Family.signature_eq hs.name_eq hs.around_eq

theorem tree_eq [DecidableEq ι] {p : ι} (h : p ≠ q) : family'.tree p = family.tree p := by
  have hdeclared : family'.declared p = family.declared p := by
    unfold Family.declared
    rw [hs.signature, hs.elsewhere p h]
  unfold Family.tree Family.build Family.compile
  rw [hdeclared]

variable {launch launch' : Launch ι} (hl : launch.SameUnless P launch')
include hl

theorem dispatch (site : Site ι) (role : Role) (o : Options) (h : Handler ι) :
    SameUnless P (site.dispatch family launch role o h)
      (site.dispatch family' launch' role o h) := by
  unfold Site.dispatch
  rw [hs.signature]
  cases h with
  | noop | around p => exact .refl _
  | function p => exact p.value_sameUnless hl
  | pipeline p => exact hl.invoke p o _
  | named entry => exact (SameUnless.refl _).bind fun p => hl.invoke p o _
  | method m =>
    cases hm : m.around with
    | true =>
      simp only [hm]
      exact .refl _
    | false =>
      simp only [hm]
      exact Program.value_sameUnless hl _

theorem wrap {children children' : Exec ι Unit} (hc : SameUnless P children children')
    (o : Options) (h : Handler ι) :
    SameUnless P (h.wrap family launch o children) (h.wrap family' launch' o children') := by
  have hk : Option.Rel (SameUnless P) (some children) (some children') := .some hc
  unfold Handler.wrap
  rw [hs.signature]
  cases h with
  | noop | function p | named entry => exact .refl _
  | around p => exact p.exec_sameUnless hl hk 0
  | pipeline p =>
    simp only [Family.invokeAround, hs.around_eq, hs.name_eq]
    cases (family p).around with
    | none => exact .refl _
    | some c => exact Program.exec_sameUnless hl hk _ 0
  | method m =>
    cases hm : m.around with
    | true =>
      simp only [hm]
      exact Program.exec_sameUnless hl hk _ 0
    | false =>
      simp only [hm]
      exact .refl _

/-! ## Levels -/

/-- An instruction does the same if its children do. -/
theorem enact_of (site : Site ι) {i : Instruction ι}
    (hc : SameUnless P (site.deeper.traverse family launch [] i.children)
      (site.deeper.traverse family' launch' [] i.children)) (keys : List Key) :
    SameUnless P (site.enact family launch keys i) (site.enact family' launch' keys i) := by
  have hannounce : site.announce family' i = site.announce family i := by
    unfold Site.announce Site.record
    rw [hs.signature]
  refine (SameUnless.refl _).bind fun _ => ?_
  unfold Site.perform
  rw [hannounce]
  refine (SameUnless.refl _).bind fun _ => ?_
  cases i with
  | step h o | failure h o => exact (hs.dispatch hl site _ o h).bind fun _ => .refl _
  | wrap h o children => exact (hs.wrap hl hc o h).bind fun _ => .refl _
  | gate g => exact .refl _

end Family.SameBut

theorem Site.walk_sameUnless (site : Site ι) {enact enact' : List Key → Instruction ι → Exec ι Unit}
    {is : List (Instruction ι)} (h : ∀ i ∈ is, ∀ keys, SameUnless P (enact keys i) (enact' keys i))
    (required : List Key) :
    SameUnless P (site.walk enact required is) (site.walk enact' required is) := by
  induction is generalizing required with
  | nil => exact .refl _
  | cons i rest ih =>
    have hrest := ih fun j hj => h j (List.mem_cons_of_mem i hj)
    have hcascade : ∀ j ∈ Instruction.cascade (i :: rest),
        SameUnless P (enact required j) (enact' required j) := by
      intro j hj
      exact h j (List.mem_filter.1 (mem_of_mem_upThrough hj)).1 required
    unfold walk
    refine (SameUnless.refl _).bind fun s => ?_
    cases s.failed with
    | true => exact (SameUnless.refl _).bind fun _ => .forM hcascade
    | false =>
      cases i.isFailure with
      | true => exact hrest required
      | false => exact (h i List.mem_cons_self required).bind fun _ => hrest _

namespace Family.SameBut

variable {q : ι} {family family' : Family ι} (hs : family.SameBut q family')
  {launch launch' : Launch ι} (hl : launch.SameUnless P launch')
include hs hl

/-- The induction is on how deep the instruction goes. -/
theorem enact (site : Site ι) (i : Instruction ι) (keys : List Key) :
    SameUnless P (site.enact family launch keys i) (site.enact family' launch' keys i) := by
  induction i using Instruction.induction generalizing site keys with
  | step _ _ | failure _ _ | gate _ => exact hs.enact_of hl site (.refl _) keys
  | wrap h o children ih =>
    refine hs.enact_of hl site ?_ keys
    rw [Site.traverse_eq_walk, Site.traverse_eq_walk]
    exact site.deeper.walk_sameUnless (fun c hc => ih c hc site.deeper) []

theorem traverse (site : Site ι) (is : List (Instruction ι)) (required : List Key) :
    SameUnless P (site.traverse family launch required is)
      (site.traverse family' launch' required is) := by
  rw [Site.traverse_eq_walk, Site.traverse_eq_walk]
  exact site.walk_sameUnless (fun i _ => hs.enact hl site i) required

theorem run (tree : Tree ι) (p : ι) (level : Level) :
    SameUnless P (tree.run family launch p level) (tree.run family' launch' p level) := by
  have htraverse := hs.traverse hl ⟨p, tree.settings, level⟩ tree.roots []
  rw [Tree.run_eq, Tree.run_eq]
  refine (SameUnless.refl _).bind fun _ => SameUnless.bind ?_ fun _ => .refl _
  unfold Tree.body Family.body
  rw [hs.entry_eq]
  refine htraverse.bind fun _ => ?_
  cases (family p).entry with
  | none => exact .refl _
  | some c =>
    exact (SameUnless.refl _).bind fun s => (enter_sameUnless hl p c _).bind fun _ => .refl _

end Family.SameBut

/-! ## Runs -/

section

variable [DecidableEq ι] {q : ι} {family family' : Family ι}

/-- A run of a pipeline tells of the pipeline, whatever its declarations are. -/
theorem Family.concerns_runWith (launch : Launch ι) (level : Level) (w : World ι) :
    ∃ e ∈ (family.runWith launch family.tree q level w).events, e.concerns q = true := by
  have hdeclaring : (Event.declaring q : Event ι).concerns q = true := by
    simp [Event.concerns, Event.builds]
  have hstarted : (Event.started q level : Event ι).concerns q = true := by
    simp [Event.concerns, Event.starts]
  have hfirst : Event.declaring q ∈ family.declaring q := List.mem_cons_self
  have hrun : family.runWith launch family.tree q level =
      (family.tree q >>= fun tree => tree.run family launch q level) := by
    rw [family.runWith_eq]
  rw [hrun]
  cases hw : w.forest.find? q with
  | some tree =>
    rw [Exec.bind_of_ok (family.tree_of_find? hw), tree.run_eq,
      Exec.bind_of_ok (Exec.emit_apply _ w)]
    exact ⟨_,List.mem_cons_self,hstarted⟩
  | none =>
    cases hc : family.compile q with
    | ok tree =>
      rw [Exec.bind_of_ok (family.tree_of_ok hw hc)]
      exact ⟨_,List.mem_append_left _ (List.mem_append_left _ hfirst),hdeclaring⟩
    | error f =>
      rw [Exec.bind_of_error (family.tree_of_error hw hc)]
      exact ⟨_,List.mem_append_left _ hfirst,hdeclaring⟩

variable (hs : family.SameBut q family')
include hs

theorem Family.SameBut.launch (depth : Nat) :
    (family.launchWith family.tree depth).SameUnless (fun e => e.concerns q = true)
      (family'.launchWith family'.tree depth) := by
  induction depth with
  | zero => exact ⟨fun _ _ => .refl _,fun _ _ _ => .refl _⟩
  | succ depth ih =>
    have hrun : ∀ p level, SameUnless (fun e : Event ι => e.concerns q = true)
        (family.runWith (family.launchWith family.tree depth) family.tree p level)
        (family'.runWith (family'.launchWith family'.tree depth) family'.tree p level) := by
      intro p level
      by_cases h : p = q
      · rw [h]
        exact fun w => Or.inl (family.concerns_runWith _ level w)
      · rw [family.runWith_eq, family'.runWith_eq]
        simp only [hs.tree_eq h]
        exact (SameUnless.refl _).bind fun tree => hs.run ih tree p level
    rw [family.launchWith_succ, family'.launchWith_succ]
    refine ⟨hrun,fun p o level => ?_⟩
    show SameUnless _ (family.invokeBy _ _ p o level) (family'.invokeBy _ _ p o level)
    unfold invokeBy
    rw [hs.entry_eq]
    cases (family p).entry with
    | some c => exact enter_sameUnless ih p c o
    | none => exact (hrun p level).bind fun _ => .refl _

/-- A request that comes to no need of the pipeline, and to no run of it, does the same whatever the
pipeline declares. -/
theorem Request.exec_unneeded (depth : Nat) (r : Request ι) {w : World ι}
    (h : ∀ e ∈ (r.exec family depth w).events, e.concerns q = false) :
    r.exec family' depth w = r.exec family depth w := by
  have hl := hs.launch depth
  have hsame : SameUnless (fun e => e.concerns q = true) (r.exec family depth)
      (r.exec family' depth) := by
    rw [r.exec_eq, r.exec_eq]
    cases r with
    | call p params =>
      exact (SameUnless.refl _).bind fun _ => (hl.run p 0).bind fun _ => .refl _
    | run p level => exact (hl.run p level).bind fun _ => .refl _
    | invoke p o level => exact hl.invoke p o level
  rcases hsame w with ⟨e,hmem,hp⟩ | hx
  · rw [h e hmem] at hp
    cases hp
  · exact hx

end

end Cascade
