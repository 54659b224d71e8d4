import Cascade.Proofs.Law.Basic

/-! # Laws of whole runs

A law governs a family if it is kept by the single acts of a run: a change, a fault, an instruction
announced, a result given back, a note. Then every pipeline and every request obeys it.
Instructions are announced only where the failed mark fits them, so the law has to be kept only
there; for this it has to imply that the mark stays.
-/
namespace Cascade

open Json (Value)

variable {ι : Type} {law : Law ι}

structure Law.Governs (law : Law ι) (family : Family ι) : Prop extends law.Tolerant where
  sticky {u v : World ι} {events : List (Event ι)} (h : law.Holds u events v) :
    u.state.failed = true → v.state.failed = true
  announced (site : Site ι) {i : Instruction ι} {w : World ι} (h : w.state.failed = i.isFailure) :
    (site.announce family i).ObeysAt law w
  returned (site : Site ι) (i : Instruction ι) (result : Value) (w : World ι) :
    law.Holds w [.returned site.pipeline site.level i result]
      { w with state := i.verdict result w.state }
  noted {e : Event ι} (h : e.isNote = true) (w : World ι) : law.Holds w [e] w
  finished (q : ι) (level : Level) (w : World ι) :
    law.Holds w [.finished q level w.state.successful] w
  stored (w : World ι) (forest : Forest ι) : law.Holds w [] { w with forest := forest }

variable {family : Family ι}

namespace Law.Governs

variable (hg : law.Governs family)
include hg

theorem tolerant : law.everywhere.Tolerant := by
  refine Comparison.tolerant (fun _ => trivial) ?_ ?_
  · rintro c u v s ⟨rfl,_⟩ h
    exact ⟨⟨rfl,rfl,rfl⟩,hg.changed h,trivial,hg.sticky (hg.changed h)⟩
  · rintro f u v ⟨rfl,_⟩ _
    exact ⟨⟨rfl,rfl,rfl⟩,hg.raised f u,trivial,id⟩

theorem everywhere : law.everywhere.Governs family family where
  toTolerant := hg.tolerant
  signature := rfl
  entry _ := rfl
  around _ := rfl
  entry_suits _ _ := Program.suits_of_forall (fun _ => trivial) _
  around_suits _ _ := Program.suits_of_forall (fun _ => trivial) _
  mates hi := by
    cases hi.1
    exact .refl _
  handler_suits {_ _ i _} _ := i.handler.suits_of_forall fun _ => trivial
  fits _ := Or.inr fun _ => trivial
  container hs _ _ _ _ _ := congrArg Settings.container hs.settings
  announced {site site'} hs i i' hi u v hj hf := by
    cases hs.eq
    cases hi.1
    cases hj.1
    have h := hg.announced site hf
    unfold Exec.ObeysAt at h
    rw [Site.announce_apply] at h
    have hx := site.announce_apply family i u
    exact Exec.alikeAt_of_eq hx hx (.ok rfl ⟨⟨rfl,rfl,rfl⟩,h,trivial,id⟩)
  returned {site site'} hs i i' hi u v hj result := by
    cases hs.eq
    cases hi.1
    cases hj.1
    have h := hg.returned site i result u
    exact ⟨⟨rfl,rfl,rfl⟩,h,trivial,hg.sticky h⟩
  cascading {site site'} hs u v hj := by
    cases hs.eq
    cases hj.1
    exact ⟨⟨rfl,rfl,rfl⟩,hg.noted rfl u,trivial,id⟩
  entered {u v} hj q o := by
    cases hj.1
    exact ⟨⟨rfl,rfl,rfl⟩,hg.noted rfl u,trivial,id⟩
  finished {u v} hj q level := by
    cases hj.1
    exact ⟨⟨rfl,rfl,rfl⟩,hg.finished q level u,trivial,id⟩

theorem emit_obeys {e : Event ι} (h : e.isNote = true) : (Exec.emit e).Obeys law :=
  fun w => hg.noted h w

theorem emitAll_obeys {events : List (Event ι)} (h : ∀ e ∈ events, e.isNote = true) :
    (Exec.emitAll events).Obeys law := by
  intro w
  unfold Exec.ObeysAt
  rw [Exec.emitAll_apply]
  induction events with
  | nil => exact law.refl w
  | cons e rest ih =>
    have he := hg.noted (h e List.mem_cons_self) w
    exact law.trans he (ih fun d hd => h d (List.mem_cons_of_mem e hd))

theorem build_obeys (q : ι) : (family.build q).Obeys law := by
  refine (hg.emit_obeys rfl).bind fun _ => ?_
  refine (hg.emitAll_obeys ?_).bind fun _ => ?_
  · intro e he
    obtain ⟨p,_,rfl⟩ := List.mem_map.1 he
    rfl
  · refine (hg.obeys_ofExcept _).bind fun tree => ?_
    exact (hg.emit_obeys rfl).bind fun _ => Exec.obeys_pure tree

theorem tree_obeys [DecidableEq ι] (q : ι) : (family.tree q).Obeys law := by
  intro w
  unfold Exec.ObeysAt Family.tree
  cases w.forest.find? q with
  | some tree => exact law.refl w
  | none => exact (hg.build_obeys q w).bind fun tree v _ _ => hg.stored v _

section

variable {need : ι → Exec ι (Tree ι)} (hn : ∀ q, (need q).Obeys law)
include hn

theorem launchWith_alike (depth : Nat) :
    (family.launchWith need depth).Alike law.everywhere (family.launchWith need depth) := by
  have hneed : ∀ q, Exec.Alike law.everywhere (Tree.Alike law.everywhere q) (need q) (need q) := by
    intro q
    refine (hn q).alike (fun tree => ?_) fun w => hg.sticky (hn q w)
    exact ⟨rfl,fun _ => ⟨rfl,rfl,rfl⟩,fun _ _ _ => ⟨rfl,trivial⟩⟩
  have hstarts : law.everywhere.Starts need need := by
    refine Likeness.starts_of_need hneed ?_
    rintro u v ⟨rfl,_⟩ q level
    exact ⟨⟨rfl,rfl,rfl⟩,hg.noted rfl u,trivial,id⟩
  exact hg.everywhere.launchWith_alike (fun _ => trivial) hstarts depth

theorem launchWith_obeys (depth : Nat) : (family.launchWith need depth).Obeys law := by
  have hl := hg.launchWith_alike hn depth
  exact ⟨fun q level => (hl.run q level).obeys,fun q o level => (hl.invoke q o level).obeys⟩

theorem traverse_obeys (depth : Nat) (site : Site ι) (is : List (Instruction ι))
    (required : List Key) :
    (site.traverse family (family.launchWith need depth) required is).Obeys law := by
  have hl := hg.launchWith_alike hn depth
  have hself : law.everywhere.Sites site site := ⟨rfl,rfl,rfl⟩
  exact (hg.everywhere.traverse_alike hl (fun _ => trivial) hself
    (fun _ _ => ⟨rfl,trivial⟩) required).obeys

end

end Law.Governs

end Cascade
