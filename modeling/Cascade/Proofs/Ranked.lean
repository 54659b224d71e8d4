import Mathlib.Data.Fintype.Card
import Cascade.Proofs.Leeway.Run

/-! # Ranked families come to an end

If the pipelines of a family can be ranked so that each stands above all that it may start, a run is
never too deep, given a depth above the rank of its pipeline. So what it comes to does not depend on
the depth. In a finite family the number of pipelines is such a depth, whatever the ranks are.
-/
namespace Cascade

open Declaration (imageOf)
open Instruction (nodesOf)

variable {ι : Type}

/-- All that a pipeline may start has a smaller rank: what its handlers run and invoke, what they
stand for, and what its container may choose in any state. -/
structure Family.Ranked (family : Family ι) (rank : ι → Nat) : Prop where
  programs (q : ι) : (family q).All (Program.StartsOnly fun p => rank p < rank q)
  handler {q p : ι} {i : Instruction ι} (hi : family.Has q i) (h : i.handler = .pipeline p) :
    rank p < rank q
  registered {q : ι} {tree : Tree ι} {registry : Registry ι} {entry : String}
    {registration : Registration ι} (ht : family.compile q = .ok tree)
    (hc : tree.settings.container = some registry)
    (hr : registry.resolve? entry = some registration) (s : State) :
    rank (registration.pipelineFor s) < rank q

/-- A run compared with itself, started within each other to other depths, but never too deep. -/
def Simulation.untiring [DecidableEq ι] (family : Family ι) : Simulation ι where
  Levels := (· = ·)
  Opts := (· = ·)
  deeper := Leeway.deeper_of_eq
  refl _ := rfl
  agree := .of_eq
  Forests f g := f = g ∧ f.Faithful family
  Told d e := d = e
  tires := False
  told_nil := rfl
  told_append h h' := by rw [h, h']
  told_one h := by
    have he := h.deepen_eq id (j := 0) (k := 0) (congrArg (· + 0))
    rw [Event.deepen_zero, Event.deepen_zero] at he
    rw [he]

namespace Family.Ranked

variable [DecidableEq ι] {family : Family ι} {rank : ι → Nat} (h : family.Ranked rank)
include h

theorem upTo : family.UpTo (Simulation.untiring family).toLeeway (fun q p => rank p < rank q)
    family :=
  (Family.suits_of_same id (fun _ => rfl) (fun _ => rfl) (fun _ => rfl) h.programs
    (fun _ _ hp => ⟨hp,fun _ => rfl⟩) h.handler h.registered
    fun hq hr => Nat.lt_trans hr hq).upTo_self

theorem needs : (Simulation.untiring family).Needs family family.tree family.tree := by
  refine Simulation.Grows.needs h.upTo ⟨?_,?_,?_⟩
  · rintro f _ ⟨rfl,hf⟩
    exact ⟨hf,hf⟩
  · rintro f _ ⟨rfl,hf⟩ q t t' hc hc'
    rw [hc] at hc'
    cases hc'
    exact ⟨rfl,hf.cons hc⟩
  · rintro f _ ⟨rfl,_⟩ q t t' _ _
    exact Or.inl Iff.rfl

/-- What is started by a pipeline has a smaller rank, so it is started with one level less to go. By
induction on the rank that both depths allow for. -/
theorem launch_paired (n : Nat) {depth depth' : Nat} (hd : n ≤ depth) (hd' : n ≤ depth') :
    (family.launchWith family.tree depth).Paired (Simulation.untiring family) (fun q => rank q < n)
      (family.launchWith family.tree depth') := by
  induction n generalizing depth depth' with
  | zero =>
    constructor
    · exact fun hq => absurd hq (Nat.not_lt_zero _)
    · exact fun hq => absurd hq (Nat.not_lt_zero _)
  | succ n ih =>
    obtain ⟨d,rfl⟩ := Nat.exists_eq_add_of_le' hd
    obtain ⟨d',rfl⟩ := Nat.exists_eq_add_of_le' hd'
    have hlower := ih (Nat.le_add_left n d) (Nat.le_add_left n d')
    refine Family.launchWith_succ_paired h.upTo.toSuits h.needs hlower fun q hq p hp => ?_
    exact Nat.lt_of_lt_of_le hp (Nat.le_of_lt_succ hq)

omit [DecidableEq ι] in
/-- If it can be ranked at all, the number of pipelines that rank below is a rank. -/
theorem compressed [Fintype ι] :
    family.Ranked fun q => (Finset.univ.filter fun p => rank p < rank q).card := by
  have hlt : ∀ {p q : ι}, rank p < rank q →
      (Finset.univ.filter fun r => rank r < rank p).card <
        (Finset.univ.filter fun r => rank r < rank q).card := by
    intro p q hpq
    refine Finset.card_lt_card (Finset.ssubset_iff_of_subset ?_ |>.2 ⟨p,?_,?_⟩)
    · intro r hr
      rw [Finset.mem_filter] at hr ⊢
      exact ⟨hr.1,Nat.lt_trans hr.2 hpq⟩
    · simp [hpq]
    · simp
  refine ⟨fun q => ?_,fun hi hp => hlt (h.handler hi hp),fun ht hc hr s => ?_⟩
  · exact (h.programs q).imp fun _ hp => hp.mono fun _ => hlt
  · exact hlt (h.registered ht hc hr s)

end Family.Ranked

theorem Answer.UpTo.eq {R : Options → Options → Prop} (hR : ∀ {o o'}, R o o' → o = o')
    {a a' : Answer ι} (h : a.UpTo R a') : a = a' := by
  cases h with
  | @tree t t' ht =>
    obtain ⟨roots,settings⟩ := t
    obtain ⟨roots',settings'⟩ := t'
    cases ht.roots.eq hR
    cases ht.settings
    rfl
  | value v => rfl

variable [DecidableEq ι] {family : Family ι}

theorem Outcome.Paired.untiring_eq {out out' : Outcome ι (Answer ι)}
    (h : out.Paired (.untiring family) (Answer.UpTo (· = ·)) out') :
    out = out' ∧ ((∃ a, out.result = .ok a) ∨ ∃ f, out.result = .error (.fault f)) := by
  obtain ⟨result,⟨s,f⟩,d⟩ := out
  obtain ⟨result',⟨s',f'⟩,d'⟩ := out'
  obtain ⟨hends,htold,hstate,hforest,_⟩ := h
  cases htold
  cases hstate
  cases hforest
  cases hends.eq id fun ha => ha.eq id
  refine ⟨rfl,?_⟩
  cases hends with
  | ok _ => exact Or.inl ⟨_,rfl⟩
  | fault _ => exact Or.inr ⟨_,rfl⟩
  | tooDeep ht => cases ht

/-- In a finite family that can be ranked, every turn of a session ends, with an answer or with a
fault, if as many pipelines may be started within each other as there are; and if more may be, each
turn comes to the same. -/
theorem session_ends [Fintype ι] {rank : ι → Nat} (h : family.Ranked rank) {depth : Nat}
    (hd : Fintype.card ι ≤ depth) (turns : List (Turn ι)) {w : World ι}
    (hw : w.forest.Faithful family) :
    (∀ out ∈ session family depth turns w,
      (∃ a, out.result = .ok a) ∨ ∃ f, out.result = .error (.fault f)) ∧
    session family depth turns w = session family (Fintype.card ι) turns w := by
  have hranked := h.compressed
  have hbelow : ∀ q, (Finset.univ.filter fun p => rank p < rank q).card < Fintype.card ι := by
    intro q
    rw [← Finset.card_univ]
    refine Finset.card_lt_card (Finset.ssubset_univ_iff.2 fun huniv => ?_)
    have hq := Finset.mem_univ q
    rw [← huniv, Finset.mem_filter] at hq
    exact Nat.lt_irrefl _ hq.2
  have hall : ∀ {depth'}, Fintype.card ι ≤ depth' →
      List.Forall₂ (Outcome.Paired (.untiring family) (Answer.UpTo (· = ·)))
        (session family depth turns w) (session family depth' turns w) := by
    intro depth' hd'
    have hl := (hranked.launch_paired _ hd hd').mono (S := fun _ => True) fun q _ => hbelow q
    rw [session_eq, session_eq]
    exact sessionBy_paired hl (fun _ => rfl) hranked.needs turns ⟨rfl,rfl,hw⟩
  constructor
  · intro out hout
    exact (List.forall₂_same.1 (hall hd) out hout).untiring_eq.2
  · rw [← List.forall₂_eq_eq_eq]
    exact (hall (Nat.le_refl _)).imp fun _ _ ho => ho.untiring_eq.1

inductive Job where
  | batch | item | report
deriving DecidableEq

instance : Fintype Job := ⟨{.batch, .item, .report}, fun j => by cases j <;> decide⟩

/-- Runs its continuation, and once more if that meets a fault. -/
def retrying : Program Job := .attempt .next fun
  | .ok v => .done v
  | .error _ => .call .next fun v => .done v

/-- A batch tries twice to run an item, which runs a report by itself unless it is the report. -/
def batches : Family Job
  | .batch => { name := "batch", declarations :=
      [.container (Registry.empty.register "item" (.byFlag "last" .report .item)),
        .wrap (.around retrying) .empty [.step (.named "item") .empty]] }
  | .item => { name := "item", declarations :=
      [.step (.function (.change (.set "last" (.bool true))
        (.call (.run .report 7) fun _ => .raise (.handler "late")))) .empty] }
  | .report => { name := "report", declarations :=
      [.step (.function (.done (.bool true))) .empty] }

def Job.rank : Job → Nat
  | batch => 2
  | item => 1
  | report => 0

theorem batches_ranked : batches.Ranked Job.rank where
  programs q := by
    refine ⟨?_,by cases q <;> nofun,by cases q <;> nofun⟩
    cases q with
    | batch =>
      have hretrying : retrying.StartsOnly fun p => p.rank < 2 := by
        refine ⟨trivial,fun r => ?_⟩
        cases r with
        | ok v => trivial
        | error f => exact ⟨trivial,fun _ => trivial⟩
      exact List.forall_mem_cons.2 ⟨trivial,List.forall_mem_cons.2 ⟨hretrying,
        List.forall_mem_singleton.2 trivial⟩⟩
    | item =>
      have hreport : Job.report.rank < Job.item.rank := by decide
      exact List.forall_mem_singleton.2 ⟨hreport,fun _ => trivial⟩
    | report => exact List.forall_mem_singleton.2 trivial
  handler {q p i} hi h := by
    obtain ⟨tree,ht,hi⟩ := hi
    obtain ⟨_,rfl⟩ := (batches.compile_eq_ok_iff q).1 ht
    have hnone : ∀ i ∈ nodesOf (imageOf (batches q).declarations), i.handler ≠ .pipeline p := by
      cases q with
      | batch => exact List.forall_mem_cons.2 ⟨nofun,List.forall_mem_singleton.2 nofun⟩
      | item | report => exact List.forall_mem_singleton.2 nofun
    exact absurd h (hnone i hi)
  registered {q tree registry entry registration} ht hc hr s := by
    obtain ⟨_,rfl⟩ := (batches.compile_eq_ok_iff q).1 ht
    cases q with
    | batch =>
      cases hc
      rw [Registry.resolve?_register] at hr
      split at hr
      · cases hr
        show Job.rank (ite _ _ _) < 2
        split <;> decide
      · cases hr
    | item | report => cases hc

theorem session_ends_batches :
    let turns : List (Turn Job) := [.request id (.run .batch 0)]
    let started := fun out : Outcome Job (Answer Job) => out.events.filterMap fun
      | .started q level => some (q, level)
      | _ => none
    (session batches 3 turns {}).map started =
      [[(.batch, 0), (.item, 2), (.report, 7), (.report, 2)]] ∧
    (∃ rank, batches.Ranked rank) ∧ Fintype.card Job ≤ 5 ∧
    (∀ out ∈ session batches 5 turns {},
      (∃ a, out.result = .ok a) ∨ ∃ f, out.result = .error (.fault f)) ∧
    session batches 5 turns {} = session batches (Fintype.card Job) turns {} := by
  intro turns started
  have hdepth : Fintype.card Job ≤ 5 := by decide
  obtain ⟨hends,hsame⟩ := session_ends batches_ranked hdepth turns (w := {}) Forest.faithful_nil
  exact ⟨by decide +kernel,⟨_,batches_ranked⟩,hdepth,hends,hsame⟩

end Cascade
