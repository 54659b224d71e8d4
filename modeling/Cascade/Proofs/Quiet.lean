import Cascade.Proofs.Session
import Cascade.Proofs.FailedMark
import Cascade.Proofs.Declared.Quiet

/-! # Diagnostics are not read back

Two families that are the same without debug and logger declarations have trees that differ in what
is traced at most. Then every session with the one goes as with the other: it ends alike, in the
same states, and with the same events but for the records that the loggers are given.
-/
namespace Cascade

variable {ι : Type}

/-! ## Leaving records out -/

def Forest.quiet (forest : Forest ι) : Forest ι := forest.map fun p => (p.1, p.2.quiet)

def World.quiet (w : World ι) : World ι := { w with forest := w.forest.quiet }

def Answer.quiet : Answer ι → Answer ι
  | tree t => .tree t.quiet
  | value v => .value v

def Event.isLogged : Event ι → Bool
  | logged .. => true
  | _ => false

def unlogged (events : List (Event ι)) : List (Event ι) := events.filter fun e => !e.isLogged

/-- What a turn comes to, without the records and without what trees say of them. -/
def Outcome.quiet (out : Outcome ι (Answer ι)) : Outcome ι (Answer ι) :=
  ⟨out.result.map Answer.quiet, out.world.quiet, unlogged out.events⟩

@[simp] theorem unlogged_append (d e : List (Event ι)) :
    unlogged (d ++ e) = unlogged d ++ unlogged e := List.filter_append d e

theorem World.quiet_eq_iff {u v : World ι} :
    u.quiet = v.quiet ↔ u.state = v.state ∧ u.forest.quiet = v.forest.quiet := by
  unfold quiet
  rw [World.mk.injEq]

theorem World.quiet_eq_of {u v : World ι} (h : u.quiet = v.quiet) (s : State) :
    ({ u with state := s } : World ι).quiet = ({ v with state := s } : World ι).quiet :=
  quiet_eq_iff.2 ⟨rfl,(quiet_eq_iff.1 h).2⟩

theorem Forest.find?_quiet [DecidableEq ι] (forest : Forest ι) (q : ι) :
    forest.quiet.find? q = (forest.find? q).map Tree.quiet := by
  induction forest with
  | nil => rfl
  | cons p rest ih =>
    obtain ⟨r,tree⟩ := p
    have hcons : Forest.quiet ((r, tree) :: rest) = (r, tree.quiet) :: Forest.quiet rest := rfl
    rw [hcons, find?, find?]
    split
    · rfl
    · exact ih

theorem Tree.quiet_eq_iff {t t' : Tree ι} :
    t.quiet = t'.quiet ↔ t.roots = t'.roots ∧ t.settings.quiet = t'.settings.quiet := by
  unfold quiet
  rw [Tree.mk.injEq]

/-! ## Runs -/

/-- What two runs do is the same, apart from what they log. -/
def quietly (ι : Type) : Comparison ι where
  Joined u v := u.quiet = v.quiet
  Holds u _ d e u' v' := unlogged d = unlogged e ∧ u'.quiet = v'.quiet ∧
    (u.state.failed = true → u'.state.failed = true)
  refl h := ⟨rfl,h,id⟩
  trans h h' := by
    refine ⟨?_,h'.2.1,h'.2.2 ∘ h.2.2⟩
    rw [unlogged_append, unlogged_append, h.1, h'.1]
  joined h := h.2.1
  state_eq h := (World.quiet_eq_iff.1 h).1
  sticky h := h.2.2

def quietRun (ι : Type) : Likeness ι :=
  (quietly ι).likeness (.same (fun s s' => s.quiet = s'.quiet) fun _ _ => True) fun _ => True

theorem quietRun_tolerant : (quietRun ι).Tolerant := by
  refine Comparison.tolerant (fun _ => trivial) ?_ ?_
  · intro c u v s hj hc
    exact ⟨rfl,World.quiet_eq_of hj _,Change.failed_of_apply hc⟩
  · intro f u v hj _
    refine ⟨?_,hj,id⟩
    rw [(quietly ι).state_eq hj]

variable {family family' : Family ι}

section

variable (h : family.quiet = family'.quiet)
include h

theorem quietRun_governs : (quietRun ι).Governs family family' where
  toTolerant := quietRun_tolerant
  signature := family.signature_of_quiet h
  entry := family.entry_of_quiet h
  around := family.around_of_quiet h
  entry_suits _ _ := Program.suits_of_forall (fun _ => trivial) _
  around_suits _ _ := Program.suits_of_forall (fun _ => trivial) _
  mates hi := by
    cases hi.1
    exact .refl _
  handler_suits {_ _ i _} _ := i.handler.suits_of_forall fun _ => trivial
  fits _ := Or.inr fun _ => trivial
  container hs _ _ _ _ _ := Settings.container_of_quiet hs.settings
  announced {site site'} hs i i' hi u v hj _ := by
    cases hi.1
    have hx := site.announce_apply family i u
    have hy := site'.announce_apply family' i v
    refine Exec.alikeAt_of_eq hx hy (.ok rfl ⟨?_,hj,id⟩)
    rw [hs.pipeline, hs.level, (quietly ι).state_eq hj]
    cases site.settings.debug <;> cases site'.settings.debug <;> rfl
  returned {site site'} hs i i' hi u v hj result := by
    cases hi.1
    refine ⟨?_,?_,i.failed_verdict_of_failed result⟩
    · rw [hs.pipeline, hs.level]
    · rw [(quietly ι).state_eq hj]
      exact World.quiet_eq_of hj _
  cascading {site site'} hs u v hj := by
    refine ⟨?_,hj,id⟩
    rw [hs.pipeline, hs.level]
  entered hj _ _ := ⟨rfl,hj,id⟩
  finished hj q level := by
    refine ⟨?_,hj,id⟩
    rw [(quietly ι).state_eq hj]

theorem tree_quietly [DecidableEq ι] (q : ι) :
    Exec.Alike (quietRun ι) (Tree.Alike (quietRun ι) q) (family.tree q) (family'.tree q) := by
  have halike : ∀ {t t' : Tree ι}, t.quiet = t'.quiet → t.Alike (quietRun ι) q t' := by
    intro t t' ht
    have ht := Tree.quiet_eq_iff.1 ht
    exact ⟨ht.1,fun _ => ⟨rfl,rfl,ht.2⟩,fun _ _ _ => ⟨rfl,trivial⟩⟩
  intro u v hj
  have hstate := (quietly ι).state_eq hj
  have hforest := (World.quiet_eq_iff.1 hj).2
  have hfind : (u.forest.find? q).map Tree.quiet = (v.forest.find? q).map Tree.quiet := by
    rw [← Forest.find?_quiet, ← Forest.find?_quiet, hforest]
  have hdeclare := family.declaring_of_quiet h q
  cases hu : u.forest.find? q with
  | some t =>
    rw [hu] at hfind
    obtain ⟨t',hv,ht⟩ := Option.map_eq_some_iff.1 hfind.symm
    have hx := family.tree_of_find? hu
    have hy := family'.tree_of_find? hv
    exact Exec.alikeAt_of_eq hx hy (.ok (halike ht.symm) ⟨rfl,hj,id⟩)
  | none =>
    rw [hu] at hfind
    have hv : v.forest.find? q = none := Option.map_eq_none_iff.1 hfind.symm
    cases hc : family.compile q with
    | ok t =>
      obtain ⟨t',hc',ht⟩ := family.compile_ok_of_quiet h hc
      have hx := family.tree_of_ok hu hc
      have hy := family'.tree_of_ok hv hc'
      rw [← hdeclare] at hy
      refine Exec.alikeAt_of_eq hx hy
        (.ok (halike ht) ⟨rfl,World.quiet_eq_iff.2 ⟨hstate,?_⟩,id⟩)
      show (q, t.quiet) :: u.forest.quiet = (q, t'.quiet) :: v.forest.quiet
      rw [ht, hforest]
    | error f =>
      have hx := family.tree_of_error hu hc
      have hy := family'.tree_of_error hv (family.compile_error_of_quiet h hc)
      rw [← hdeclare, ← hstate] at hy
      exact Exec.alikeAt_of_eq hx hy (.halted ⟨⟨rfl,hj,id⟩,fun _ _ => trivial⟩)

end

theorem Outcome.AlikeSince.quiet {out out' : Outcome ι (Answer ι)}
    (ho : out.AlikeSince (quietRun ι) out') : out.quiet = out'.quiet := by
  obtain ⟨u,v,ha⟩ := ho
  obtain ⟨hevents,hworld,_⟩ := ha.holds
  have hresult : out.result.map Answer.quiet = out'.result.map Answer.quiet := by
    obtain ⟨a,b,hab,hout,hout'⟩ | ⟨halt,hout,hout',_⟩ := ha.result
    · rw [hout, hout']
      cases hab with
      | tree ht =>
        have ht := Tree.quiet_eq_iff.2 ⟨ht.roots,(ht.sites 0).settings⟩
        simp [Except.map, Answer.quiet, ht]
      | value v => rfl
    · rw [hout, hout']
  unfold Outcome.quiet
  rw [hresult, hevents, hworld]

/-- In families that differ in diagnostics at most, and from worlds whose trees do so too, each turn
comes to the same: the same value or fault, a tree with the same instructions and container, the
same state, and the same events but for the records. Reports of events name pipelines alike. -/
theorem session_quiet [DecidableEq ι] {family family' : Family ι}
    (h : family.quiet = family'.quiet) (depth : Nat) (turns : List (Turn ι)) {u v : World ι}
    (hw : u.quiet = v.quiet) :
    family.signature = family'.signature ∧
      (session family depth turns u).map Outcome.quiet =
        (session family' depth turns v).map Outcome.quiet := by
  have hr : (quietRun ι).Resumes := fun s hj => World.quiet_eq_of hj s
  have hall := session_alike (quietRun_governs h) (fun _ => trivial) hr (tree_quietly h)
    (fun hj _ _ => ⟨rfl,hj,id⟩) id id depth turns hw
  refine ⟨family.signature_of_quiet h,?_⟩
  rw [← List.forall₂_eq_eq_eq, List.forall₂_map_left_iff, List.forall₂_map_right_iff]
  exact hall.imp fun _ _ ho => ho.quiet

/-- A pipeline whose wrap and step are traced. -/
def traced : Family Unit := fun _ =>
  { name := "p"
    declarations := [.debug true, .wrap (.around (.call .next fun v => .done v)) .empty
      [.logger (.collector "c"), .step (.function (.done .null)) .empty]] }

def untraced : Family Unit := fun _ =>
  { name := "p"
    declarations := [.wrap (.around (.call .next fun v => .done v)) .empty
      [.step (.function (.done .null)) .empty, .debug false]] }

theorem session_quiet_traced :
    let turns : List (Turn Unit) := [.request id (.run () 0), .tree ()]
    let logged := fun out : Outcome Unit (Answer Unit) => (out.events.filter Event.isLogged).length
    (session traced 1 turns {}).map logged = [2, 0] ∧
    (session untraced 1 turns {}).map logged = [0, 0] ∧ traced.quiet = untraced.quiet ∧
    traced.signature = untraced.signature ∧
      (session traced 1 turns {}).map Outcome.quiet =
        (session untraced 1 turns {}).map Outcome.quiet := by
  intro turns logged
  have h : traced.quiet = untraced.quiet := rfl
  exact ⟨rfl,rfl,h,session_quiet h 1 turns rfl⟩

end Cascade
