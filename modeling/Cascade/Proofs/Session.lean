import Mathlib.Data.List.Forall2
import Cascade.Proofs.Request

/-! # Sessions

A session is a list of turns of a caller: it asks for the tree of a pipeline, or it makes a request
on a state that it has got ready from the one left by the turn before. The compiled trees stay from
turn to turn, also after a fault.
-/
namespace Cascade

open Json (Value)

variable {ι : Type}

inductive Turn (ι : Type) where
  | tree (q : ι)
  | request (prepare : State → State) (r : Request ι)

inductive Answer (ι : Type) where
  | tree (t : Tree ι)
  | value (v : Value)

def Turn.exec [DecidableEq ι] (family : Family ι) (depth : Nat) (w : World ι) :
    Turn ι → Outcome ι (Answer ι)
  | tree q => (family.tree q >>= fun t => pure (.tree t) : Exec ι (Answer ι)) w
  | request prepare r => (r.exec family depth >>= fun v => pure (.value v) : Exec ι (Answer ι))
      { w with state := prepare w.state }

/-- What each turn of the session comes to. -/
def session [DecidableEq ι] (family : Family ι) (depth : Nat) :
    List (Turn ι) → World ι → List (Outcome ι (Answer ι))
  | [], _ => []
  | t :: rest, w => t.exec family depth w :: session family depth rest (t.exec family depth w).world

/-! ## By what is launched -/

def Turn.execBy (launch : Launch ι) (need : ι → Exec ι (Tree ι)) (w : World ι) :
    Turn ι → Outcome ι (Answer ι)
  | tree q => (need q >>= fun t => pure (.tree t) : Exec ι (Answer ι)) w
  | request prepare r => (r.execBy launch >>= fun v => pure (.value v) : Exec ι (Answer ι))
      { w with state := prepare w.state }

def sessionBy (launch : Launch ι) (need : ι → Exec ι (Tree ι)) :
    List (Turn ι) → World ι → List (Outcome ι (Answer ι))
  | [], _ => []
  | t :: rest, w =>
    t.execBy launch need w :: sessionBy launch need rest (t.execBy launch need w).world

theorem Turn.exec_eq [DecidableEq ι] (family : Family ι) (depth : Nat) (t : Turn ι)
    (w : World ι) : t.exec family depth w =
      t.execBy (family.launchWith family.tree depth) family.tree w := by
  cases t with
  | tree q => rfl
  | request prepare r => simp only [Turn.exec, Turn.execBy, r.exec_eq]

theorem session_eq [DecidableEq ι] (family : Family ι) (depth : Nat) (turns : List (Turn ι))
    (w : World ι) : session family depth turns w =
      sessionBy (family.launchWith family.tree depth) family.tree turns w := by
  induction turns generalizing w with
  | nil => rfl
  | cons t rest ih => rw [session, sessionBy, t.exec_eq, ih]

/-- What is said of two worlds holds in two sessions at all times if every turn keeps it. -/
theorem sessionBy_rel {launch launch' : Launch ι} {need need' : ι → Exec ι (Tree ι)}
    {Joined : World ι → World ι → Prop}
    {r : Outcome ι (Answer ι) → Outcome ι (Answer ι) → Prop}
    (ht : ∀ (t : Turn ι) {u v : World ι}, Joined u v →
      r (t.execBy launch need u) (t.execBy launch' need' v) ∧
        Joined (t.execBy launch need u).world (t.execBy launch' need' v).world)
    (turns : List (Turn ι)) {u v : World ι} (hj : Joined u v) :
    List.Forall₂ r (sessionBy launch need turns u) (sessionBy launch' need' turns v) := by
  induction turns generalizing u v with
  | nil => exact .nil
  | cons t rest ih =>
    obtain ⟨hr,hw⟩ := ht t hj
    exact .cons hr (ih hw)

/-! ## Sessions that are alike -/

inductive Answer.Alike (like : Likeness ι) : Answer ι → Answer ι → Prop where
  | tree {q : ι} {t t' : Tree ι} (h : t.Alike like q t') : Alike like (.tree t) (.tree t')
  | value (v : Value) : Alike like (.value v) (.value v)

/-- Two turns end alike, compared with the worlds that they start from. -/
def Outcome.AlikeSince (like : Likeness ι) (out out' : Outcome ι (Answer ι)) : Prop :=
  ∃ u v, out.Alike like (Answer.Alike like) u v out'

/-- The worlds stay joined if both states are set to the same one. -/
def Likeness.Resumes (like : Likeness ι) : Prop :=
  ∀ {u v : World ι} (s : State), like.Joined u v →
    like.Joined { u with state := s } { v with state := s }

variable {like : Likeness ι} {launch launch' : Launch ι} {need need' : ι → Exec ι (Tree ι)}

theorem Turn.request_alike (hl : launch.Alike like launch') (hr : like.Resumes)
    (prepare : State → State) (r : Request ι) {ra : Answer ι → Answer ι → Prop}
    (hv : ∀ v, ra (.value v) (.value v)) {u v : World ι} (hj : like.Joined u v) :
    ((request prepare r).execBy launch need u).Alike like ra
      { u with state := r.start (prepare u.state) } { v with state := r.start (prepare v.state) }
      ((request prepare r).execBy launch' need' v) := by
  have hstart : like.Joined { u with state := r.start (prepare u.state) }
      { v with state := r.start (prepare v.state) } := by
    rw [like.state_eq hj]
    exact hr _ hj
  have hexec := r.execBy_alike hl (u := { u with state := prepare u.state })
    (v := { v with state := prepare v.state }) hstart
  simp only [Turn.execBy, Exec.map_apply]
  generalize r.execBy launch _ = out at hexec ⊢
  generalize r.execBy launch' _ = out' at hexec ⊢
  cases hexec with
  | ok h hh =>
    cases h
    exact .ok (hv _) hh
  | halted hh => exact .halted hh
  | first h => exact .first h
  | second h => exact .second h

theorem sessionBy_alike (hl : launch.Alike like launch') (hr : like.Resumes)
    (hn : ∀ q, Exec.Alike like (Tree.Alike like q) (need q) (need' q))
    (hf : ¬ like.firstTires) (hs : ¬ like.secondTires) (turns : List (Turn ι)) {u v : World ι}
    (hj : like.Joined u v) : List.Forall₂ (Outcome.AlikeSince like)
      (sessionBy launch need turns u) (sessionBy launch' need' turns v) := by
  refine sessionBy_rel (fun t u v hj => ?_) turns hj
  suffices h : (t.execBy launch need u).AlikeSince like (t.execBy launch' need' v) by
    obtain ⟨_,_,ha⟩ := id h
    exact ⟨h,ha.joined hf hs⟩
  cases t with
  | tree q => exact ⟨u,v,(hn q).bind (fun h => Exec.alike_pure (Answer.Alike.tree h)) hj⟩
  | request prepare r => exact ⟨_,_,Turn.request_alike hl hr prepare r .value hj⟩

/-- Two families that a likeness governs have alike sessions if their trees are alike. -/
theorem session_alike [DecidableEq ι] {family family' : Family ι}
    (hg : like.Governs family family') (hp : like.Lenient) (hr : like.Resumes)
    (hn : ∀ q, Exec.Alike like (Tree.Alike like q) (family.tree q) (family'.tree q))
    (hstarted : ∀ {u v}, like.Joined u v → ∀ q level,
      like.Holds u v [.started q level] [.started q level] u v)
    (hf : ¬ like.firstTires) (hs : ¬ like.secondTires) (depth : Nat) (turns : List (Turn ι))
    {u v : World ι} (hj : like.Joined u v) : List.Forall₂ (Outcome.AlikeSince like)
      (session family depth turns u) (session family' depth turns v) := by
  rw [session_eq, session_eq]
  have hl := hg.launchWith_alike hp (Likeness.starts_of_need hn hstarted) depth
  exact sessionBy_alike hl hr hn hf hs turns hj

end Cascade
