import Cascade.Proofs.Declared.Need

/-! # Logs with kept trees

Whenever a tree is needed it may be built afresh, or kept from the first need on. Two logs of the
same run, one of each sort, differ in what is told of declaring and compiling at most: it is left
out where a tree has been built before. A need is followed by the start of a run, unless the tree
was asked for, and what a declaration with a flaw is told to raise is never left out.
-/
namespace Cascade

variable {ι : Type}

namespace Event

def isBuilding : Event ι → Bool
  | declaring _ | probed _ | compiled _ => true
  | _ => false

/-- Events that a need of a tree accounts for. -/
def isNeeding : Event ι → Bool
  | declaring _ | probed _ | compiled _ | started .. => true
  | _ => false

variable [DecidableEq ι]

def declares (q : ι) : Event ι → Bool
  | declaring p => p = q
  | _ => false

def starts (q : ι) : Event ι → Bool
  | started p _ => p = q
  | _ => false

def builds (q : ι) : Event ι → Bool
  | declaring p | compiled p => p = q
  | _ => false

/-- The event tells that the tree of `q` is built, or run. -/
def concerns (q : ι) (e : Event ι) : Bool := e.builds q || e.starts q

end Event

/-- The events of a log but those of declaring and compiling. -/
def unbuilding (events : List (Event ι)) : List (Event ι) := events.filter fun e => !e.isBuilding

/-- What follows once the tree of `q` is there. -/
inductive Served (asks : ι → Prop) (q : ι) : List (Event ι) → Prop where
  | asked (h : asks q) : Served asks q []
  | run (level : Level) : Served asks q [.started q level]

/-- The trees of `built` are kept in the first log and built again in the second one; after both
logs the trees of the last list are kept. -/
inductive Kept (family : Family ι) (asks : ι → Prop) :
    List ι → List (Event ι) → List (Event ι) → List ι → Prop where
  | nil (built : List ι) : Kept family asks built [] [] built
  | other {built built' : List ι} {d d' : List (Event ι)} {e : Event ι} (he : e.isNeeding = false)
    (h : Kept family asks built d d' built') : Kept family asks built (e :: d) (e :: d') built'
  | first {built built' : List ι} {d d' served : List (Event ι)} {q : ι} {tree : Tree ι}
    (hq : q ∉ built) (hc : family.compile q = .ok tree) (hs : Served asks q served)
    (h : Kept family asks (q :: built) d d' built') : Kept family asks built
      (family.declaring q ++ .compiled q :: (served ++ d))
      (family.declaring q ++ .compiled q :: (served ++ d')) built'
  | again {built built' : List ι} {d d' served : List (Event ι)} {q : ι} {tree : Tree ι}
    (hq : q ∈ built) (hc : family.compile q = .ok tree) (hs : Served asks q served)
    (h : Kept family asks built d d' built') : Kept family asks built (served ++ d)
      (family.declaring q ++ .compiled q :: (served ++ d')) built'
  | flawed {built built' : List ι} {d d' : List (Event ι)} {q : ι} {f : Fault} {s : State}
    (hc : family.compile q = .error f) (h : Kept family asks built d d' built') :
    Kept family asks built (family.declaring q ++ .raised f s :: d)
      (family.declaring q ++ .raised f s :: d') built'

variable {family : Family ι} {asks asks' : ι → Prop} {built built' built'' : List ι}
  {d d' e e' : List (Event ι)}

@[simp] theorem unbuilding_append (d e : List (Event ι)) :
    unbuilding (d ++ e) = unbuilding d ++ unbuilding e := List.filter_append d e

@[simp] theorem unbuilding_declaring (q : ι) : unbuilding (family.declaring q) = [] := by
  rw [unbuilding, List.filter_eq_nil_iff]
  exact Family.forall_declaring (by simp [Event.isBuilding]) (by simp [Event.isBuilding])

/-- If a tree is given, at most that it is built is told. -/
theorem Family.unbuilding_of_tree [DecidableEq ι] {q : ι} {w v : World ι} {tree : Tree ι}
    {events : List (Event ι)} (h : family.tree q w = ⟨.ok tree, v, events⟩) :
    unbuilding events = [] := by
  cases hw : w.forest.find? q with
  | some kept =>
    rw [family.tree_of_find? hw] at h
    cases h
    rfl
  | none =>
    cases hc : family.compile q with
    | ok compiled =>
      rw [family.tree_of_ok hw hc] at h
      cases h
      rw [unbuilding_append, unbuilding_declaring]
      rfl
    | error f =>
      rw [family.tree_of_error hw hc] at h
      cases h

namespace Kept

theorem append (h : Kept family asks built d d' built')
    (h' : Kept family asks built' e e' built'') :
    Kept family asks built (d ++ e) (d' ++ e') built'' := by
  induction h with
  | nil _ => exact h'
  | other he _ ih => exact .other he (ih h')
  | first hq hc hs _ ih =>
    simp only [List.append_assoc, List.cons_append]
    exact .first hq hc hs (ih h')
  | again hq hc hs _ ih =>
    simp only [List.append_assoc, List.cons_append]
    exact .again hq hc hs (ih h')
  | flawed hc _ ih =>
    simp only [List.append_assoc, List.cons_append]
    exact .flawed hc (ih h')

theorem mono (ha : ∀ q, asks q → asks' q) (h : Kept family asks built d d' built') :
    Kept family asks' built d d' built' := by
  have hserved : ∀ {q : ι} {served : List (Event ι)}, Served asks q served →
      Served asks' q served := by
    rintro q served (hq | level)
    · exact .asked (ha q hq)
    · exact .run level
  induction h with
  | nil built => exact .nil built
  | other he _ ih => exact .other he ih
  | first hq hc hs _ ih => exact .first hq hc (hserved hs) ih
  | again hq hc hs _ ih => exact .again hq hc (hserved hs) ih
  | flawed hc _ ih => exact .flawed hc ih

/-- What is left out tells of declaring and compiling only. -/
theorem unbuilding_eq (h : Kept family asks built d d' built') : unbuilding d = unbuilding d' := by
  have hcompiled : ∀ (q : ι) (rest : List (Event ι)),
      unbuilding (.compiled q :: rest) = unbuilding rest := fun _ _ => rfl
  induction h with
  | nil _ => rfl
  | @other _ _ d d' e _ _ ih =>
    rw [← List.singleton_append, ← List.singleton_append (l := d'), unbuilding_append,
      unbuilding_append, ih]
  | first _ _ _ _ ih =>
    rw [unbuilding_append, unbuilding_append, hcompiled, hcompiled, unbuilding_append,
      unbuilding_append, ih]
  | again _ _ _ _ ih =>
    rw [unbuilding_append, unbuilding_append, hcompiled, unbuilding_append, ih,
      unbuilding_declaring, List.nil_append]
  | @flawed _ _ d d' q f s _ _ ih =>
    rw [← List.singleton_append, ← List.singleton_append (l := d')]
    simp only [unbuilding_append, ih]

end Kept

/-! ## Single types -/

section

variable [DecidableEq ι] {p q : ι}

theorem Family.starts_declaring : ∀ e ∈ family.declaring p, e.starts q = false :=
  Family.forall_declaring rfl fun _ => rfl

theorem Family.concerns_declaring (hpq : p ≠ q) :
    ∀ e ∈ family.declaring p, e.concerns q = false :=
  Family.forall_declaring (by simp [Event.concerns, Event.builds, Event.starts, hpq])
    (by simp [Event.concerns, Event.builds, Event.starts])

theorem Family.countP_declares_declaring (p q : ι) :
    (family.declaring p).countP (Event.declares q) = if p = q then 1 else 0 := by
  have hprobes : ∀ ps : List Probe,
      (ps.map (Event.probed (ι := ι))).countP (Event.declares q) = 0 := by
    intro ps
    rw [List.countP_eq_zero]
    intro e he
    obtain ⟨probe,_,rfl⟩ := List.mem_map.1 he
    simp [Event.declares]
  rw [declaring, List.countP_cons, hprobes]
  simp [Event.declares]

theorem Family.countP_starts_declaring (p q : ι) :
    (family.declaring p).countP (Event.starts q) = 0 := by
  rw [List.countP_eq_zero]
  intro e he
  rw [Family.starts_declaring e he]
  decide

theorem Served.builds {served : List (Event ι)} (hs : Served asks p served) {e : Event ι}
    (h : e ∈ served) : e.builds q = false := by
  cases hs with
  | asked _ => cases h
  | run level =>
    cases List.mem_singleton.1 h
    rfl

theorem Served.concerns {served : List (Event ι)} (hs : Served asks p served) (hpq : p ≠ q) :
    ∀ e ∈ served, e.concerns q = false := by
  cases hs with
  | asked _ => simp
  | run level => simp [Event.concerns, Event.builds, Event.starts, hpq]

/-- The events of a need of another type do not concern this one. -/
theorem concerns_of_ne (family : Family ι) {served : List (Event ι)} (hs : Served asks p served)
    (hpq : p ≠ q) :
    ∀ e ∈ family.declaring p ++ .compiled p :: served, e.concerns q = false := by
  have hcompiled : (Event.compiled p).concerns q = false := by
    simp [Event.concerns, Event.builds, Event.starts, hpq]
  exact List.forall_mem_append.2
    ⟨Family.concerns_declaring hpq,List.forall_mem_cons.2 ⟨hcompiled,hs.concerns hpq⟩⟩

/-- Nor do those of a need that fails. -/
theorem concerns_of_flawed (family : Family ι) (hpq : p ≠ q) (f : Fault) (s : State) :
    ∀ e ∈ family.declaring p ++ [.raised f s], e.concerns q = false :=
  List.forall_mem_append.2 ⟨Family.concerns_declaring hpq,List.forall_mem_singleton.2 rfl⟩

theorem concerns_of_isNeeding {e : Event ι} (h : e.isNeeding = false) : e.concerns q = false := by
  cases e with
  | declaring _ | probed _ | compiled _ | started _ _ => cases h
  | _ => rfl

theorem builds_of_concerns {e : Event ι} (h : e.concerns q = false) : e.builds q = false := by
  rw [Event.concerns, Bool.or_eq_false_iff] at h
  exact h.1

/-- Both logs reach a first need of `q` at the same point; in the first log nothing is built for `q`
after it. -/
def FirstNeed (family : Family ι) (q : ι) (d d' : List (Event ι)) : Prop :=
  ∃ before before' after after', d = before ++ (family.declaring q ++ .compiled q :: after) ∧
    d' = before' ++ (family.declaring q ++ .compiled q :: after') ∧
    unbuilding before = unbuilding before' ∧ (∀ e ∈ before, e.concerns q = false) ∧
    (∀ e ∈ before', e.concerns q = false) ∧ ∀ e ∈ after, e.builds q = false

def Unneeded (q : ι) (d d' : List (Event ι)) : Prop :=
  (∀ e ∈ d, e.concerns q = false) ∧ ∀ e ∈ d', e.concerns q = false

theorem needed_append {x x' : List (Event ι)} (hx : unbuilding x = unbuilding x')
    (hu : Unneeded q x x') (h : FirstNeed family q d d' ∨ Unneeded q d d') :
    FirstNeed family q (x ++ d) (x' ++ d') ∨ Unneeded q (x ++ d) (x' ++ d') := by
  rcases h with ⟨b,b',a,a',rfl,rfl,hb,hbq,hbq',ha⟩ | ⟨hd,hd'⟩
  · refine Or.inl ⟨x ++ b,x' ++ b',a,a',?_,?_,?_,List.forall_mem_append.2 ⟨hu.1,hbq⟩,
      List.forall_mem_append.2 ⟨hu.2,hbq'⟩,ha⟩
    · rw [List.append_assoc]
    · rw [List.append_assoc]
    · rw [unbuilding_append, unbuilding_append, hx, hb]
  · exact Or.inr ⟨List.forall_mem_append.2 ⟨hu.1,hd⟩,List.forall_mem_append.2 ⟨hu.2,hd'⟩⟩

namespace Kept

/-- What has been built is not built again. -/
theorem builds_of_mem (h : Kept family asks built d d' built') {tree : Tree ι}
    (hc : family.compile q = .ok tree) (hq : q ∈ built) : ∀ e ∈ d, e.builds q = false := by
  induction h with
  | nil _ => simp
  | other he _ ih =>
    exact List.forall_mem_cons.2 ⟨builds_of_concerns (concerns_of_isNeeding he),ih hq⟩
  | @first _ _ _ _ served p _ hp _ hs _ ih =>
    have hpq : p ≠ q := fun h => hp (h ▸ hq)
    rw [← List.cons_append, ← List.append_assoc]
    refine List.forall_mem_append.2 ⟨fun e he => ?_,ih (List.mem_cons_of_mem p hq)⟩
    exact builds_of_concerns (concerns_of_ne family hs hpq e he)
  | again _ _ hs _ ih => exact List.forall_mem_append.2 ⟨fun _ => hs.builds,ih hq⟩
  | @flawed _ _ _ _ p f s hp _ ih =>
    have hpq : p ≠ q := by
      rintro rfl
      rw [hp] at hc
      cases hc
    rw [List.append_cons]
    refine List.forall_mem_append.2 ⟨fun e he => ?_,ih hq⟩
    exact builds_of_concerns (concerns_of_flawed family hpq f s e he)

theorem first_need (h : Kept family asks built d d' built') {tree : Tree ι}
    (hc : family.compile q = .ok tree) (hq : q ∉ built) :
    FirstNeed family q d d' ∨ Unneeded q d d' := by
  induction h with
  | nil _ => exact Or.inr ⟨by simp,by simp⟩
  | @other _ _ d d' e he _ ih =>
    have hone : ∀ x ∈ [e], x.concerns q = false :=
      List.forall_mem_singleton.2 (concerns_of_isNeeding he)
    have happend := needed_append rfl ⟨hone,hone⟩ (ih hq)
    exact happend
  | @first built _ d d' served p _ hp _ hs h ih =>
    by_cases hpq : p = q
    · subst hpq
      have hafter : ∀ e ∈ served ++ d, e.builds p = false :=
        List.forall_mem_append.2 ⟨fun _ => hs.builds,h.builds_of_mem hc List.mem_cons_self⟩
      exact Or.inl ⟨[],[],_,_,rfl,rfl,rfl,by simp,by simp,hafter⟩
    · have hapart := concerns_of_ne family hs hpq
      have hrest := ih (by simp [hq, Ne.symm hpq])
      rw [← List.cons_append, ← List.cons_append, ← List.append_assoc, ← List.append_assoc]
      exact needed_append rfl ⟨hapart,hapart⟩ hrest
  | @again built _ d d' served p _ hp _ hs _ ih =>
    have hpq : p ≠ q := fun h => hq (h ▸ hp)
    have hapart := concerns_of_ne family hs hpq
    rw [← List.cons_append, ← List.append_assoc]
    refine needed_append ?_ ⟨fun e he => ?_,hapart⟩ (ih hq)
    · rw [unbuilding_append, unbuilding_declaring]
      rfl
    · exact hapart e (by simp [he])
  | @flawed _ _ d d' p f s hp _ ih =>
    have hpq : p ≠ q := by
      rintro rfl
      rw [hp] at hc
      cases hc
    have hapart := concerns_of_flawed family hpq f s
    rw [List.append_cons, List.append_cons (family.declaring p) _ d']
    exact needed_append rfl ⟨hapart,hapart⟩ (ih hq)

end Kept

/-! ## Types that do not compile -/

omit [DecidableEq ι] in
theorem suffix_of_not_mem {a : Event ι} {x rest : List (Event ι)} (hx : ∀ e ∈ x, e ≠ a)
    (h : (a :: rest) <:+ x ++ d) : (a :: rest) <:+ d := by
  induction x with
  | nil => exact h
  | cons e x ih =>
    rcases List.suffix_cons_iff.1 h with h | h
    · cases h
      exact absurd rfl (hx _ List.mem_cons_self)
    · exact ih (fun e he => hx e (List.mem_cons_of_mem _ he)) h

/-- Two logs that agree on what is told of `q`, which is one failed need after the other. -/
inductive Refused (family : Family ι) (q : ι) (f : Fault) :
    List (Event ι) → List (Event ι) → Prop where
  | nil : Refused family q f [] []
  | apart {x x' d d' : List (Event ι)} (hx : Unneeded q x x') (h : Refused family q f d d') :
    Refused family q f (x ++ d) (x' ++ d')
  | need {s : State} {d d' : List (Event ι)} (h : Refused family q f d d') : Refused family q f
    (family.declaring q ++ .raised f s :: d) (family.declaring q ++ .raised f s :: d')

theorem Kept.refused (h : Kept family asks built d d' built') {f : Fault}
    (hc : family.compile q = .error f) : Refused family q f d d' := by
  have hvalid : ∀ {p : ι} {tree : Tree ι}, family.compile p = .ok tree → p ≠ q := by
    rintro p tree hp rfl
    rw [hp] at hc
    cases hc
  induction h with
  | nil _ => exact .nil
  | @other _ _ d d' e he _ ih =>
    have hone : ∀ x ∈ [e], x.concerns q = false :=
      List.forall_mem_singleton.2 (concerns_of_isNeeding he)
    have happend := Refused.apart ⟨hone,hone⟩ ih
    exact happend
  | @first _ _ d d' served p _ _ hp hs _ ih =>
    have hapart := concerns_of_ne family hs (hvalid hp)
    rw [← List.cons_append, ← List.cons_append, ← List.append_assoc, ← List.append_assoc]
    exact .apart ⟨hapart,hapart⟩ ih
  | @again _ _ d d' served p _ _ hp hs _ ih =>
    have hapart := concerns_of_ne family hs (hvalid hp)
    rw [← List.cons_append, ← List.append_assoc]
    exact .apart ⟨fun e he => hapart e (by simp [he]),hapart⟩ ih
  | @flawed _ _ d d' p g s hp _ ih =>
    by_cases hpq : p = q
    · subst hpq
      rw [hp] at hc
      cases hc
      exact .need ih
    · have hapart := concerns_of_flawed family hpq g s
      rw [List.append_cons, List.append_cons (family.declaring p) _ d']
      exact .apart ⟨hapart,hapart⟩ ih

namespace Refused

variable {f : Fault}

theorem declares_of_concerns {x : List (Event ι)} (hx : ∀ e ∈ x, e.concerns q = false) :
    ∀ e ∈ x, e ≠ .declaring q := by
  rintro e he rfl
  have h := hx _ he
  simp [Event.concerns, Event.builds] at h

theorem countP_declares_eq (h : Refused family q f d d') :
    d.countP (Event.declares q) = d'.countP (Event.declares q) := by
  have hnone : ∀ {x : List (Event ι)}, (∀ e ∈ x, e.concerns q = false) →
      x.countP (Event.declares q) = 0 := by
    intro x hx
    rw [List.countP_eq_zero]
    intro e he hq
    cases e with
    | declaring p =>
      cases of_decide_eq_true hq
      exact declares_of_concerns hx _ he rfl
    | _ => cases hq
  induction h with
  | nil => rfl
  | apart hx _ ih => rw [List.countP_append, List.countP_append, hnone hx.1, hnone hx.2, ih]
  | need _ ih =>
    rw [List.countP_append, List.countP_append, List.countP_cons, List.countP_cons, ih]

/-- It is told to be declared, but never to be compiled or to run. -/
theorem eq_declaring (h : Refused family q f d d') :
    ∀ e ∈ d, e.concerns q = true → e = .declaring q := by
  induction h with
  | nil => simp
  | apart hx _ ih =>
    intro e he hq
    rcases List.mem_append.1 he with he | he
    · rw [hx.1 e he] at hq
      cases hq
    · exact ih e he hq
  | need _ ih =>
    intro e he hq
    rw [Family.declaring, List.cons_append, List.mem_cons, List.mem_append, List.mem_cons] at he
    rcases he with rfl | he | rfl | he
    · rfl
    · obtain ⟨probe,_,rfl⟩ := List.mem_map.1 he
      cases hq
    · cases hq
    · exact ih e he hq

/-- Every need raises the fault, once it is declared. -/
theorem raised (h : Refused family q f d d') {rest : List (Event ι)}
    (hd : (.declaring q :: rest) <:+ d) : ∃ s after,
      rest = (family.declared q).probes.map .probed ++ .raised f s :: after := by
  induction h with
  | nil => cases List.suffix_nil.1 hd
  | apart hx _ ih => exact ih (suffix_of_not_mem (declares_of_concerns hx.1) hd)
  | @need s d _ _ ih =>
    rw [Family.declaring, List.cons_append] at hd
    rcases List.suffix_cons_iff.1 hd with hd | hd
    · cases hd
      exact ⟨s,d,rfl⟩
    · refine ih ?_
      rw [List.append_cons] at hd
      refine suffix_of_not_mem ?_ hd
      intro e he
      rcases List.mem_append.1 he with he | he
      · obtain ⟨probe,_,rfl⟩ := List.mem_map.1 he
        simp
      · cases List.mem_singleton.1 he
        simp

end Refused

/-! ## Needs -/

/-- If trees are not asked for, what compiles is declared once for every run of it that starts. -/
theorem Kept.countP_starts_eq (h : Kept family asks built d d' built') {tree : Tree ι}
    (hc : family.compile q = .ok tree) (ha : ¬ asks q) :
    d'.countP (Event.declares q) = d'.countP (Event.starts q) := by
  have hserved : ∀ {p : ι} {served : List (Event ι)}, Served asks p served →
      served.countP (Event.declares q) = 0 ∧
        served.countP (Event.starts q) = if p = q then 1 else 0 := by
    rintro p served (hp | level)
    · have hpq : p ≠ q := fun h => ha (h ▸ hp)
      simp [hpq]
    · simp [Event.declares, Event.starts]
  have hblock : ∀ {p : ι} {served d' : List (Event ι)}, Served asks p served →
      d'.countP (Event.declares q) = d'.countP (Event.starts q) →
      (family.declaring p ++ .compiled p :: (served ++ d')).countP (Event.declares q) =
        (family.declaring p ++ .compiled p :: (served ++ d')).countP (Event.starts q) := by
    intro p served d' hs ih
    obtain ⟨hd,hst⟩ := hserved hs
    rw [List.countP_append, List.countP_append, List.countP_cons, List.countP_cons,
      List.countP_append, List.countP_append, Family.countP_declares_declaring,
      Family.countP_starts_declaring, hd, hst, ih]
    simp [Event.declares, Event.starts]
  induction h with
  | nil _ => rfl
  | other he _ ih =>
    rw [List.countP_cons, List.countP_cons, ih]
    rename_i e _
    cases e with
    | declaring _ | probed _ | compiled _ | started _ _ => cases he
    | _ => rfl
  | first _ _ hs _ ih => exact hblock hs ih
  | again _ _ hs _ ih => exact hblock hs ih
  | @flawed _ _ _ _ p _ _ hp _ ih =>
    have hpq : p ≠ q := by
      rintro rfl
      rw [hp] at hc
      cases hc
    rw [List.countP_append, List.countP_append, List.countP_cons, List.countP_cons, ih,
      Family.countP_starts_declaring, Family.countP_declares_declaring, if_neg hpq]
    rfl

end

end Cascade
