import Cascade.Proofs.Law.Parts
import Cascade.Proofs.Level.Dispatch

/-! # How a handler uses its continuation

Between two runs of its continuation a handler goes on by itself, whatever the continuation is. So
an execution of its body is what it does by itself, then a passage through the continuation from the
world that it has then, and so on, until it ends or is halted. A passage counts however it ends. If
it ends well, the handler learns whether the state is still successful; else it is halted with the
same fault in the same world, unless it looks at the fault itself.
-/
namespace Cascade

open Json (Value)

variable {ι α : Type}

/-! ## What a handler does by itself -/

/-- How a body goes on from where it runs its continuation: with its value only, or with a fault as
well. -/
inductive Use (ι : Type) where
  | passing (rest : Value → Program ι)
  | catching (rest : Except Fault Value → Program ι)

namespace Use

def goOn (value : Value) : Use ι → Program ι
  | passing rest => rest value
  | catching rest => rest (.ok value)

/-- The halt is not looked at. -/
def stopsAt (halt : Halt) : Use ι → Bool
  | passing _ => true
  | catching _ => match halt with
    | .fault _ => false
    | .tooDeep => true

end Use

/-- What a body comes to by itself. -/
inductive Pause (ι : Type) where
  | ended (value : Value)
  | reached (use : Use ι)

/-- What a body does until it ends or runs its continuation, which it has run `runs` times. -/
def Program.proceed (launch : Launch ι) (runs : Nat) : Program ι → Exec ι (Pause ι)
  | done v => pure (.ended v)
  | raise f => Exec.raise f
  | read rest => do
    (rest (← Exec.state)).proceed launch runs
  | change c rest => do
    Exec.change c
    rest.proceed launch runs
  | count rest => (rest runs).proceed launch runs
  | call c rest => match c.exec? launch none with
    | some x => do
      let v ← x
      (rest v).proceed launch runs
    | none => pure (.reached (.passing rest))
  | attempt c rest => match c.exec? launch none with
    | some x => do
      let r ← x.attempt
      (rest r).proceed launch runs
    | none => pure (.reached (.catching rest))

/-- One run of the continuation: the world that it starts in, and what it comes to. -/
structure Passage (ι : Type) where
  start : World ι
  outcome : Outcome ι Unit

/-- From the world `w` a body that has run its continuation `runs` times comes to an outcome, with
these passages. -/
inductive Program.Conduct (launch : Launch ι) (continuation : Exec ι Unit) :
    Nat → Program ι → World ι → Outcome ι Value → List (Passage ι) → Prop where
  | ended {runs : Nat} {p : Program ι} {w w' : World ι} {value : Value} {own : List (Event ι)}
    (h : p.proceed launch runs w = ⟨.ok (.ended value), w', own⟩) :
    Conduct launch continuation runs p w ⟨.ok value, w', own⟩ []
  | halted {runs : Nat} {p : Program ι} {w w' : World ι} {halt : Halt} {own : List (Event ι)}
    (h : p.proceed launch runs w = ⟨.error halt, w', own⟩) :
    Conduct launch continuation runs p w ⟨.error halt, w', own⟩ []
  /-- The passage ends well: the body learns whether the state is then successful. -/
  | ran {runs : Nat} {p : Program ι} {w u v : World ι} {use : Use ι} {own told : List (Event ι)}
    {out : Outcome ι Value} {passages : List (Passage ι)}
    (h : p.proceed launch runs w = ⟨.ok (.reached use), u, own⟩)
    (hc : continuation u = ⟨.ok (), v, told⟩)
    (hrest : Conduct launch continuation (runs + 1) (use.goOn (.bool v.state.successful)) v out
      passages) :
    Conduct launch continuation runs p w (out.prepend (own ++ told))
      (⟨u, ⟨.ok (), v, told⟩⟩ :: passages)
  /-- The passage is halted: so is the body, in the world that the children left. -/
  | stopped {runs : Nat} {p : Program ι} {w u v : World ι} {use : Use ι}
    {own told : List (Event ι)} {halt : Halt}
    (h : p.proceed launch runs w = ⟨.ok (.reached use), u, own⟩)
    (hc : continuation u = ⟨.error halt, v, told⟩) (hs : use.stopsAt halt = true) :
    Conduct launch continuation runs p w ⟨.error halt, v, own ++ told⟩
      [⟨u, ⟨.error halt, v, told⟩⟩]
  /-- The body looks at the fault, and goes on in the world that the children left. -/
  | caught {runs : Nat} {p : Program ι} {w u v : World ι} {f : Fault}
    {rest : Except Fault Value → Program ι} {own told : List (Event ι)} {out : Outcome ι Value}
    {passages : List (Passage ι)}
    (h : p.proceed launch runs w = ⟨.ok (.reached (.catching rest)), u, own⟩)
    (hc : continuation u = ⟨.error (.fault f), v, told⟩)
    (hrest : Conduct launch continuation (runs + 1) (rest (.error f)) v out passages) :
    Conduct launch continuation runs p w (out.prepend (own ++ told))
      (⟨u, ⟨.error (.fault f), v, told⟩⟩ :: passages)

/-- The same outcome, with a count beside its value. -/
def Outcome.counted (n : Nat) (out : Outcome ι α) : Outcome ι (α × Nat) :=
  { out with result := out.result.map fun a => (a, n) }

theorem Outcome.prepend_prepend (out : Outcome ι α) (d e : List (Event ι)) :
    (out.prepend e).prepend d = out.prepend (d ++ e) := by
  unfold prepend
  rw [List.append_assoc]

/-! ## Every execution is of this kind -/

section

variable {launch : Launch ι} {continuation : Exec ι Unit} {runs : Nat} {p : Program ι}
  {w : World ι} {out : Outcome ι Value} {passages : List (Passage ι)}

namespace Program.Conduct

/-- What comes before in proceeding comes before in the conduct. -/
theorem prepend {p' : Program ι} {w' : World ι} {own : List (Event ι)}
    (h : p.proceed launch runs w = (p'.proceed launch runs w').prepend own)
    (hc : p'.Conduct launch continuation runs w' out passages) :
    p.Conduct launch continuation runs w (out.prepend own) passages := by
  cases hc with
  | ended h' => exact .ended (by rw [h, h']; rfl)
  | halted h' => exact .halted (by rw [h, h']; rfl)
  | ran h' hcont hrest =>
    rw [Outcome.prepend_prepend, ← List.append_assoc]
    exact .ran (by rw [h, h']; rfl) hcont hrest
  | stopped h' hcont hs =>
    have hstopped := Conduct.stopped (h.trans (by rw [h']; rfl)) hcont hs
    rw [List.append_assoc] at hstopped
    exact hstopped
  | caught h' hcont hrest =>
    rw [Outcome.prepend_prepend, ← List.append_assoc]
    exact .caught (by rw [h, h']; rfl) hcont hrest

theorem unique {out' : Outcome ι Value} {passages' : List (Passage ι)}
    (h : p.Conduct launch continuation runs w out passages)
    (h' : p.Conduct launch continuation runs w out' passages') :
    out = out' ∧ passages = passages' := by
  induction h generalizing out' passages' with
  | ended h =>
    cases h' with
    | ended hp =>
      cases h.symm.trans hp
      exact ⟨rfl,rfl⟩
    | halted hp | ran hp _ _ | stopped hp _ _ | caught hp _ _ => cases h.symm.trans hp
  | halted h =>
    cases h' with
    | halted hp =>
      cases h.symm.trans hp
      exact ⟨rfl,rfl⟩
    | ended hp | ran hp _ _ | stopped hp _ _ | caught hp _ _ => cases h.symm.trans hp
  | ran h hc _ ih =>
    cases h' with
    | ended hp | halted hp => cases h.symm.trans hp
    | ran hp hc' hrest =>
      cases h.symm.trans hp
      cases hc.symm.trans hc'
      obtain ⟨rfl,rfl⟩ := ih hrest
      exact ⟨rfl,rfl⟩
    | stopped hp hc' _ | caught hp hc' _ =>
      cases h.symm.trans hp
      cases hc.symm.trans hc'
  | stopped h hc hs =>
    cases h' with
    | ended hp | halted hp => cases h.symm.trans hp
    | ran hp hc' _ =>
      cases h.symm.trans hp
      cases hc.symm.trans hc'
    | stopped hp hc' _ =>
      cases h.symm.trans hp
      cases hc.symm.trans hc'
      exact ⟨rfl,rfl⟩
    | caught hp hc' _ =>
      cases h.symm.trans hp
      cases hc.symm.trans hc'
      cases hs
  | caught h hc _ ih =>
    cases h' with
    | ended hp | halted hp => cases h.symm.trans hp
    | ran hp hc' _ =>
      cases h.symm.trans hp
      cases hc.symm.trans hc'
    | stopped hp hc' hs =>
      cases h.symm.trans hp
      cases hc.symm.trans hc'
      cases hs
    | caught hp hc' hrest =>
      cases h.symm.trans hp
      cases hc.symm.trans hc'
      obtain ⟨rfl,rfl⟩ := ih hrest
      exact ⟨rfl,rfl⟩

/-- Each passage is a run of the continuation from its start. -/
theorem outcome_eq (h : p.Conduct launch continuation runs w out passages) :
    ∀ passage ∈ passages, passage.outcome = continuation passage.start := by
  induction h with
  | ended _ | halted _ => simp
  | ran _ hc _ ih => exact List.forall_mem_cons.2 ⟨hc.symm,ih⟩
  | stopped _ hc _ => exact List.forall_mem_singleton.2 hc.symm
  | caught _ hc _ ih => exact List.forall_mem_cons.2 ⟨hc.symm,ih⟩

/-- Any other continuation may stand in for it, if it comes to the same in the passages. -/
theorem congr {other : Exec ι Unit} (h : p.Conduct launch continuation runs w out passages)
    (ho : ∀ passage ∈ passages, other passage.start = passage.outcome) :
    p.Conduct launch other runs w out passages := by
  induction h with
  | ended h => exact .ended h
  | halted h => exact .halted h
  | ran h _ _ ih =>
    obtain ⟨hone,hrest⟩ := List.forall_mem_cons.1 ho
    exact .ran h hone (ih hrest)
  | stopped h _ hs => exact .stopped h (ho _ List.mem_cons_self) hs
  | caught h _ _ ih =>
    obtain ⟨hone,hrest⟩ := List.forall_mem_cons.1 ho
    exact .caught h hone (ih hrest)

end Program.Conduct

end

/-- What is not a run of the continuation is the same with any continuation. -/
theorem Call.exec?_none (launch : Launch ι) (c : Call ι) (continuation : Exec ι Unit) :
    c = .next ∨ ∃ x, c.runs = 0 ∧ c.exec? launch none = some x ∧
      c.exec? launch (some continuation) = some x := by
  cases c with
  | next => exact Or.inl rfl
  | run _ _ | invoke _ _ _ => exact Or.inr ⟨_,rfl,rfl,rfl⟩

/-- The execution is a conduct, and its count is of the passages before and in it. -/
def Program.Conducted (launch : Launch ι) (continuation : Exec ι Unit) (runs : Nat) (p : Program ι)
    (w : World ι) : Prop :=
  ∃ out passages, p.Conduct launch continuation runs w out passages ∧
    p.exec launch (some continuation) runs w = out.counted (runs + passages.length)

section

variable {launch : Launch ι} {continuation : Exec ι Unit} {runs : Nat} {w : World ι}

theorem Program.Conducted.prepend {p p' : Program ι} {w' : World ι} {own : List (Event ι)}
    (h : p'.Conducted launch continuation runs w')
    (hp : p.proceed launch runs w = (p'.proceed launch runs w').prepend own)
    (he : p.exec launch (some continuation) runs w =
      (p'.exec launch (some continuation) runs w').prepend own) :
    p.Conducted launch continuation runs w := by
  obtain ⟨out,passages,hc,hout⟩ := h
  refine ⟨out.prepend own,passages,hc.prepend hp,?_⟩
  rw [he, hout]
  rfl

/-- A body that is halted by itself is halted whatever the continuation is. -/
theorem Program.conducted_of_halted {p : Program ι} {w' : World ι} {halt : Halt}
    {own : List (Event ι)} (hp : p.proceed launch runs w = ⟨.error halt, w', own⟩)
    (he : p.exec launch (some continuation) runs w = ⟨.error halt, w', own⟩) :
    p.Conducted launch continuation runs w := ⟨_,[],.halted hp,he⟩

/-- A passage is told before the rest, and counts. -/
theorem Program.exec_after {p p' : Program ι} {v : World ι} {told : List (Event ι)}
    {out : Outcome ι Value} {count : Nat}
    (hp : p.exec launch (some continuation) runs w =
      (p'.exec launch (some continuation) (runs + 1) v).prepend told)
    (he : p'.exec launch (some continuation) (runs + 1) v = out.counted (runs + 1 + count)) :
    p.exec launch (some continuation) runs w =
      (out.prepend told).counted (runs + (count + 1)) := by
  rw [hp, he, Nat.add_right_comm, Nat.add_assoc]
  rfl

/-- What is not the continuation comes first, and then the rest. -/
theorem Program.conducted_bind {p : Program ι} {x : Exec ι α} {rest : α → Program ι}
    (hp : p.proceed launch runs = x >>= fun a => (rest a).proceed launch runs)
    (he : p.exec launch (some continuation) runs =
      x >>= fun a => (rest a).exec launch (some continuation) runs)
    (ih : ∀ a v, (rest a).Conducted launch continuation runs v) :
    p.Conducted launch continuation runs w := by
  rcases hx : x w with ⟨halt | a,v,own⟩
  · exact conducted_of_halted (by rw [hp, Exec.bind_of_error hx])
      (by rw [he, Exec.bind_of_error hx])
  · exact (ih a v).prepend (by rw [hp, Exec.bind_of_ok hx]; rfl)
      (by rw [he, Exec.bind_of_ok hx]; rfl)

end

/-- Every execution is a conduct, and its count is of the passages, those that were halted as well.
By induction on the body: it goes on by itself up to a passage, and from there. -/
theorem Program.conducted (launch : Launch ι) (continuation : Exec ι Unit) (p : Program ι)
    (runs : Nat) (w : World ι) : p.Conducted launch continuation runs w := by
  induction p generalizing runs w with
  | done v => exact ⟨_,[],.ended rfl,rfl⟩
  | raise f => exact ⟨_,[],.halted rfl,rfl⟩
  | read rest ih => exact conducted_bind rfl rfl fun s v => ih s runs v
  | change c rest ih => exact conducted_bind rfl rfl fun _ v => ih runs v
  | count rest ih =>
    have hcount : ∀ k : Option (Exec ι Unit), (count rest).proceed launch runs w =
        ((rest runs).proceed launch runs w).prepend [] := fun _ => rfl
    exact (ih runs runs w).prepend (hcount none) rfl
  | call c rest ih =>
    rcases c.exec?_none launch continuation with rfl | ⟨x,hruns,hnone,hx⟩
    · have hreached : (call .next rest).proceed launch runs w =
          ⟨.ok (.reached (.passing rest)), w, []⟩ := rfl
      rcases hk : continuation w with ⟨halt | _,v,told⟩
      · exact ⟨_,_,.stopped hreached hk rfl,Exec.bind_of_error (Exec.bind_of_error hk)⟩
      · obtain ⟨out,passages,hc,he⟩ := ih (.bool v.state.successful) (runs + 1) v
        exact ⟨_,_,.ran hreached hk hc,exec_after (Exec.bind_of_ok (Exec.successful_of_ok hk)) he⟩
    · refine conducted_bind (x := x) ?_ ?_ fun v u => ih v runs u
      · rw [proceed, hnone]
      · rw [exec, hx, hruns]
        rfl
  | attempt c rest ih =>
    rcases c.exec?_none launch continuation with rfl | ⟨x,hruns,hnone,hx⟩
    · have hreached : (attempt .next rest).proceed launch runs w =
          ⟨.ok (.reached (.catching rest)), w, []⟩ := rfl
      rcases hk : continuation w with ⟨(f | _) | _,v,told⟩
      · obtain ⟨out,passages,hc,he⟩ := ih (.error f) (runs + 1) v
        refine ⟨_,_,.caught hreached hk hc,exec_after ?_ he⟩
        exact Exec.bind_of_ok (Exec.attempt_of_fault (Exec.bind_of_error hk))
      · refine ⟨_,_,.stopped hreached hk rfl,?_⟩
        exact Exec.bind_of_error (Exec.attempt_of_tooDeep (Exec.bind_of_error hk))
      · obtain ⟨out,passages,hc,he⟩ := ih (.ok (.bool v.state.successful)) (runs + 1) v
        have hran := Exec.attempt_of_ok (Exec.successful_of_ok hk)
        exact ⟨_,_,.ran hreached hk hc,exec_after (Exec.bind_of_ok hran) he⟩
    · refine conducted_bind (x := x.attempt) ?_ ?_ fun v u => ih v runs u
      · rw [proceed, hnone]
      · rw [exec, hx, hruns]
        rfl

/-! ## What is told in a conduct -/

section

variable {law : Law ι} {launch : Launch ι} (ht : law.Tolerant) (hl : launch.Obeys law)
include ht hl

theorem Program.obeys_proceed (p : Program ι) (runs : Nat) :
    (p.proceed launch runs).Obeys law := by
  induction p with
  | done v => exact Exec.obeys_pure _
  | raise f => exact ht.allows.obeys_raise f
  | read _ ih => exact Exec.obeys_state.bind ih
  | change c _ ih => exact (ht.allows.obeys_change trivial).bind fun _ => ih
  | count _ ih => exact ih runs
  | call c _ ih =>
    unfold proceed
    cases hx : c.exec? launch none with
    | none => exact Exec.obeys_pure _
    | some x => exact (c.obeys_of_exec? hl (fun _ hk => by cases hk) hx).bind ih
  | attempt c _ ih =>
    unfold proceed
    cases hx : c.exec? launch none with
    | none => exact Exec.obeys_pure _
    | some x => exact (c.obeys_of_exec? hl (fun _ hk => by cases hk) hx).attempt.bind ih

/-- All that a passage tells is told in one piece, and what is told before leads to its start. -/
theorem Program.Conduct.passage_told {continuation : Exec ι Unit} (hk : continuation.Obeys law)
    {runs : Nat} {p : Program ι} {w : World ι} {out : Outcome ι Value}
    {passages before after : List (Passage ι)} {passage : Passage ι}
    (h : p.Conduct launch continuation runs w out passages)
    (hp : passages = before ++ passage :: after) :
    ∃ told rest, out.events = told ++ (passage.outcome.events ++ rest) ∧
      law.Holds w told passage.start := by
  -- What the body does by itself, and a passage, up to the passages that are left.
  have hown : ∀ {runs : Nat} {p : Program ι} {w u : World ι} {pause : Pause ι}
      {own : List (Event ι)}, p.proceed launch runs w = ⟨.ok pause, u, own⟩ →
      law.Holds w own u := by
    intro runs p w u pause own h
    have hobeys := p.obeys_proceed ht hl runs w
    unfold Exec.ObeysAt at hobeys
    rw [h] at hobeys
    exact hobeys
  have hpassed : ∀ {u v : World ι} {result : Except Halt Unit} {told : List (Event ι)},
      continuation u = ⟨result, v, told⟩ → law.Holds u told v := by
    intro u v result told h
    have hobeys := hk u
    unfold Exec.ObeysAt at hobeys
    rw [h] at hobeys
    exact hobeys
  have hmore : ∀ {w u v : World ι} {own told : List (Event ι)} {out : Outcome ι Value},
      law.Holds w own u → law.Holds u told v →
      (∃ earlier rest, out.events = earlier ++ (passage.outcome.events ++ rest) ∧
        law.Holds v earlier passage.start) →
      ∃ earlier rest, (out.prepend (own ++ told)).events =
        earlier ++ (passage.outcome.events ++ rest) ∧ law.Holds w earlier passage.start := by
    rintro w u v own told out hu hv ⟨earlier,rest,he,hholds⟩
    refine ⟨own ++ told ++ earlier,rest,?_,law.trans (law.trans hu hv) hholds⟩
    rw [List.append_assoc (own ++ told), ← he]
    rfl
  induction h generalizing before with
  | ended _ | halted _ => simp at hp
  | @ran runs p w u v use own told out passages h hc _ ih =>
    cases before with
    | nil =>
      cases hp
      exact ⟨own,out.events,List.append_assoc _ _ _,hown h⟩
    | cons _ before =>
      cases hp
      exact hmore (hown h) (hpassed hc) (ih rfl)
  | @stopped runs p w u v use own told halt h hc _ =>
    obtain ⟨rfl,hone⟩ : before = [] ∧ passage = ⟨u, ⟨.error halt, v, told⟩⟩ := by
      cases before with
      | nil => exact ⟨rfl,(List.cons.inj hp).1.symm⟩
      | cons _ before => simp at hp
    rw [hone]
    exact ⟨own,[],by rw [List.append_nil],hown h⟩
  | @caught runs p w u v f rest own told out passages h hc _ ih =>
    cases before with
    | nil =>
      cases hp
      exact ⟨own,out.events,List.append_assoc _ _ _,hown h⟩
    | cons _ before =>
      cases hp
      exact hmore (hown h) (hpassed hc) (ih rfl)

end

end Cascade
