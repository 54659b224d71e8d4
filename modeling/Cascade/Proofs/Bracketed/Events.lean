import Cascade.Proofs.Raised.Stopping

/-! # Starts and ends of runs

What a family tells is bracketed if it tells of whole runs only, each from its start to its end,
with others between. Up to a fault, some runs are in progress, one within the other: they are
started and not finished. Either way the starts that are not matched can be told from the events
alone.
-/
namespace Cascade

variable {ι : Type}

/-- Run by the family on that level, from that world, the pipeline comes to this outcome. -/
def Family.RunsTo [DecidableEq ι] (family : Family ι) (q : ι) (level : Level) (w : World ι)
    (out : Outcome ι Unit) : Prop :=
  ∃ tree depth, family.compile q = .ok tree ∧
    tree.run family (family.launchWith family.tree depth) q level w = out

section

variable [DecidableEq ι]

/-- Single acts, and whole runs that are finished. -/
inductive Whole (family : Family ι) : List (Event ι) → Prop where
  | nil : Whole family []
  | act {e : Event ι} {rest : List (Event ι)} (he : e.isPlain = true) (h : Whole family rest) :
    Whole family (e :: rest)
  | run {q : ι} {level : Level} {w w' : World ι} {inner rest : List (Event ι)}
    (hr : family.RunsTo q level w ⟨.ok (), w',
      .started q level :: (inner ++ [.finished q level w'.state.successful])⟩)
    (hi : Whole family inner) (h : Whole family rest) :
    Whole family (.started q level :: (inner ++ .finished q level w'.state.successful :: rest))

/-- Up to a fault that is raised in the state `s`, and then passed on: these runs are in progress,
the outermost first, and each of them comes to no more than the fault. -/
inductive Broken (family : Family ι) (f : Fault) (s : State) :
    List (ι × Level) → List (Event ι) → Prop where
  | raised {before : List (Event ι)} (h : Whole family before) (n : Nat) :
    Broken family f s [] (before ++ List.replicate (n + 1) (.raised f s))
  | run {before inner : List (Event ι)} {q : ι} {level : Level} {w w' : World ι}
    {progress : List (ι × Level)} (h : Whole family before)
    (hr : family.RunsTo q level w ⟨.error (.fault f), w', .started q level :: inner⟩)
    (hi : Broken family f s progress inner) (n : Nat) :
    Broken family f s ((q, level) :: progress)
      (before ++ .started q level :: (inner ++ List.replicate n (.raised f s)))

/-- The runs that are started and not finished, the innermost first. A run is finished while it is
the innermost one, or else nothing matches. -/
def Event.match? (progress : List (ι × Level)) : Event ι → Option (List (ι × Level))
  | started q level => some ((q, level) :: progress)
  | finished q level _ => match progress with
    | [] => none
    | run :: outer => if run = (q, level) then some outer else none
  | _ => some progress

/-- The starts that nothing matches, the outermost first, if all ends match a start. -/
def unmatched (events : List (Event ι)) : Option (List (ι × Level)) :=
  (events.foldlM Event.match? []).map List.reverse

end

variable [DecidableEq ι] {family : Family ι} {f : Fault} {s : State} {progress : List (ι × Level)}
  {d e : List (Event ι)}

theorem Event.match?_of_isPlain {e : Event ι} (h : e.isPlain = true) (progress : List (ι × Level)) :
    e.match? progress = some progress := by
  cases e with
  | started q level | finished q level success => cases h
  | _ => rfl

theorem foldlM_match?_append {a b : List (ι × Level)} (h : d.foldlM Event.match? a = some b)
    (e : List (Event ι)) : (d ++ e).foldlM Event.match? a = e.foldlM Event.match? b := by
  rw [List.foldlM_append, h]
  rfl

theorem foldlM_match?_cons {a b : List (ι × Level)} {x : Event ι} (h : x.match? a = some b)
    (e : List (Event ι)) : (x :: e).foldlM Event.match? a = e.foldlM Event.match? b := by
  rw [List.foldlM_cons, h]
  rfl

theorem foldlM_match?_raised (n : Nat) (progress : List (ι × Level)) :
    (List.replicate n (Event.raised f s)).foldlM Event.match? progress = some progress := by
  induction n with
  | zero => rfl
  | succ n ih => exact ih

namespace Whole

theorem append (hd : Whole family d) (he : Whole family e) : Whole family (d ++ e) := by
  induction hd with
  | nil => exact he
  | act ha _ ih => exact .act ha ih
  | run hr hi _ _ ih =>
    rw [List.cons_append, List.append_assoc, List.cons_append]
    exact .run hr hi ih

theorem isRaised (h : Whole family e) : ∀ a ∈ e, a.isRaised = false := by
  induction h with
  | nil => simp
  | @act a rest ha _ ih =>
    refine List.forall_mem_cons.2 ⟨?_,ih⟩
    cases a with
    | raised f s => cases ha
    | _ => rfl
  | run _ _ _ ihi ih =>
    refine List.forall_mem_cons.2 ⟨rfl,List.forall_mem_append.2 ⟨ihi,?_⟩⟩
    exact List.forall_mem_cons.2 ⟨rfl,ih⟩

/-- Whole runs leave those in progress as they are. -/
theorem foldlM_eq (h : Whole family e) (progress : List (ι × Level)) :
    e.foldlM Event.match? progress = some progress := by
  induction h generalizing progress with
  | nil => rfl
  | act ha _ ih => exact (foldlM_match?_cons (Event.match?_of_isPlain ha progress) _).trans (ih _)
  | @run q level _ w' inner rest _ _ _ ihi ih =>
    have hstart : (Event.started q level).match? progress = some ((q, level) :: progress) := rfl
    have hend : (Event.finished q level w'.state.successful).match? ((q, level) :: progress) =
        some progress := if_pos rfl
    calc (Event.started q level :: (inner ++ _ :: rest)).foldlM Event.match? progress
        = (inner ++ _ :: rest).foldlM Event.match? ((q, level) :: progress) :=
          foldlM_match?_cons hstart _
      _ = (_ :: rest).foldlM Event.match? ((q, level) :: progress) :=
          foldlM_match?_append (ihi _) _
      _ = rest.foldlM Event.match? progress := foldlM_match?_cons hend _
      _ = some progress := ih progress

end Whole

namespace Broken

theorem prepend (hd : Whole family d) (h : Broken family f s progress e) :
    Broken family f s progress (d ++ e) := by
  cases h with
  | raised h n =>
    rw [← List.append_assoc]
    exact .raised (hd.append h) n
  | run h hr hi n =>
    rw [← List.append_assoc]
    exact .run (hd.append h) hr hi n

/-- Whoever catches the fault passes it on. -/
theorem pass (h : Broken family f s progress e) :
    Broken family f s progress (e ++ [.raised f s]) := by
  cases h with
  | raised h n =>
    rw [List.append_assoc, ← List.replicate_succ']
    exact .raised h (n + 1)
  | run h hr hi n =>
    rw [List.append_assoc, List.cons_append, List.append_assoc, ← List.replicate_succ']
    exact .run h hr hi (n + 1)

/-- Nothing comes after the fault but that it is passed on. -/
theorem last (h : Broken family f s progress e) : ∃ before n,
    e = before ++ List.replicate (n + 1) (.raised f s) ∧ ∀ a ∈ before, a.isRaised = false := by
  induction h with
  | raised h n => exact ⟨_,n,rfl,h.isRaised⟩
  | @run before inner q level _ _ _ h _ _ n ih =>
    obtain ⟨mid,m,rfl,hm⟩ := ih
    refine ⟨before ++ .started q level :: mid,m + n,?_,?_⟩
    · have hcount : m + n + 1 = m + 1 + n := Nat.add_right_comm m n 1
      rw [hcount, List.append_assoc, List.append_assoc, List.replicate_append_replicate]
      rfl
    · exact List.forall_mem_append.2 ⟨h.isRaised,List.forall_mem_cons.2 ⟨rfl,hm⟩⟩

theorem foldlM_eq (h : Broken family f s progress e) (outer : List (ι × Level)) :
    e.foldlM Event.match? outer = some (progress.reverse ++ outer) := by
  induction h generalizing outer with
  | raised h n =>
    exact (foldlM_match?_append (h.foldlM_eq outer) _).trans (foldlM_match?_raised _ outer)
  | @run before inner q level _ _ progress h _ _ n ih =>
    have hstart : (Event.started q level).match? outer = some ((q, level) :: outer) := rfl
    have hcons : ((q, level) :: progress).reverse ++ outer =
        progress.reverse ++ (q, level) :: outer := by simp
    calc (before ++ Event.started q level :: (inner ++ _)).foldlM Event.match? outer
        = (Event.started q level :: (inner ++ _)).foldlM Event.match? outer :=
          foldlM_match?_append (h.foldlM_eq outer) _
      _ = (inner ++ _).foldlM Event.match? ((q, level) :: outer) := foldlM_match?_cons hstart _
      _ = (List.replicate n _).foldlM Event.match? (progress.reverse ++ (q, level) :: outer) :=
          foldlM_match?_append (ih _) _
      _ = some (progress.reverse ++ (q, level) :: outer) := foldlM_match?_raised n _
      _ = some (((q, level) :: progress).reverse ++ outer) := by rw [hcons]

end Broken

theorem unmatched_of_whole (h : Whole family e) : unmatched e = some [] := by
  unfold unmatched
  rw [h.foldlM_eq]
  rfl

/-- The starts that nothing matches are those of the runs in progress. -/
theorem unmatched_of_broken (h : Broken family f s progress e) :
    unmatched e = some progress := by
  unfold unmatched
  rw [h.foldlM_eq, List.append_nil]
  simp

example : unmatched [.started true 0, .started false 1, .finished false 1 true, .started false 1] =
    some [(true, 0), (false, 1)] := rfl

example : unmatched [.started true 0, .finished true 1 true] = none := rfl

end Cascade
