import Cascade.Run.Traversal
import Cascade.Proofs.Level.UpThrough

/-! # Performing one instruction

Executing an instruction has three parts: the required options are looked for, the instruction is
announced, and it acts. Steps and failure handlers share the first part, wraps and gates have none.
Levels and cascades are put together from these parts.
-/
namespace Cascade

open Json (Value)

variable {ι : Type}

namespace Instruction

def lacking? (required : List Key) : Instruction ι → Option Key
  | step _ o | failure _ o => o.lacking? required
  | wrap .. | gate _ => none

theorem lacking?_eq (required : List Key) (i : Instruction ι) : i.lacking? required =
    if i.isStep || i.isFailure then i.options.lacking? required else none := by
  cases i <;> rfl

/-- The position that the handler of a step or failure handler stands in. -/
def role : Instruction ι → Role
  | failure .. => .failure
  | _ => .step

def requiredAfter (required : List Key) : Instruction ι → List Key
  | gate g => g.requiredAfter required
  | _ => required

theorem requiredAfter_eq (required : List Key) (i : Instruction ι) : i.requiredAfter required =
    match i.gate? with
    | some g => g.requiredAfter required
    | none => required := by
  cases i <;> rfl

theorem requiredAfter_of_isFailure {i : Instruction ι} (hi : i.isFailure = true)
    (required : List Key) : i.requiredAfter required = required := by
  cases i with
  | gate g => cases hi
  | _ => rfl

def demand (required : List Key) (i : Instruction ι) : Exec ι Unit :=
  match i.lacking? required with
  | some k => Exec.raise (.missingOption k.raw i.options.text)
  | none => return

/-- What is to be shown of a wrap may be assumed of its children. -/
theorem induction {P : Instruction ι → Prop} (step : ∀ h o, P (.step h o))
    (failure : ∀ h o, P (.failure h o))
    (wrap : ∀ h o children, (∀ c ∈ children, P c) → P (.wrap h o children))
    (gate : ∀ g, P (.gate g)) : ∀ i, P i
  | .step h o => step h o
  | .failure h o => failure h o
  | .wrap h o children => wrap h o children fun c _ => induction step failure wrap gate c
  | .gate g => gate g

/-- The state once a result is given back: only a step can fail it. -/
def verdict (i : Instruction ι) (result : Value) (s : State) : State :=
  if i.isStep && i.canFail result then s.fail else s

/-- A value that tells whether the state is still successful never fails it anew. -/
theorem verdict_successful (i : Instruction ι) (s : State) :
    i.verdict (.bool s.successful) s = s := by
  unfold verdict
  cases hs : s.failed with
  | true =>
    have hfail : s.fail = s := State.ext rfl hs.symm
    rw [hfail, ite_self]
  | false =>
    have hfine : i.canFail (.bool s.successful) = false := by
      unfold canFail
      rw [State.successful, hs]
      simp [Value.truthy]
    rw [hfine, Bool.and_false]
    rfl

end Instruction

/-- The failure handlers that a cascade over these instructions runs. -/
def Instruction.cascade (remaining : List (Instruction ι)) : List (Instruction ι) :=
  upThrough (fun i => i.options.failFast) (remaining.filter Instruction.isFailure)

variable (family : Family ι) (launch : Launch ι)

namespace Site

variable (site : Site ι)

/-- What an instruction does once it is announced. -/
def act : Instruction ι → Exec ι Unit
  | .step h o => do
    let result ← site.dispatch family launch .step o h
    Exec.emit (.returned site.pipeline site.level (.step h o) result)
    if (Instruction.step h o).canFail result then Exec.setState (← Exec.state).fail
  | .failure h o => do
    let result ← site.dispatch family launch .failure o h
    Exec.emit (.returned site.pipeline site.level (.failure h o) result)
  | .wrap h o children => do
    let (result, _) ← h.wrap family launch o (site.deeper.traverse family launch [] children)
    Exec.emit (.returned site.pipeline site.level (.wrap h o children) result)
  | .gate g => g.check

def perform (i : Instruction ι) : Exec ι Unit := do
  site.announce family i
  site.act family launch i

def enact (required : List Key) (i : Instruction ι) : Exec ι Unit := do
  i.demand required
  site.perform family launch i

theorem announce_apply (i : Instruction ι) (w : World ι) :
    site.announce family i w = ⟨.ok (), w, .executing site.pipeline site.level i w.state ::
      if site.settings.debug then [.logged site.settings.logger (site.record family i w.state)]
      else []⟩ := by
  unfold announce
  simp only [Exec.bind_apply, Exec.state_apply, Exec.emit_apply]
  cases site.settings.debug with
  | true => rfl
  | false => rfl

theorem enact_eq (required : List Key) (i : Instruction ι) :
    site.enact family launch required i =
      match i.lacking? required with
      | some k => Exec.raise (.missingOption k.raw i.options.text)
      | none => site.perform family launch i := by
  unfold enact Instruction.demand
  cases i.lacking? required with
  | none => rfl
  | some k => rfl

/-- Gives back the result of an instruction, which fails the state by the verdict on it. -/
def conclude (i : Instruction ι) (result : Value) : Exec ι Unit := do
  Exec.emit (.returned site.pipeline site.level i result)
  if i.isStep && i.canFail result then Exec.setState (← Exec.state).fail

theorem conclude_apply (i : Instruction ι) (result : Value) (w : World ι) :
    site.conclude i result w = ⟨.ok (), { w with state := i.verdict result w.state },
      [.returned site.pipeline site.level i result]⟩ := by
  unfold conclude Instruction.verdict
  cases i.isStep && i.canFail result <;> rfl

/-- Steps and failure handlers act alike: only a step can be failed by its result. -/
theorem act_leaf {i : Instruction ι} (hi : i.isStep = true ∨ i.isFailure = true) :
    site.act family launch i =
      (site.dispatch family launch i.role i.options i.handler >>= site.conclude i) := by
  cases i with
  | step h o => rfl
  | failure h o => rfl
  | wrap _ _ _ => rcases hi with h | h <;> cases h
  | gate _ => rcases hi with h | h <;> cases h

theorem leaf_eq {i : Instruction ι} (hi : i.isStep = true ∨ i.isFailure = true)
    (required : List Key) :
    site.leaf family launch required i.role i = site.enact family launch required i := by
  cases i with
  | step h o | failure h o =>
    rw [enact_eq]
    unfold leaf Instruction.lacking?
    simp only [Instruction.options]
    cases o.lacking? required with
    | none => rfl
    | some k => rfl
  | wrap _ _ _ | gate _ => rcases hi with h | h <;> cases h

theorem execute_of_isFailure {i : Instruction ι} (hi : i.isFailure = true) (required : List Key) :
    site.execute family launch required i = pure required := by
  cases i with
  | failure h o => rfl
  | _ => cases hi

theorem execute_of_not_isFailure {i : Instruction ι} (hi : i.isFailure = false)
    (required : List Key) :
    site.execute family launch required i = do
      site.enact family launch required i
      return i.requiredAfter required := by
  cases i with
  | step h o =>
    have hleaf : site.leaf family launch required .step (.step h o) =
        site.enact family launch required (.step h o) :=
      site.leaf_eq family launch (Or.inl rfl) required
    unfold execute
    rw [hleaf]
    rfl
  | failure h o => cases hi
  | wrap h o children =>
    unfold execute enact perform act Instruction.demand
    simp only [Instruction.lacking?, Exec.bind_assoc, Exec.pure_bind]
    rfl
  | gate g =>
    unfold execute enact perform act Instruction.demand
    simp only [Instruction.lacking?, Exec.bind_assoc, Exec.pure_bind]
    rfl

theorem runFailures_eq (required : List Key) {is : List (Instruction ι)}
    (hi : ∀ i ∈ is, i.isFailure = true) :
    site.runFailures family launch required is =
      (upThrough (fun i => i.options.failFast) is).forM (site.enact family launch required) := by
  induction is with
  | nil => rfl
  | cons i rest ih =>
    have hrest := ih fun j hj => hi j (List.mem_cons_of_mem i hj)
    have hleaf : site.leaf family launch required .failure i =
        site.enact family launch required i := by
      cases i with
      | failure h o => exact site.leaf_eq family launch (Or.inr rfl) required
      | _ => cases hi _ List.mem_cons_self
    unfold runFailures upThrough
    rw [hleaf]
    cases i.options.failFast with
    | true => rfl
    | false =>
      rw [hrest]
      rfl

theorem cascade_eq (required : List Key) (remaining : List (Instruction ι)) :
    site.cascade family launch required remaining =
      (Exec.emit (.cascading site.pipeline site.level) >>= fun _ =>
        (Instruction.cascade remaining).forM (site.enact family launch required)) := by
  unfold cascade
  rw [runFailures_eq]
  · rfl
  · intro i hi
    exact (List.mem_filter.1 hi).2

theorem traverse_cons (required : List Key) (i : Instruction ι) (rest : List (Instruction ι))
    (w : World ι) :
    site.traverse family launch required (i :: rest) w =
      if w.state.failed then site.cascade family launch required (i :: rest) w
      else (site.execute family launch required i >>= fun r =>
        site.traverse family launch r rest) w := by
  rw [traverse, Exec.bind_of_ok (Exec.state_apply w)]
  split <;> rfl

/-! ## Walking a level -/

/-- A level, given how its instructions are executed. -/
def walk (enact : List Key → Instruction ι → Exec ι Unit) (required : List Key) :
    List (Instruction ι) → Exec ι Unit
  | [] => return
  | i :: rest => do
    if (← Exec.state).failed then
      Exec.emit (.cascading site.pipeline site.level)
      (Instruction.cascade (i :: rest)).forM (enact required)
    else if i.isFailure then walk enact required rest
    else
      enact required i
      walk enact (i.requiredAfter required) rest

theorem walk_cons (enact : List Key → Instruction ι → Exec ι Unit) (required : List Key)
    (i : Instruction ι) (rest : List (Instruction ι)) (w : World ι) :
    site.walk enact required (i :: rest) w =
      if w.state.failed then (Exec.emit (.cascading site.pipeline site.level) >>= fun _ =>
        (Instruction.cascade (i :: rest)).forM (enact required)) w
      else if i.isFailure then site.walk enact required rest w
      else (enact required i >>= fun _ => site.walk enact (i.requiredAfter required) rest) w := by
  rw [walk, Exec.bind_of_ok (Exec.state_apply w)]
  cases w.state.failed with
  | true => rfl
  | false => cases i.isFailure <;> rfl

theorem traverse_eq_walk (required : List Key) (is : List (Instruction ι)) :
    site.traverse family launch required is =
      site.walk (site.enact family launch) required is := by
  induction is generalizing required with
  | nil => rfl
  | cons i rest ih =>
    ext w
    rw [traverse_cons, walk_cons, cascade_eq]
    cases hi : i.isFailure with
    | true =>
      rw [execute_of_isFailure family launch site hi, Exec.pure_bind, ih]
      rfl
    | false =>
      rw [execute_of_not_isFailure family launch site hi, Exec.bind_assoc]
      simp only [Exec.pure_bind, ih]
      rfl

end Site

theorem Instruction.cascade_of_isFailure {i : Instruction ι} (h : i.isFailure = true)
    (rest : List (Instruction ι)) : Instruction.cascade (i :: rest) =
      if i.options.failFast then [i] else i :: Instruction.cascade rest := by
  unfold cascade
  rw [List.filter_cons_of_pos h, upThrough]

theorem Instruction.cascade_of_not_isFailure {i : Instruction ι} (h : i.isFailure = false)
    (rest : List (Instruction ι)) :
    Instruction.cascade (i :: rest) = Instruction.cascade rest := by
  unfold cascade
  rw [List.filter_cons_of_neg (by simp [h])]

/-- Only failure handlers are in a cascade. -/
theorem Instruction.forM_cascade_congr {f g : Instruction ι → Exec ι Unit}
    {is : List (Instruction ι)} (h : ∀ i ∈ is, i.isFailure = true → f i = g i) :
    (Instruction.cascade is).forM f = (Instruction.cascade is).forM g := by
  induction is with
  | nil => rfl
  | cons i rest ih =>
    have hrest := ih fun j hj => h j (List.mem_cons_of_mem i hj)
    cases hi : i.isFailure with
    | false =>
      rw [cascade_of_not_isFailure hi]
      exact hrest
    | true =>
      have hone := h i List.mem_cons_self hi
      rw [cascade_of_isFailure hi]
      split
      · show (_ >>= fun _ => pure ()) = (_ >>= fun _ => pure ())
        rw [hone]
      · show (_ >>= fun _ => _) = (_ >>= fun _ => _)
        rw [hone, hrest]

theorem Site.walk_congr {site : Site ι} {f g : List Key → Instruction ι → Exec ι Unit}
    {is : List (Instruction ι)} (h : ∀ i ∈ is, ∀ keys, f keys i = g keys i)
    (required : List Key) : site.walk f required is = site.walk g required is := by
  induction is generalizing required with
  | nil => rfl
  | cons i rest ih =>
    have hcascade : (Instruction.cascade (i :: rest)).forM (f required) =
        (Instruction.cascade (i :: rest)).forM (g required) :=
      Instruction.forM_cascade_congr fun j hj _ => h j hj required
    unfold walk
    rw [hcascade, h i List.mem_cons_self]
    simp only [ih fun j hj => h j (List.mem_cons_of_mem i hj)]

end Cascade
