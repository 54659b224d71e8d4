import Cascade.Run.Event

/-! # Executions

An execution works on a world, the state and the trees compiled so far, and ends with a value or is
halted. Either way there is a world after it and a list of the events in it; events are never read
back. Executions in sequence add their events, and the monad laws hold.
-/
namespace Cascade

variable {ι α β γ : Type}

abbrev Forest (ι : Type) := List (ι × Tree ι)

def Forest.find? [DecidableEq ι] (forest : Forest ι) (q : ι) : Option (Tree ι) :=
  match forest with
  | [] => none
  | (p, tree) :: rest => if p = q then some tree else find? rest q

structure World (ι : Type) where
  state : State := .empty
  forest : Forest ι := []

inductive Halt where
  | fault (f : Fault)
  /-- More pipelines were started within each other than was allowed. -/
  | tooDeep

structure Outcome (ι α : Type) where
  result : Except Halt α
  world : World ι
  events : List (Event ι)

def Exec (ι α : Type) := World ι → Outcome ι α

namespace Exec

protected def pure (a : α) : Exec ι α := fun w => ⟨.ok a, w, []⟩

protected def bind (x : Exec ι α) (f : α → Exec ι β) : Exec ι β := fun w =>
  match x w with
  | ⟨.ok a, w', events⟩ =>
    let out := f a w'
    ⟨out.result, out.world, events ++ out.events⟩
  | ⟨.error h, w', events⟩ => ⟨.error h, w', events⟩

instance : Monad (Exec ι) where
  pure := Exec.pure
  bind := Exec.bind

def state : Exec ι State := fun w => ⟨.ok w.state, w, []⟩

def setState (s : State) : Exec ι Unit := fun w => ⟨.ok (), { w with state := s }, []⟩

def emit (e : Event ι) : Exec ι Unit := fun w => ⟨.ok (), w, [e]⟩

def emitAll (events : List (Event ι)) : Exec ι Unit := fun w => ⟨.ok (), w, events⟩

def raise (f : Fault) : Exec ι α := fun w => ⟨.error (.fault f), w, [.raised f w.state]⟩

def tooDeep : Exec ι α := fun w => ⟨.error .tooDeep, w, []⟩

/-- Gives the fault as a value, if there is one. The world stays as the fault left it. -/
def attempt (x : Exec ι α) : Exec ι (Except Fault α) := fun w =>
  match x w with
  | ⟨.ok a, w', events⟩ => ⟨.ok (.ok a), w', events⟩
  | ⟨.error (.fault f), w', events⟩ => ⟨.ok (.error f), w', events⟩
  | ⟨.error .tooDeep, w', events⟩ => ⟨.error .tooDeep, w', events⟩

/-- A change by a handler. One that is refused leaves the state as it is. -/
def change (c : Change) : Exec ι Unit := do
  match c.apply (← state) with
  | .ok s => do
    setState s
    emit (.changed c)
  | .error f => raise f

def ofExcept : Except Fault α → Exec ι α
  | .ok a => pure a
  | .error f => raise f

@[simp] theorem state_apply (w : World ι) : (state : Exec ι State) w = ⟨.ok w.state, w, []⟩ := rfl

@[simp] theorem setState_apply (s : State) (w : World ι) :
    (setState s : Exec ι Unit) w = ⟨.ok (), { w with state := s }, []⟩ := rfl

@[simp] theorem emit_apply (e : Event ι) (w : World ι) : emit e w = ⟨.ok (), w, [e]⟩ := rfl

@[simp] theorem emitAll_apply (events : List (Event ι)) (w : World ι) :
    emitAll events w = ⟨.ok (), w, events⟩ := rfl

@[simp] theorem raise_apply (f : Fault) (w : World ι) :
    (raise f : Exec ι α) w = ⟨.error (.fault f), w, [.raised f w.state]⟩ := rfl

@[simp] theorem tooDeep_apply (w : World ι) : (tooDeep : Exec ι α) w = ⟨.error .tooDeep, w, []⟩ :=
  rfl

theorem change_apply (c : Change) (w : World ι) :
    (change c : Exec ι Unit) w = match c.apply w.state with
      | .ok s => ⟨.ok (), { w with state := s }, [.changed c]⟩
      | .error f => ⟨.error (.fault f), w, [.raised f w.state]⟩ := by
  show (match c.apply w.state with
    | .ok s => (setState s >>= fun _ => emit (.changed c) : Exec ι Unit)
    | .error f => raise f) w = _
  cases c.apply w.state <;> rfl

@[simp] theorem pure_apply (a : α) (w : World ι) : (pure a : Exec ι α) w = ⟨.ok a, w, []⟩ := rfl

theorem bind_apply (x : Exec ι α) (f : α → Exec ι β) (w : World ι) :
    (x >>= f) w = match x w with
      | ⟨.ok a, w', events⟩ => ⟨(f a w').result, (f a w').world, events ++ (f a w').events⟩
      | ⟨.error h, w', events⟩ => ⟨.error h, w', events⟩ := rfl

@[ext] theorem ext {x y : Exec ι α} (h : ∀ w, x w = y w) : x = y := funext h

theorem bind_of_ok {x : Exec ι α} {f : α → Exec ι β} {w w' : World ι} {a : α}
    {events : List (Event ι)} (h : x w = ⟨.ok a, w', events⟩) :
    (x >>= f) w = ⟨(f a w').result, (f a w').world, events ++ (f a w').events⟩ := by
  rw [bind_apply, h]

theorem bind_of_error {x : Exec ι α} {f : α → Exec ι β} {w w' : World ι} {halt : Halt}
    {events : List (Event ι)} (h : x w = ⟨.error halt, w', events⟩) :
    (x >>= f) w = ⟨.error halt, w', events⟩ := by
  rw [bind_apply, h]

theorem bind_eq_ok {x : Exec ι α} {f : α → Exec ι β} {w w' : World ι} {b : β}
    {events : List (Event ι)} :
    (x >>= f) w = ⟨.ok b, w', events⟩ ↔ ∃ a v d e,
      x w = ⟨.ok a, v, d⟩ ∧ f a v = ⟨.ok b, w', e⟩ ∧ events = d ++ e := by
  rw [bind_apply]
  rcases x w with ⟨_ | a, v, d⟩
  · constructor
    · intro h
      cases h
    · rintro ⟨_, _, _, _, h, _⟩
      cases h
  · constructor
    · intro h
      cases hf : f a v with
      | mk r v' e =>
        simp only [hf] at h
        cases h
        exact ⟨a, v, d, e, rfl, hf, rfl⟩
    · rintro ⟨_, _, _, e, h, hf, rfl⟩
      cases h
      simp only [hf]

theorem bind_pure_id (x : Exec ι α) : (x >>= fun a => pure a) = x := by
  ext w
  rw [bind_apply]
  rcases x w with ⟨_ | _, _, _⟩ <;> simp

theorem pure_bind (a : α) (f : α → Exec ι β) : ((pure a : Exec ι α) >>= f) = f a := by
  ext w
  simp [bind_apply]

theorem bind_assoc (x : Exec ι α) (f : α → Exec ι β) (g : β → Exec ι γ) :
    ((x >>= f) >>= g) = (x >>= fun a => f a >>= g) := by
  ext w
  rw [bind_apply, bind_apply, bind_apply]
  rcases x w with ⟨_ | a, w', events⟩
  · rfl
  · simp only [bind_apply]
    rcases f a w' with ⟨_ | b, w'', events'⟩ <;> simp

instance : LawfulMonad (Exec ι) := LawfulMonad.mk' (Exec ι) bind_pure_id pure_bind bind_assoc

end Exec

end Cascade
