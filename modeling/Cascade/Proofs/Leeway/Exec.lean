import Cascade.Proofs.Leeway.Basic

/-! # Executions side by side

Two executions that start in the same state go on side by side, and end in the same way: with values
that are related, with the same fault, or both too deep. What each of them tells goes together, and
so do the trees that they leave. Sequences keep to this, and so do programs that do the same.
-/
namespace Cascade

open Json (Value)

variable {ι α β γ δ : Type}

structure Simulation (ι : Type) extends Leeway where
  Forests : Forest ι → Forest ι → Prop
  Told : List (Event ι) → List (Event ι) → Prop
  /-- Both may be too deep. -/
  tires : Prop
  told_nil : Told [] []
  told_append {d d' e e' : List (Event ι)} : Told d d' → Told e e' → Told (d ++ e) (d' ++ e')
  told_one {e e' : Event ι} : e.UpTo toLeeway e' → Told [e] [e']

/-- Worlds in the same state, with trees that go together. -/
def Simulation.Joined (sim : Simulation ι) (u v : World ι) : Prop :=
  u.state = v.state ∧ sim.Forests u.forest v.forest

theorem Simulation.Joined.resume {sim : Simulation ι} {u v : World ι} (h : sim.Joined u v)
    (s : State) : sim.Joined { u with state := s } { v with state := s } := ⟨rfl,h.2⟩

inductive Simulation.Ends (sim : Simulation ι) (r : α → β → Prop) :
    Except Halt α → Except Halt β → Prop where
  | ok {a : α} {b : β} (h : r a b) : Ends sim r (.ok a) (.ok b)
  | fault {f f' : Fault} (h : f.UpTo sim.Opts f') :
    Ends sim r (.error (.fault f)) (.error (.fault f'))
  | tooDeep (h : sim.tires) : Ends sim r (.error .tooDeep) (.error .tooDeep)

theorem Simulation.Ends.eq {sim : Simulation ι} (ho : ∀ {o o'}, sim.Opts o o' → o = o')
    {r : α → α → Prop} (hr : ∀ {a b}, r a b → a = b) {result result' : Except Halt α}
    (h : sim.Ends r result result') : result = result' := by
  cases h with
  | ok h => rw [hr h]
  | fault h => rw [h.eq ho]
  | tooDeep _ => rfl

structure Outcome.Paired (sim : Simulation ι) (r : α → β → Prop) (out : Outcome ι α)
    (out' : Outcome ι β) : Prop where
  ends : sim.Ends r out.result out'.result
  told : sim.Told out.events out'.events
  joined : sim.Joined out.world out'.world

namespace Exec

def Paired (sim : Simulation ι) (r : α → β → Prop) (x : Exec ι α) (y : Exec ι β) : Prop :=
  ∀ ⦃u v : World ι⦄, sim.Joined u v → (x u).Paired sim r (y v)

variable {sim : Simulation ι} {r : α → β → Prop} {s : γ → δ → Prop}

theorem paired_pure {a : α} {b : β} (h : r a b) : Paired sim r (pure a) (pure b) :=
  fun _ _ hj => ⟨.ok h,sim.told_nil,hj⟩

theorem paired_state : Paired sim (· = ·) (state : Exec ι State) state :=
  fun _ _ hj => ⟨.ok hj.1,sim.told_nil,hj⟩

theorem paired_setState (t : State) : Paired sim (· = ·) (setState t : Exec ι Unit) (setState t) :=
  fun _ _ hj => ⟨.ok rfl,sim.told_nil,hj.resume t⟩

theorem paired_emit {e e' : Event ι} (h : e.UpTo sim.toLeeway e') :
    Paired sim (· = ·) (emit e) (emit e') := fun _ _ hj => ⟨.ok rfl,sim.told_one h,hj⟩

theorem paired_raise {f f' : Fault} (h : f.UpTo sim.Opts f') :
    Paired sim r (raise f : Exec ι α) (raise f' : Exec ι β) := by
  intro u v hj
  refine ⟨.fault h,?_,hj⟩
  rw [raise_apply, raise_apply, hj.1]
  exact sim.told_one (.raised h _)

theorem paired_tooDeep (h : sim.tires) :
    Paired sim r (tooDeep : Exec ι α) (tooDeep : Exec ι β) :=
  fun _ _ hj => ⟨.tooDeep h,sim.told_nil,hj⟩

theorem Paired.bind {x : Exec ι α} {y : Exec ι β} {f : α → Exec ι γ} {g : β → Exec ι δ}
    (hx : Paired sim r x y) (hf : ∀ {a b}, r a b → Paired sim s (f a) (g b)) :
    Paired sim s (x >>= f) (y >>= g) := by
  intro u v hj
  have h := hx hj
  rw [bind_apply, bind_apply]
  generalize x u = out at h
  generalize y v = out' at h
  obtain ⟨result,u',d⟩ := out
  obtain ⟨result',v',e⟩ := out'
  obtain ⟨hends,htold,hjoined⟩ := h
  cases hends with
  | ok hab =>
    have hnext := hf hab hjoined
    exact ⟨hnext.ends,sim.told_append htold hnext.told,hnext.joined⟩
  | fault hfault => exact ⟨.fault hfault,htold,hjoined⟩
  | tooDeep ht => exact ⟨.tooDeep ht,htold,hjoined⟩

theorem Paired.map {x : Exec ι α} {y : Exec ι β} {f : α → γ} {g : β → δ} (hx : Paired sim r x y)
    (hf : ∀ {a b}, r a b → s (f a) (g b)) :
    Paired sim s (x >>= fun a => pure (f a)) (y >>= fun b => pure (g b)) :=
  hx.bind fun h => paired_pure (hf h)

theorem paired_change (c : Change) :
    Paired sim (· = ·) (change c : Exec ι Unit) (change c) := by
  refine paired_state.bind fun {t t'} ht => ?_
  cases ht
  cases c.apply t with
  | ok t => exact (paired_setState t).bind fun _ => paired_emit (.changed c)
  | error f => exact paired_raise (.refl f)

/-- What is caught is the same, so both go on, or both are too deep. -/
theorem Paired.attempt {x y : Exec ι Value} (hx : Paired sim (· = ·) x y) :
    Paired sim sim.Caught x.attempt y.attempt := by
  intro u v hj
  have h := hx hj
  cases hxu : x u with
  | mk result u' d =>
  cases hyv : y v with
  | mk result' v' e =>
  rw [hxu, hyv] at h
  obtain ⟨hends,htold,hjoined⟩ := h
  cases hends with
  | @ok a b hab =>
    cases hab
    rw [attempt_of_ok hxu, attempt_of_ok hyv]
    exact ⟨.ok (.ok a),htold,hjoined⟩
  | fault hf =>
    rw [attempt_of_fault hxu, attempt_of_fault hyv]
    exact ⟨.ok (.error hf),htold,hjoined⟩
  | tooDeep ht =>
    rw [attempt_of_tooDeep hxu, attempt_of_tooDeep hyv]
    exact ⟨.tooDeep ht,htold,hjoined⟩

end Exec

open Exec (Paired)

/-! ## Programs -/

/-- Pipelines that may be started are started side by side. -/
structure Launch.Paired (sim : Simulation ι) (starts : ι → Prop) (launch launch' : Launch ι) :
    Prop where
  run {q : ι} (hq : starts q) {m n : Level} (h : sim.Levels m n) :
    Exec.Paired sim (· = ·) (launch.run q m) (launch'.run q n)
  invoke {q : ι} (hq : starts q) {o o' : Options} (ho : sim.Opts o o') {m n : Level}
    (h : sim.Levels m n) :
    Exec.Paired sim (· = ·) (launch.invoke q o m) (launch'.invoke q o' n)

variable {sim : Simulation ι} {starts : ι → Prop} {launch launch' : Launch ι}

theorem Launch.Paired.mono {S : ι → Prop} (hl : launch.Paired sim starts launch')
    (h : ∀ q, S q → starts q) : launch.Paired sim S launch' :=
  ⟨fun hq => hl.run (h _ hq),fun hq => hl.invoke (h _ hq)⟩

section

variable {continuation continuation' : Option (Exec ι Unit)}
  (hl : launch.Paired sim starts launch')
  (hk : Option.Rel (Paired sim (· = ·)) continuation continuation')
include hl hk

theorem Call.exec?_paired {c c' : Call ι} (hc : c.UpTo sim.toLeeway starts c') :
    Option.Rel (Paired sim (· = ·)) (c.exec? launch continuation)
      (c'.exec? launch' continuation') := by
  cases hc with
  | next =>
    cases hk with
    | none => exact .none
    | some h =>
      refine .some (h.bind fun _ => Exec.paired_state.map fun hs => ?_)
      rw [hs]
  | run hq h => exact .some ((hl.run hq h).map fun _ => rfl)
  | invoke hq ho h => exact .some (hl.invoke hq ho h)

/-- Programs that do the same are executed side by side, given that this holds of the continuation
and of the pipelines that they may start. -/
theorem Program.exec_paired {p p' : Program ι} (hp : p.UpTo sim.toLeeway starts p') (runs : Nat) :
    Paired sim (· = ·) (p.exec launch continuation runs)
      (p'.exec launch' continuation' runs) := by
  have hmissing : Paired sim (· = ·) (Exec.raise noContinuation : Exec ι (Value × Nat))
      (Exec.raise noContinuation) := Exec.paired_raise (.refl _)
  have hruns : ∀ {c c' : Call ι}, c.UpTo sim.toLeeway starts c' → c.runs = c'.runs := by
    intro c c' hc
    cases hc <;> rfl
  induction hp generalizing runs with
  | done v => exact Exec.paired_pure rfl
  | raise h => exact Exec.paired_raise h
  | read _ ih =>
    refine Exec.paired_state.bind fun {s t} hs => ?_
    cases hs
    exact ih s runs
  | change c _ ih => exact (Exec.paired_change c).bind fun _ => ih runs
  | count _ ih =>
    unfold Program.exec
    cases hk with
    | none => exact hmissing
    | some _ => exact ih runs runs
  | @call c c' _ _ hc _ ih =>
    unfold Program.exec
    have hcall := Call.exec?_paired hl hk hc
    generalize c.exec? launch continuation = x at hcall ⊢
    generalize c'.exec? launch' continuation' = y at hcall ⊢
    cases hcall with
    | none => exact hmissing
    | some h =>
      refine h.bind fun {v w} hv => ?_
      cases hv
      rw [hruns hc]
      exact ih v _
  | @attempt c c' _ _ hc _ ih =>
    unfold Program.exec
    have hcall := Call.exec?_paired hl hk hc
    generalize c.exec? launch continuation = x at hcall ⊢
    generalize c'.exec? launch' continuation' = y at hcall ⊢
    cases hcall with
    | none => exact hmissing
    | some h =>
      refine h.attempt.bind fun {a b} hab => ?_
      rw [hruns hc]
      exact ih a b hab _

omit hk in
theorem Program.value_paired {p p' : Program ι} (hp : p.UpTo sim.toLeeway starts p') :
    Paired sim (· = ·) (p.value launch) (p'.value launch') := by
  refine (Program.exec_paired hl .none hp 0).map fun h => ?_
  rw [h]

end

end Cascade
