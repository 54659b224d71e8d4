import Cascade.Run.Pipeline
import Cascade.Proofs.Declared.Placed

/-! # Executions that are alike

A comparison of two runs says which worlds they may be in at the same time, and what each of them
may do from there. It holds when nothing happens and is handed on from one execution to the next. A
likeness says besides how both are halted. So it says something of a single run too, compared with
itself.
-/
namespace Cascade

open Json (Value)

variable {ι α β γ δ : Type}

structure Comparison (ι : Type) where
  Joined : World ι → World ι → Prop
  /-- What happens in each run on the way from one pair of worlds to another. -/
  Holds : World ι → World ι → List (Event ι) → List (Event ι) → World ι → World ι → Prop
  refl {u v : World ι} : Joined u v → Holds u v [] [] u v
  trans {u v u' v' u'' v'' : World ι} {d e d' e' : List (Event ι)} :
    Holds u v d e u' v' → Holds u' v' d' e' u'' v'' → Holds u v (d ++ d') (e ++ e') u'' v''
  joined {u v u' v' : World ι} {d e : List (Event ι)} : Holds u v d e u' v' → Joined u' v'
  state_eq {u v : World ι} : Joined u v → u.state = v.state
  sticky {u v u' v' : World ι} {d e : List (Event ι)} :
    Holds u v d e u' v' → u.state.failed = true → u'.state.failed = true

/-- Where two runs may be at the same time, and which instructions they may execute there. -/
structure Stage (ι : Type) where
  Sites : Site ι → Site ι → Prop
  Runs : Site ι → Site ι → Instruction ι → Instruction ι → Prop
  level_eq {site site' : Site ι} : Sites site site' → site.level = site'.level
  deeper {site site' : Site ι} : Sites site site' → Sites site.deeper site'.deeper
  runs_deeper {site site' : Site ι} {i i' : Instruction ι} :
    Runs site site' i i' → Runs site.deeper site'.deeper i i'

structure Likeness (ι : Type) extends Comparison ι, Stage ι where
  /-- Faults that handlers may raise by themselves. -/
  Admits : Fault → Prop
  /-- Handlers may go on after a fault that they catch. -/
  catches : Prop
  /-- What happens until both runs are halted. -/
  Halts : Halt → World ι → World ι → List (Event ι) → List (Event ι) → World ι → World ι → Prop
  /-- The first run may be too deep while the second goes on. -/
  firstTires : Prop
  secondTires : Prop
  halts_trans {halt : Halt} {u v u' v' u'' v'' : World ι} {d e d' e' : List (Event ι)} :
    Holds u v d e u' v' → Halts halt u' v' d' e' u'' v'' →
      Halts halt u v (d ++ d') (e ++ e') u'' v''
  halts_joined {halt : Halt} {u v u' v' : World ι} {d e : List (Event ι)} :
    Halts halt u v d e u' v' → Joined u' v'
  tooDeep {u v : World ι} : Joined u v → Halts .tooDeep u v [] [] u v
  caught {f : Fault} {u v u' v' : World ι} {d e : List (Event ι)} :
    catches → Halts (.fault f) u v d e u' v' → Holds u v d e u' v' ∧ Admits f

/-- Sites of the same pipeline on the same level, with settings that go together. -/
structure Site.Same (Shares : Settings ι → Settings ι → Prop) (site site' : Site ι) : Prop where
  pipeline : site.pipeline = site'.pipeline
  level : site.level = site'.level
  settings : Shares site.settings site'.settings

theorem Site.Same.eq {site site' : Site ι} (h : Site.Same (· = ·) site site') : site = site' := by
  obtain ⟨q,s,n⟩ := site
  obtain ⟨hq,hn,hs⟩ := h
  cases hq
  cases hn
  cases hs
  rfl

/-- Which instructions may be executed against each other is up to the pipeline. -/
def Stage.over (Shares : Settings ι → Settings ι → Prop)
    (Runs : ι → Instruction ι → Instruction ι → Prop) : Stage ι where
  Sites := Site.Same Shares
  Runs site _ := Runs site.pipeline
  level_eq h := h.level
  deeper h := ⟨h.pipeline,congrArg (· + 1) h.level,h.settings⟩
  runs_deeper h := h

abbrev Stage.same (Shares : Settings ι → Settings ι → Prop) (Runs : ι → Instruction ι → Prop) :
    Stage ι := .over Shares fun q i i' => i = i' ∧ Runs q i

/-- Where one run is halted so is the other, in the same way, and till then the comparison holds. -/
def Comparison.likeness (c : Comparison ι) (stage : Stage ι) (Admits : Fault → Prop) :
    Likeness ι where
  toComparison := c
  toStage := stage
  Admits := Admits
  catches := True
  Halts halt u v d e u' v' := c.Holds u v d e u' v' ∧ ∀ f, halt = .fault f → Admits f
  firstTires := False
  secondTires := False
  halts_trans h h' := ⟨c.trans h h'.1,h'.2⟩
  halts_joined h := c.joined h.1
  tooDeep h := ⟨c.refl h,by simp⟩
  caught _ h := ⟨h.1,h.2 _ rfl⟩

variable {like : Likeness ι}

/-- Both end with values that are related, or both are halted, or one is too deep and may be. -/
inductive Outcome.Alike (like : Likeness ι) (r : α → β → Prop) (u v : World ι) :
    Outcome ι α → Outcome ι β → Prop where
  | ok {a : α} {b : β} {u' v' : World ι} {d e : List (Event ι)} (h : r a b)
    (hh : like.Holds u v d e u' v') : Alike like r u v ⟨.ok a, u', d⟩ ⟨.ok b, v', e⟩
  | halted {halt : Halt} {u' v' : World ι} {d e : List (Event ι)}
    (hh : like.Halts halt u v d e u' v') :
    Alike like r u v ⟨.error halt, u', d⟩ ⟨.error halt, v', e⟩
  | first {u' : World ι} {d : List (Event ι)} {out : Outcome ι β} (h : like.firstTires) :
    Alike like r u v ⟨.error .tooDeep, u', d⟩ out
  | second {v' : World ι} {e : List (Event ι)} {out : Outcome ι α} (h : like.secondTires) :
    Alike like r u v out ⟨.error .tooDeep, v', e⟩

namespace Exec

def AlikeAt (like : Likeness ι) (r : α → β → Prop) (x : Exec ι α) (y : Exec ι β)
    (u v : World ι) : Prop := (x u).Alike like r u v (y v)

/-- In joined worlds both executions end alike. -/
def Alike (like : Likeness ι) (r : α → β → Prop) (x : Exec ι α) (y : Exec ι β) : Prop :=
  ∀ ⦃u v : World ι⦄, like.Joined u v → AlikeAt like r x y u v

variable {r : α → β → Prop} {s : γ → δ → Prop}

theorem alike_pure {a : α} {b : β} (h : r a b) : Alike like r (pure a) (pure b) :=
  fun _ _ hj => .ok h (like.refl hj)

theorem alike_state : Alike like (· = ·) (state : Exec ι State) state :=
  fun _ _ hj => .ok (like.state_eq hj) (like.refl hj)

theorem alike_tooDeep : Alike like r (tooDeep : Exec ι α) (tooDeep : Exec ι β) :=
  fun _ _ hj => .halted (like.tooDeep hj)

theorem alikeAt_of_eq {x : Exec ι α} {y : Exec ι β} {u v : World ι} {out : Outcome ι α}
    {out' : Outcome ι β} (hx : x u = out) (hy : y v = out') (h : out.Alike like r u v out') :
    AlikeAt like r x y u v := by
  rw [AlikeAt, hx, hy]
  exact h

theorem AlikeAt.congr {x x' : Exec ι α} {y y' : Exec ι β} {u v : World ι} (hx : x u = x' u)
    (hy : y v = y' v) (h : AlikeAt like r x' y' u v) : AlikeAt like r x y u v :=
  alikeAt_of_eq hx hy h

end Exec

variable {r : α → β → Prop} {s : γ → δ → Prop}

/-- What comes later is alike if what comes before it holds. -/
theorem Outcome.Alike.after {u v u' v' : World ι} {d e : List (Event ι)} {out : Outcome ι α}
    {out' : Outcome ι β} (hh : like.Holds u v d e u' v') (h : out.Alike like r u' v' out') :
    Outcome.Alike like r u v ⟨out.result, out.world, d ++ out.events⟩
      ⟨out'.result, out'.world, e ++ out'.events⟩ := by
  cases h with
  | ok h hh' => exact .ok h (like.trans hh hh')
  | halted hh' => exact .halted (like.halts_trans hh hh')
  | first h => exact .first h
  | second h => exact .second h

theorem Outcome.Alike.imp {r s : α → β → Prop} (hrs : ∀ {a b}, r a b → s a b) {u v : World ι}
    {out : Outcome ι α} {out' : Outcome ι β} (h : out.Alike like r u v out') :
    out.Alike like s u v out' := by
  cases h with
  | ok h hh => exact .ok (hrs h) hh
  | halted hh => exact .halted hh
  | first h => exact .first h
  | second h => exact .second h

theorem Outcome.Alike.joined {u v : World ι} {out : Outcome ι α} {out' : Outcome ι β}
    (h : out.Alike like r u v out') (hf : ¬ like.firstTires) (hs : ¬ like.secondTires) :
    like.Joined out.world out'.world := by
  cases h with
  | ok _ hh => exact like.joined hh
  | halted hh => exact like.halts_joined hh
  | first h => exact absurd h hf
  | second h => exact absurd h hs

section

variable {c : Comparison ι} {stage : Stage ι} {Admits : Fault → Prop} {u v : World ι}
  {out : Outcome ι α} {out' : Outcome ι β}

theorem Outcome.Alike.holds (h : out.Alike (c.likeness stage Admits) r u v out') :
    c.Holds u v out.events out'.events out.world out'.world := by
  cases h with
  | ok _ hh => exact hh
  | halted hh => exact hh.1
  | first h => cases h
  | second h => cases h

theorem Outcome.Alike.result (h : out.Alike (c.likeness stage Admits) r u v out') :
    (∃ a b, r a b ∧ out.result = .ok a ∧ out'.result = .ok b) ∨
      ∃ halt, out.result = .error halt ∧ out'.result = .error halt ∧
        ∀ f, halt = .fault f → Admits f := by
  cases h with
  | ok h _ => exact Or.inl ⟨_,_,h,rfl,rfl⟩
  | halted hh => exact Or.inr ⟨_,rfl,rfl,hh.2⟩
  | first h => cases h
  | second h => cases h

end

namespace Exec

/-- The second parts have to be alike only where the first ones leave off. -/
theorem AlikeAt.bind {x : Exec ι α} {y : Exec ι β} {f : α → Exec ι γ} {g : β → Exec ι δ}
    {u v : World ι} (hx : AlikeAt like r x y u v)
    (hf : ∀ {a b u' v' d e}, r a b → like.Holds u v d e u' v' → AlikeAt like s (f a) (g b) u' v') :
    AlikeAt like s (x >>= f) (y >>= g) u v := by
  unfold AlikeAt at hx ⊢
  rw [bind_apply, bind_apply]
  generalize x u = out at hx
  generalize y v = out' at hx
  cases hx with
  | ok h hh => exact (hf h hh).after hh
  | halted hh => exact .halted hh
  | first h => exact .first h
  | second h => exact .second h

theorem Alike.bind {x : Exec ι α} {y : Exec ι β} {f : α → Exec ι γ} {g : β → Exec ι δ}
    (hx : Alike like r x y) (hf : ∀ {a b}, r a b → Alike like s (f a) (g b)) :
    Alike like s (x >>= f) (y >>= g) :=
  fun _ _ hj => (hx hj).bind fun hr hh => hf hr (like.joined hh)

theorem map_apply (x : Exec ι α) (f : α → γ) (w : World ι) :
    (x >>= fun a => pure (f a)) w = ⟨(x w).result.map f, (x w).world, (x w).events⟩ := by
  rw [bind_apply]
  rcases x w with ⟨_ | a, v, e⟩
  · rfl
  · simp [Except.map]

theorem bind_of_silent {x : Exec ι α} {f : α → Exec ι γ} {w w' : World ι} {a : α} {c : γ}
    {events : List (Event ι)} (hx : x w = ⟨.ok a, w', events⟩) (hf : f a w' = ⟨.ok c, w', []⟩) :
    (x >>= f) w = ⟨.ok c, w', events⟩ := by
  rw [bind_of_ok hx, hf, List.append_nil]

/-- The value of a continuation tells whether the state is still successful. -/
theorem successful_of_ok {continuation : Exec ι Unit} {w w' : World ι} {events : List (Event ι)}
    (h : continuation w = ⟨.ok (), w', events⟩) : (do
      continuation
      return .bool (← Exec.state).successful : Exec ι Value) w =
      ⟨.ok (.bool w'.state.successful), w', events⟩ := bind_of_silent h rfl

theorem attempt_of_ok {x : Exec ι α} {w w' : World ι} {a : α} {events : List (Event ι)}
    (h : x w = ⟨.ok a, w', events⟩) : x.attempt w = ⟨.ok (.ok a), w', events⟩ := by
  rw [attempt, h]

theorem attempt_of_fault {x : Exec ι α} {w w' : World ι} {f : Fault} {events : List (Event ι)}
    (h : x w = ⟨.error (.fault f), w', events⟩) : x.attempt w = ⟨.ok (.error f), w', events⟩ := by
  rw [attempt, h]

theorem attempt_of_tooDeep {x : Exec ι α} {w w' : World ι} {events : List (Event ι)}
    (h : x w = ⟨.error .tooDeep, w', events⟩) : x.attempt w = ⟨.error .tooDeep, w', events⟩ := by
  rw [attempt, h]

end Exec

open Exec (Alike AlikeAt)

structure Launch.Alike (like : Likeness ι) (launch launch' : Launch ι) : Prop where
  run (q : ι) (level : Level) : Exec.Alike like (· = ·) (launch.run q level) (launch'.run q level)
  invoke (q : ι) (options : Options) (level : Level) :
    Exec.Alike like (· = ·) (launch.invoke q options level) (launch'.invoke q options level)

theorem Change.placed_of_apply {c : Change} {s : State} {f : Fault} (h : c.apply s = .error f) :
    f.misplaced = false := by
  cases c with
  | set key value =>
    have hs : s.set key value = .error f := h
    cases hk : Key.isSymbolic key with
    | true =>
      rw [State.set_of_symbolic hk] at hs
      cases hs
    | false =>
      rw [State.set_of_not_symbolic hk] at hs
      cases hs
      rfl
  | remove key => cases h
  | fail => cases h
  | record name =>
    have hr : CallLog.record s name = .error f := h
    unfold CallLog.record CallLog.entries at hr
    split at hr
    · cases hr
    · cases hr
    · cases hr
    · cases hr
      rfl

/-- The likeness is kept by whatever a handler does by itself. -/
structure Likeness.Tolerant (like : Likeness ι) : Prop where
  changed {c : Change} {u v : World ι} {s : State} (hj : like.Joined u v)
    (h : c.apply u.state = .ok s) : like.Holds u v [.changed c] [.changed c]
      { u with state := s } { v with state := s }
  refused {c : Change} {u v : World ι} {f : Fault} (hj : like.Joined u v)
    (h : c.apply u.state = .error f) :
    like.Halts (.fault f) u v [.raised f u.state] [.raised f v.state] u v
  raised {f : Fault} {u v : World ι} (hj : like.Joined u v) (h : like.Admits f) :
    like.Halts (.fault f) u v [.raised f u.state] [.raised f v.state] u v
  /-- A fault that is caught is raised again at once. -/
  passed {f : Fault} {u v u' v' : World ι} {d e : List (Event ι)}
    (h : like.Halts (.fault f) u v d e u' v') : like.Halts (.fault f) u v
      (d ++ [.raised f u'.state]) (e ++ [.raised f v'.state]) u' v'
  uncontinued {u v : World ι} (hj : like.Joined u v) : like.Halts (.fault noContinuation) u v
    [.raised noContinuation u.state] [.raised noContinuation v.state] u v

/-- All faults are admitted but those of handlers in a wrong position. -/
def Likeness.Lenient (like : Likeness ι) : Prop :=
  ∀ {f : Fault}, f.misplaced = false → like.Admits f

theorem Comparison.tolerant {c : Comparison ι} {stage : Stage ι} {Admits : Fault → Prop}
    (hp : (c.likeness stage Admits).Lenient)
    (changed : ∀ {a : Change} {u v : World ι} {s : State}, c.Joined u v → a.apply u.state = .ok s →
      c.Holds u v [.changed a] [.changed a] { u with state := s } { v with state := s })
    (raised : ∀ {f : Fault} {u v : World ι}, c.Joined u v → Admits f →
      c.Holds u v [.raised f u.state] [.raised f v.state] u v) :
    (c.likeness stage Admits).Tolerant := by
  have hraised : ∀ {f : Fault} {u v : World ι}, c.Joined u v → Admits f →
      (c.likeness stage Admits).Halts (.fault f) u v [.raised f u.state] [.raised f v.state]
        u v := by
    intro f u v hj h
    refine ⟨raised hj h,fun g hg => ?_⟩
    cases hg
    exact h
  constructor
  · exact changed
  · intro a u v f hj h
    exact hraised hj (hp (Change.placed_of_apply h))
  · exact hraised
  · intro f u v u' v' d e h
    exact ⟨c.trans h.1 (raised (c.joined h.1) (h.2 f rfl)),h.2⟩
  · intro u v hj
    exact hraised hj (hp rfl)

namespace Likeness.Tolerant

variable (ht : like.Tolerant)
include ht

theorem alike_raise {r : α → β → Prop} {f : Fault} (h : like.Admits f) :
    Alike like r (Exec.raise f : Exec ι α) (Exec.raise f : Exec ι β) :=
  fun _ _ hj => .halted (ht.raised hj h)

theorem alike_change (c : Change) :
    Alike like (· = ·) (Exec.change c : Exec ι Unit) (Exec.change c) := by
  intro u v hj
  have hstate := like.state_eq hj
  have hu := Exec.change_apply c u
  have hv := Exec.change_apply c v
  cases h : c.apply u.state with
  | ok s =>
    rw [h] at hu
    rw [← hstate, h] at hv
    exact Exec.alikeAt_of_eq hu hv (.ok rfl (ht.changed hj h))
  | error f =>
    rw [h] at hu
    rw [← hstate, h] at hv
    have hh := ht.refused hj h
    rw [← hstate] at hh
    exact Exec.alikeAt_of_eq hu hv (.halted hh)

/-- What is caught is gone on with alike, or raised again at once. -/
theorem attempt_alike {x y : Exec ι α} {f : Except Fault α → Exec ι β}
    {g : Except Fault α → Exec ι γ} {r : β → γ → Prop} (hx : Alike like (· = ·) x y)
    (hok : ∀ a, Alike like r (f (.ok a)) (g (.ok a)))
    (herror : ∀ fault, (f (.error fault) = Exec.raise fault ∧ g (.error fault) = Exec.raise fault) ∨
      like.catches ∧ (like.Admits fault → Alike like r (f (.error fault)) (g (.error fault)))) :
    Alike like r (x.attempt >>= f) (y.attempt >>= g) := by
  intro u v hj
  have h := hx hj
  unfold AlikeAt at h
  cases hxu : x u with
  | mk result u' d =>
  cases hyv : y v with
  | mk result' v' e =>
  rw [hxu, hyv] at h
  cases h with
  | @ok a b _ _ _ _ hab hh =>
    cases hab
    have hb := Exec.bind_of_ok (f := f) (Exec.attempt_of_ok hxu)
    have hb' := Exec.bind_of_ok (f := g) (Exec.attempt_of_ok hyv)
    exact Exec.alikeAt_of_eq hb hb' ((hok a (like.joined hh)).after hh)
  | @halted halt _ _ _ _ hh =>
    cases halt with
    | tooDeep =>
      have hb := Exec.bind_of_error (f := f) (Exec.attempt_of_tooDeep hxu)
      have hb' := Exec.bind_of_error (f := g) (Exec.attempt_of_tooDeep hyv)
      exact Exec.alikeAt_of_eq hb hb' (.halted hh)
    | fault fault =>
      have hb := Exec.bind_of_ok (f := f) (Exec.attempt_of_fault hxu)
      have hb' := Exec.bind_of_ok (f := g) (Exec.attempt_of_fault hyv)
      rcases herror fault with ⟨hf,hg⟩ | ⟨hc,hgo⟩
      · rw [hf] at hb
        rw [hg] at hb'
        exact Exec.alikeAt_of_eq hb hb' (.halted (ht.passed hh))
      · obtain ⟨hh,ha⟩ := like.caught hc hh
        exact Exec.alikeAt_of_eq hb hb' ((hgo ha (like.joined hh)).after hh)
  | first h =>
    exact Exec.alikeAt_of_eq (Exec.bind_of_error (Exec.attempt_of_tooDeep hxu)) rfl (.first h)
  | second h =>
    exact Exec.alikeAt_of_eq rfl (Exec.bind_of_error (Exec.attempt_of_tooDeep hyv)) (.second h)

end Likeness.Tolerant

/-! ## Programs -/

namespace Program

/-- The program raises faults of `S` only, as long as those that it catches are of `S`. -/
def RaisesOnly (S : Fault → Prop) : Program ι → Prop
  | done _ => True
  | raise f => S f
  | read rest => ∀ s, (rest s).RaisesOnly S
  | change _ rest => rest.RaisesOnly S
  | count rest => ∀ n, (rest n).RaisesOnly S
  | call _ rest => ∀ v, (rest v).RaisesOnly S
  | attempt _ rest => ∀ r, (∀ f, r = .error f → S f) → (rest r).RaisesOnly S

/-- The program raises faults of `S` only. One that it catches is raised again at once, or else it
may go on. -/
def Suits (S : Fault → Prop) (catches : Prop) : Program ι → Prop
  | done _ => True
  | raise f => S f
  | read rest => ∀ s, (rest s).Suits S catches
  | change _ rest => rest.Suits S catches
  | count rest => ∀ n, (rest n).Suits S catches
  | call _ rest => ∀ v, (rest v).Suits S catches
  | attempt _ rest => (∀ v, (rest (.ok v)).Suits S catches) ∧
    ∀ f, rest (.error f) = .raise f ∨ catches ∧ (S f → (rest (.error f)).Suits S catches)

theorem raisesOnly_of_forall {S : Fault → Prop} (h : ∀ f, S f) (p : Program ι) :
    p.RaisesOnly S := by
  induction p with
  | done v => trivial
  | raise f => exact h f
  | read rest ih => exact ih
  | change c rest ih => exact ih
  | count rest ih => exact ih
  | call c rest ih => exact ih
  | attempt c rest ih => exact fun r _ => ih r

theorem RaisesOnly.suits {S : Fault → Prop} {p : Program ι} (h : p.RaisesOnly S) :
    p.Suits S True := by
  induction p with
  | done v => trivial
  | raise f => exact h
  | read rest ih => exact fun s => ih s (h s)
  | change c rest ih => exact ih h
  | count rest ih => exact fun n => ih n (h n)
  | call c rest ih => exact fun v => ih v (h v)
  | attempt c rest ih =>
    refine ⟨fun v => ih _ (h _ (by simp)),fun f => Or.inr ⟨trivial,fun hf => ih _ (h _ ?_)⟩⟩
    intro g hg
    cases hg
    exact hf

end Program

def Likeness.Suits (like : Likeness ι) (p : Program ι) : Prop := p.Suits like.Admits like.catches

variable {launch launch' : Launch ι} {continuation continuation' : Option (Exec ι Unit)}

theorem Call.exec?_alike (hl : launch.Alike like launch')
    (hk : Option.Rel (Alike like (· = ·)) continuation continuation') (c : Call ι) :
    Option.Rel (Alike like (· = ·)) (c.exec? launch continuation)
      (c.exec? launch' continuation') := by
  cases c with
  | next =>
    cases hk with
    | none => exact .none
    | some h =>
      refine .some (h.bind fun _ => Exec.alike_state.bind fun hs => Exec.alike_pure ?_)
      rw [hs]
  | run q level => exact .some ((hl.run q level).bind fun _ => Exec.alike_pure rfl)
  | invoke q options level => exact .some (hl.invoke q options level)

/-- The same program is executed alike if its continuation and the pipelines it starts are. -/
theorem Program.exec_alike (ht : like.Tolerant) (hl : launch.Alike like launch')
    (hk : Option.Rel (Alike like (· = ·)) continuation continuation') {p : Program ι}
    (hp : like.Suits p) (runs : Nat) :
    Alike like (· = ·) (p.exec launch continuation runs)
      (p.exec launch' continuation' runs) := by
  have hmissing : Alike like (· = ·) (Exec.raise noContinuation : Exec ι (Value × Nat))
      (Exec.raise noContinuation) := fun _ _ hj => .halted (ht.uncontinued hj)
  induction p generalizing runs with
  | done v => exact Exec.alike_pure rfl
  | raise f => exact ht.alike_raise hp
  | read rest ih =>
    refine Exec.alike_state.bind fun {s t} hs => ?_
    cases hs
    exact ih s (hp s) runs
  | change c rest ih => exact (ht.alike_change c).bind fun _ => ih hp runs
  | count rest ih =>
    unfold Program.exec
    cases hk with
    | none => exact hmissing
    | some _ => exact ih runs (hp runs) runs
  | call c rest ih =>
    unfold Program.exec
    have hc := Call.exec?_alike hl hk c
    cases hx : c.exec? launch continuation <;> cases hy : c.exec? launch' continuation' <;>
      rw [hx, hy] at hc <;> cases hc
    · exact hmissing
    · rename_i h
      refine h.bind fun {v w} hv => ?_
      cases hv
      exact ih v (hp v) _
  | attempt c rest ih =>
    unfold Program.exec
    have hc := Call.exec?_alike hl hk c
    cases hx : c.exec? launch continuation <;> cases hy : c.exec? launch' continuation' <;>
      rw [hx, hy] at hc <;> cases hc
    · exact hmissing
    · rename_i h
      refine ht.attempt_alike h (fun v => ih _ (hp.1 v) _) fun f => ?_
      rcases hp.2 f with hraise | ⟨hcatches,hgo⟩
      · simp only [hraise]
        exact Or.inl ⟨rfl,rfl⟩
      · exact Or.inr ⟨hcatches,fun ha => ih _ (hgo ha) _⟩

theorem Program.value_alike (ht : like.Tolerant) (hl : launch.Alike like launch')
    {p : Program ι} (hp : like.Suits p) :
    Alike like (· = ·) (p.value launch) (p.value launch') := by
  refine (p.exec_alike ht hl .none hp 0).bind fun h => Exec.alike_pure ?_
  rw [h]

end Cascade
