import Cascade.Run.Event
import Cascade.Proofs.Declared.Agree
import Cascade.Proofs.Placement

/-! # The same up to options and levels

Two runs have some leeway: the levels that they are on may differ, and so may the options of the
instructions that they execute, as long as those that the run itself looks at are the same. What is
declared, told, and raised is then the same up to that, and so is what handlers do.
-/
namespace Cascade

open Json (Value)
open Declaration (image)

variable {ι : Type}

/-- The rules of the run are the same, and so are the names of the options that are not `null`. -/
structure Options.Agree (o o' : Options) : Prop where
  fail : o.fail = o'.fail
  failFast : o.failFast = o'.failFast
  contains (key : String) : o.contains key = o'.contains key

structure Leeway where
  Levels : Level → Level → Prop
  Opts : Options → Options → Prop
  deeper {m n : Level} : Levels m n → Levels (m + 1) (n + 1)
  refl (o : Options) : Opts o o
  agree {o o' : Options} : Opts o o' → o.Agree o'

theorem Options.Agree.refl (o : Options) : o.Agree o := ⟨rfl,rfl,fun _ => rfl⟩

theorem Options.Agree.of_eq {o o' : Options} (h : o = o') : o.Agree o' := h ▸ .refl o

theorem Leeway.deeper_of_eq {m n : Level} (h : m = n) : m + 1 = n + 1 := congrArg (· + 1) h

theorem Options.Agree.lacking? {o o' : Options} (h : o.Agree o') (required : List Key) :
    o.lacking? required = o'.lacking? required := by
  unfold Options.lacking?
  simp only [h.contains]

/-! ## Instructions, faults and events -/

/-- The same instructions, with options that are related. -/
inductive Instruction.UpTo (R : Options → Options → Prop) :
    List (Instruction ι) → List (Instruction ι) → Prop where
  | nil : UpTo R [] []
  | step {h : Handler ι} {o o' : Options} {is is' : List (Instruction ι)} (ho : R o o')
    (hr : UpTo R is is') : UpTo R (.step h o :: is) (.step h o' :: is')
  | failure {h : Handler ι} {o o' : Options} {is is' : List (Instruction ι)} (ho : R o o')
    (hr : UpTo R is is') : UpTo R (.failure h o :: is) (.failure h o' :: is')
  | wrap {h : Handler ι} {o o' : Options} {children children' is is' : List (Instruction ι)}
    (ho : R o o') (hc : UpTo R children children') (hr : UpTo R is is') :
    UpTo R (.wrap h o children :: is) (.wrap h o' children' :: is')
  | gate {g : Gate} {is is' : List (Instruction ι)} (hr : UpTo R is is') :
    UpTo R (.gate g :: is) (.gate g :: is')

/-- The same fault; the options that it shows are related. -/
inductive Fault.UpTo (R : Options → Options → Prop) : Fault → Fault → Prop where
  | refl (f : Fault) : UpTo R f f
  | missingOption (key : String) {o o' : Options} (h : R o o') :
    UpTo R (.missingOption key o.text) (.missingOption key o'.text)

structure Trace.Record.UpTo (l : Leeway) (r r' : Trace.Record) : Prop where
  message : r.message = r'.message
  level : l.Levels r.level r'.level
  kind : r.kind = r'.kind
  handler : r.handler = r'.handler
  options : ∃ o o', l.Opts o o' ∧ r.options = o.text ∧ r'.options = o'.text
  state : r.state = r'.state

inductive Event.UpTo (l : Leeway) : Event ι → Event ι → Prop where
  | declaring (q : ι) : UpTo l (.declaring q) (.declaring q)
  | probed (p : Probe) : UpTo l (.probed p) (.probed p)
  | compiled (q : ι) : UpTo l (.compiled q) (.compiled q)
  | started (q : ι) {m n : Level} (h : l.Levels m n) : UpTo l (.started q m) (.started q n)
  | finished (q : ι) {m n : Level} (h : l.Levels m n) (success : Bool) :
    UpTo l (.finished q m success) (.finished q n success)
  | cascading (q : ι) {m n : Level} (h : l.Levels m n) : UpTo l (.cascading q m) (.cascading q n)
  | executing (q : ι) {m n : Level} (h : l.Levels m n) {i i' : Instruction ι}
    (hi : Instruction.UpTo l.Opts [i] [i']) (before : State) :
    UpTo l (.executing q m i before) (.executing q n i' before)
  | logged (logger : Trace.Logger) {r r' : Trace.Record} (h : r.UpTo l r') :
    UpTo l (.logged logger r) (.logged logger r')
  | returned (q : ι) {m n : Level} (h : l.Levels m n) {i i' : Instruction ι}
    (hi : Instruction.UpTo l.Opts [i] [i']) (result : Value) :
    UpTo l (.returned q m i result) (.returned q n i' result)
  | entered (q : ι) {o o' : Options} (h : l.Opts o o') : UpTo l (.entered q o) (.entered q o')
  | changed (c : Change) : UpTo l (.changed c) (.changed c)
  | raised {f f' : Fault} (h : f.UpTo l.Opts f') (s : State) : UpTo l (.raised f s) (.raised f' s)

namespace Instruction.UpTo

variable {R : Options → Options → Prop} {is is' js js' : List (Instruction ι)}

theorem append (h : UpTo R is is') (hj : UpTo R js js') : UpTo R (is ++ js) (is' ++ js') := by
  induction h with
  | nil => exact hj
  | step ho _ ih => exact .step ho ih
  | failure ho _ ih => exact .failure ho ih
  | wrap ho hc _ _ ih => exact .wrap ho hc ih
  | gate _ ih => exact .gate ih

theorem refl_of (h : ∀ i ∈ is, UpTo R [i] [i]) : UpTo R is is := by
  induction is with
  | nil => exact .nil
  | cons i rest ih =>
    have hrest := ih fun j hj => h j (List.mem_cons_of_mem i hj)
    exact (h i List.mem_cons_self).append hrest

theorem refl_one (hR : ∀ o, R o o) (i : Instruction ι) : UpTo R [i] [i] := by
  induction i using Instruction.induction with
  | step h o => exact .step (hR o) .nil
  | failure h o => exact .failure (hR o) .nil
  | wrap h o children ih => exact .wrap (hR o) (refl_of ih) .nil
  | gate g => exact .gate .nil

theorem refl (hR : ∀ o, R o o) (is : List (Instruction ι)) : UpTo R is is :=
  refl_of fun i _ => refl_one hR i

theorem eq (hR : ∀ {o o'}, R o o' → o = o') (h : UpTo R is is') : is = is' := by
  induction h with
  | nil => rfl
  | step ho _ ih | failure ho _ ih => rw [hR ho, ih]
  | wrap ho _ _ hc ih => rw [hR ho, hc, ih]
  | gate _ ih => rw [ih]

end Instruction.UpTo

theorem Fault.UpTo.eq {R : Options → Options → Prop} (hR : ∀ {o o'}, R o o' → o = o')
    {f f' : Fault} (h : f.UpTo R f') : f = f' := by
  cases h with
  | refl => rfl
  | missingOption key h => rw [hR h]

/-- The event, told that many levels deeper. -/
def Event.deepen (k : Level) : Event ι → Event ι
  | started q level => started q (level + k)
  | finished q level success => finished q (level + k) success
  | cascading q level => cascading q (level + k)
  | executing q level i before => executing q (level + k) i before
  | logged logger r => logged logger { r with level := r.level + k }
  | returned q level i result => returned q (level + k) i result
  | e => e

@[simp] theorem Event.deepen_zero (e : Event ι) : e.deepen 0 = e := by
  cases e <;> simp only [deepen, UInt64.add_zero]

/-- Where options are the same, and levels lie a fixed distance apart, so are events. -/
theorem Event.UpTo.deepen_eq {l : Leeway} (ho : ∀ {o o'}, l.Opts o o' → o = o') {j k : Level}
    (hl : ∀ {m n}, l.Levels m n → m + j = n + k) {e e' : Event ι} (h : e.UpTo l e') :
    e.deepen j = e'.deepen k := by
  cases h with
  | declaring _ | probed _ | compiled _ | changed _ => rfl
  | started _ h | finished _ h _ | cascading _ h => simp only [deepen, hl h]
  | executing _ h hi _ | returned _ h hi _ =>
    cases hi.eq ho
    simp only [deepen, hl h]
  | @logged _ r r' h =>
    obtain ⟨o,o',hoo,hr,hr'⟩ := h.options
    obtain ⟨message,level,kind,handler,options,state⟩ := r
    obtain ⟨message',level',kind',handler',options',state'⟩ := r'
    cases h.message
    cases h.kind
    cases h.handler
    cases h.state
    cases ho hoo
    cases hr
    cases hr'
    simp only [deepen, hl h.level]
  | entered _ h => simp only [deepen, ho h]
  | raised h _ => simp only [deepen, h.eq ho]

/-! ## Declarations -/

/-- The same declarations up to options that are related. -/
inductive Declaration.UpTo (R : Options → Options → Prop) :
    List (Declaration ι) → List (Declaration ι) → Prop where
  | nil : UpTo R [] []
  | same (d : Declaration ι) {ds ds' : List (Declaration ι)} (hr : UpTo R ds ds') :
    UpTo R (d :: ds) (d :: ds')
  | step (h : Handler ι) {o o' : Options} {ds ds' : List (Declaration ι)} (ho : R o o')
    (hr : UpTo R ds ds') : UpTo R (.step h o :: ds) (.step h o' :: ds')
  | failure (h : Handler ι) {o o' : Options} {ds ds' : List (Declaration ι)} (ho : R o o')
    (hr : UpTo R ds ds') : UpTo R (.failure h o :: ds) (.failure h o' :: ds')
  | wrap (h : Handler ι) {o o' : Options} {body body' ds ds' : List (Declaration ι)}
    (ho : R o o') (hb : UpTo R body body') (hr : UpTo R ds ds') :
    UpTo R (.wrap h o body :: ds) (.wrap h o' body' :: ds')

namespace Declaration.UpTo

variable {R : Options → Options → Prop} {ds ds' : List (Declaration ι)}

theorem refl (ds : List (Declaration ι)) : UpTo R ds ds := by
  induction ds with
  | nil => exact .nil
  | cons d rest ih => exact .same d ih

theorem imageOf (hR : ∀ o, R o o) (h : UpTo R ds ds') :
    Instruction.UpTo R (Declaration.imageOf ds) (Declaration.imageOf ds') := by
  induction h with
  | nil => exact .nil
  | same d _ ih => exact (Instruction.UpTo.refl hR _).append ih
  | step h ho _ ih => exact .step ho ih
  | failure h ho _ ih => exact .failure ho ih
  | wrap h ho _ _ hb ih =>
    simp only [Declaration.imageOf, image]
    exact .wrap ho hb ih

/-- Options settle nothing and make no flaw. -/
theorem agree {sig : Signature ι} (h : UpTo R ds ds') : Agree sig ds ds' := by
  induction h with
  | nil => exact .refl []
  | same d _ ih => exact .cons (.refl [d]) ih
  | step h _ _ ih => exact .cons ⟨rfl,fun _ => rfl⟩ ih
  | failure h _ _ ih => exact .cons ⟨rfl,fun _ => rfl⟩ ih
  | @wrap h o o' body body' _ _ _ _ _ hb ih =>
    have hself : Agree sig [.wrap h o body] [.wrap h o' body] := ⟨rfl,fun _ => rfl⟩
    have hbody : Agree sig [.wrap h o' body] [.wrap h o' body'] := hb.wrap h o'
    exact .cons (hself.trans hbody) ih

theorem probesOf (h : UpTo R ds ds') (opened roots : Nat) :
    Declaration.probesOf opened roots ds = Declaration.probesOf opened roots ds' := by
  induction h generalizing opened roots with
  | nil => rfl
  | same d _ ih => rw [Declaration.probesOf, Declaration.probesOf, ih]
  | step h _ _ ih =>
    rw [Declaration.probesOf, Declaration.probesOf, ih]
    rfl
  | failure h _ _ ih =>
    rw [Declaration.probesOf, Declaration.probesOf, ih]
    rfl
  | wrap h _ _ _ hb ih =>
    rw [Declaration.probesOf, Declaration.probesOf, ih, probes, probes, hb]
    simp only [image, List.length_singleton]

end Declaration.UpTo

/-! ## Programs -/

/-- The same call, of a pipeline that may be started. -/
inductive Call.UpTo (l : Leeway) (starts : ι → Prop) : Call ι → Call ι → Prop where
  | next : UpTo l starts .next .next
  | run {q : ι} {m n : Level} (hq : starts q) (h : l.Levels m n) :
    UpTo l starts (.run q m) (.run q n)
  | invoke {q : ι} {o o' : Options} {m n : Level} (hq : starts q) (ho : l.Opts o o')
    (h : l.Levels m n) : UpTo l starts (.invoke q o m) (.invoke q o' n)

/-- What is caught: the same value, or the same fault. -/
inductive Leeway.Caught (l : Leeway) : Except Fault Value → Except Fault Value → Prop where
  | ok (v : Value) : Caught l (.ok v) (.ok v)
  | error {f f' : Fault} (h : f.UpTo l.Opts f') : Caught l (.error f) (.error f')

/-- Both programs do the same, whatever they read and whatever the calls give them. -/
inductive Program.UpTo (l : Leeway) (starts : ι → Prop) : Program ι → Program ι → Prop where
  | done (v : Value) : UpTo l starts (.done v) (.done v)
  | raise {f f' : Fault} (h : f.UpTo l.Opts f') : UpTo l starts (.raise f) (.raise f')
  | read {rest rest' : State → Program ι} (h : ∀ s, UpTo l starts (rest s) (rest' s)) :
    UpTo l starts (.read rest) (.read rest')
  | change (c : Change) {rest rest' : Program ι} (h : UpTo l starts rest rest') :
    UpTo l starts (.change c rest) (.change c rest')
  | count {rest rest' : Nat → Program ι} (h : ∀ n, UpTo l starts (rest n) (rest' n)) :
    UpTo l starts (.count rest) (.count rest')
  | call {c c' : Call ι} {rest rest' : Value → Program ι} (hc : c.UpTo l starts c')
    (h : ∀ v, UpTo l starts (rest v) (rest' v)) :
    UpTo l starts (.call c rest) (.call c' rest')
  | attempt {c c' : Call ι} {rest rest' : Except Fault Value → Program ι}
    (hc : c.UpTo l starts c') (h : ∀ r r', l.Caught r r' → UpTo l starts (rest r) (rest' r')) :
    UpTo l starts (.attempt c rest) (.attempt c' rest')

/-- It does the same, whichever of two related options it is given. -/
def Callable.Suits (l : Leeway) (starts : ι → Prop) (c : Callable ι) : Prop :=
  ∀ o o', l.Opts o o' → (c.program o).UpTo l starts (c.program o')

def Handler.Suits (l : Leeway) (starts : ι → Prop) : Handler ι → Prop
  | function p | around p => p.UpTo l starts p
  | method m => m.callable.Suits l starts
  | pipeline q => starts q
  | noop | named _ => True

section

variable {l : Leeway} {S T : ι → Prop}

theorem Call.UpTo.mono (hST : ∀ q, S q → T q) {c c' : Call ι} (h : c.UpTo l S c') :
    c.UpTo l T c' := by
  cases h with
  | next => exact .next
  | run hq h => exact .run (hST _ hq) h
  | invoke hq ho h => exact .invoke (hST _ hq) ho h

theorem Program.UpTo.mono (hST : ∀ q, S q → T q) {p p' : Program ι} (h : p.UpTo l S p') :
    p.UpTo l T p' := by
  induction h with
  | done v => exact .done v
  | raise h => exact .raise h
  | read _ ih => exact .read ih
  | change c _ ih => exact .change c ih
  | count _ ih => exact .count ih
  | call hc _ ih => exact .call (hc.mono hST) ih
  | attempt hc _ ih => exact .attempt (hc.mono hST) ih

end

/-! ## Handlers that start only some pipelines -/

def Call.StartsOnly (S : ι → Prop) : Call ι → Prop
  | next => True
  | run q _ | invoke q _ _ => S q

/-- All pipelines that the program starts by itself, to run or to invoke them, are of `S`. -/
def Program.StartsOnly (S : ι → Prop) : Program ι → Prop
  | done _ | raise _ => True
  | read rest => ∀ s, (rest s).StartsOnly S
  | change _ rest => rest.StartsOnly S
  | count rest => ∀ n, (rest n).StartsOnly S
  | call c rest => c.StartsOnly S ∧ ∀ v, (rest v).StartsOnly S
  | attempt c rest => c.StartsOnly S ∧ ∀ r, (rest r).StartsOnly S

section

variable {S T : ι → Prop}

theorem Call.startsOnly_of_forall (hS : ∀ q, S q) (c : Call ι) : c.StartsOnly S := by
  cases c with
  | next => trivial
  | run q _ | invoke q _ _ => exact hS q

theorem Program.startsOnly_of_forall (hS : ∀ q, S q) (p : Program ι) : p.StartsOnly S := by
  induction p with
  | done _ | raise _ => trivial
  | read _ ih => exact ih
  | change _ _ ih => exact ih
  | count _ ih => exact ih
  | call c _ ih => exact ⟨c.startsOnly_of_forall hS,ih⟩
  | attempt c _ ih => exact ⟨c.startsOnly_of_forall hS,ih⟩

theorem Call.StartsOnly.mono (hST : ∀ q, S q → T q) {c : Call ι} (h : c.StartsOnly S) :
    c.StartsOnly T := by
  cases c with
  | next => trivial
  | run q _ | invoke q _ _ => exact hST q h

theorem Program.StartsOnly.mono (hST : ∀ q, S q → T q) {p : Program ι} (h : p.StartsOnly S) :
    p.StartsOnly T := by
  induction p with
  | done _ | raise _ => trivial
  | read _ ih => exact fun s => ih s (h s)
  | change _ _ ih => exact ih h
  | count _ ih => exact fun n => ih n (h n)
  | call c _ ih => exact ⟨h.1.mono hST,fun v => ih v (h.2 v)⟩
  | attempt c _ ih => exact ⟨h.1.mono hST,fun r => ih r (h.2 r)⟩

variable {l : Leeway} (hS : ∀ q, S q → T q ∧ ∀ n, l.Levels n n)
include hS

theorem Call.StartsOnly.upTo {c : Call ι} (h : c.StartsOnly S) : c.UpTo l T c := by
  cases c with
  | next => exact .next
  | run q n => exact .run (hS q h).1 ((hS q h).2 n)
  | invoke q o n => exact .invoke (hS q h).1 (l.refl o) ((hS q h).2 n)

variable (hl : ∀ {o o'}, l.Opts o o' → o = o')
include hl

/-- If options are the same, a program does the same as itself on levels that may be its own. -/
theorem Program.StartsOnly.upTo {p : Program ι} (h : p.StartsOnly S) : p.UpTo l T p := by
  induction p with
  | done v => exact .done v
  | raise f => exact .raise (.refl f)
  | read _ ih => exact .read fun s => ih s (h s)
  | change c _ ih => exact .change c (ih h)
  | count _ ih => exact .count fun n => ih n (h n)
  | call c _ ih => exact .call (h.1.upTo hS) fun v => ih v (h.2 v)
  | attempt c _ ih =>
    refine .attempt (h.1.upTo hS) fun r r' hr => ?_
    cases hr with
    | ok v => exact ih _ (h.2 _)
    | error hf =>
      cases hf.eq hl
      exact ih _ (h.2 _)

/-- So does a handler, if what it stands for may be started. -/
theorem Handler.suits_of_all {h : Handler ι} (hp : h.All (Program.StartsOnly S))
    (hq : ∀ q, h = .pipeline q → T q) : h.Suits l T := by
  cases h with
  | function p | around p => exact Program.StartsOnly.upTo hS hl hp
  | method m =>
    intro o o' ho
    cases hl ho
    exact (hp o).upTo hS hl
  | pipeline q => exact hq q rfl
  | noop | named _ => trivial

end

end Cascade
