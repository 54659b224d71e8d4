import Cascade.Proofs.Round
import Cascade.Proofs.Likeness.Level

/-! # Runs that are alike

A likeness governs two families that differ in their declarations at most, if it is kept by the
single acts of a run: a change, a fault, an instruction announced, a result given back, a note. Then
what these acts make up is alike: instructions, levels, rounds, and runs whose trees have the same
instructions. Instructions are announced only where the failed mark fits them, so the likeness has
to be kept only there.
-/
namespace Cascade

open Json (Value)
open Exec (Alike AlikeAt)

variable {ι α : Type} {like : Likeness ι}

/-- Events that tell what goes on and show no state. -/
def Event.isNote : Event ι → Bool
  | declaring _ | probed _ | compiled _ | started .. | cascading .. | entered .. => true
  | _ => false

/-- The same instruction, up to the children of a wrap. -/
inductive Instruction.Mates : Instruction ι → Instruction ι → Prop where
  | refl (i : Instruction ι) : Mates i i
  | wrap (h : Handler ι) (o : Options) (children children' : List (Instruction ι)) :
    Mates (.wrap h o children) (.wrap h o children')

/-! ## Handlers -/

def Callable.RaisesOnly (S : Fault → Prop) (c : Callable ι) : Prop :=
  ∀ o, (c.program o).RaisesOnly S

def Handler.RaisesOnly (S : Fault → Prop) : Handler ι → Prop
  | function p | around p => p.RaisesOnly S
  | method m => m.callable.RaisesOnly S
  | noop | pipeline _ | named _ => True

/-- Whatever the options are, the program of the handler is one of `P`, if it has any. -/
def Handler.All (P : Program ι → Prop) : Handler ι → Prop
  | function p | around p => P p
  | method m => ∀ o, P (m.callable.program o)
  | noop | pipeline _ | named _ => True

theorem Handler.All.imp {P Q : Program ι → Prop} (hPQ : ∀ p, P p → Q p) {h : Handler ι}
    (hh : h.All P) : h.All Q := by
  cases h with
  | function p => exact hPQ p hh
  | around p => exact hPQ p hh
  | method m => exact fun o => hPQ _ (hh o)
  | _ => trivial

theorem Handler.all_of_forall {P : Program ι → Prop} (hP : ∀ p, P p) (h : Handler ι) :
    h.All P := by
  cases h with
  | function p | around p => exact hP p
  | method m => exact fun o => hP _
  | _ => trivial

theorem Handler.raisesOnly_iff {S : Fault → Prop} {h : Handler ι} :
    h.RaisesOnly S ↔ h.All (Program.RaisesOnly S) := by
  cases h <;> exact Iff.rfl

/-- Where all faults are admitted, and may be caught, any program suits. -/
theorem Program.suits_of_forall {S : Fault → Prop} (hS : ∀ f, S f) (p : Program ι) :
    p.Suits S True := (p.raisesOnly_of_forall hS).suits

theorem Handler.suits_of_forall {S : Fault → Prop} (hS : ∀ f, S f) (h : Handler ι) :
    h.All fun p => p.Suits S True := h.all_of_forall (Program.suits_of_forall hS)

/-! ## Single acts -/

structure Likeness.GovernsLevels (like : Likeness ι) (family family' : Family ι) : Prop extends
    like.Tolerant where
  signature : family.signature = family'.signature
  entry (q : ι) : (family q).entry = (family' q).entry
  around (q : ι) : (family q).around = (family' q).around
  entry_suits {q : ι} {c : Callable ι} (h : (family q).entry = some c) (o : Options) :
    like.Suits (c.program o)
  around_suits {q : ι} {c : Callable ι} (h : (family q).around = some c) (o : Options) :
    like.Suits (c.program o)
  mates {site site' : Site ι} {i i' : Instruction ι} (hi : like.Runs site site' i i') : i.Mates i'
  handler_suits {site site' : Site ι} {i i' : Instruction ι} (hi : like.Runs site site' i i') :
    i.handler.All like.Suits
  /-- A handler fits its position, unless any fault is admitted. -/
  fits {site site' : Site ι} {i i' : Instruction ι} (hi : like.Runs site site' i i') :
    i.Fits family.signature ∨ ∀ f, like.Admits f
  container {site site' : Site ι} (hs : like.Sites site site') {i i' : Instruction ι}
    (hi : like.Runs site site' i i') {entry : String} (h : i.handler = .named entry) :
    site.settings.container = site'.settings.container
  announced {site site' : Site ι} (hs : like.Sites site site') {i i' : Instruction ι}
    (hi : like.Runs site site' i i') {u v : World ι} (hj : like.Joined u v)
    (hf : u.state.failed = i.isFailure) :
    AlikeAt like (· = ·) (site.announce family i) (site'.announce family' i') u v
  returned {site site' : Site ι} (hs : like.Sites site site') {i i' : Instruction ι}
    (hi : like.Runs site site' i i') {u v : World ι} (hj : like.Joined u v) (result : Value) :
    like.Holds u v [.returned site.pipeline site.level i result]
      [.returned site'.pipeline site'.level i' result]
      { u with state := i.verdict result u.state } { v with state := i.verdict result v.state }
  cascading {site site' : Site ι} (hs : like.Sites site site') {u v : World ι}
    (hj : like.Joined u v) : like.Holds u v [.cascading site.pipeline site.level]
      [.cascading site'.pipeline site'.level] u v
  entered {u v : World ι} (hj : like.Joined u v) (q : ι) (o : Options) :
    like.Holds u v [.entered q o] [.entered q o] u v

/-- The likeness is kept as well when it is told that a run is finished. -/
structure Likeness.Governs (like : Likeness ι) (family family' : Family ι) : Prop extends
    like.GovernsLevels family family' where
  finished {u v : World ι} (hj : like.Joined u v) (q : ι) (level : Level) :
    like.Holds u v [.finished q level u.state.successful]
      [.finished q level v.state.successful] u v

variable {family family' : Family ι} {launch launch' : Launch ι} {site site' : Site ι}

theorem Exec.alikeAt_emit {u v : World ι} {d e : Event ι} (h : like.Holds u v [d] [e] u v) :
    AlikeAt like (· = ·) (Exec.emit d) (Exec.emit e) u v :=
  alikeAt_of_eq (emit_apply d u) (emit_apply e v) (.ok rfl h)

namespace Likeness.Tolerant

variable (ht : like.Tolerant)
include ht

theorem check_alike (hp : like.Lenient) (g : Gate) :
    Alike like (· = ·) (g.check : Exec ι Unit) g.check := by
  refine Exec.alike_state.bind fun {s t} hs => ?_
  cases hs
  cases g.missing? s with
  | none => exact Exec.alike_pure rfl
  | some k => exact ht.alike_raise (hp rfl)

theorem resolve_alike (hp : like.Lenient)
    (hs : site.settings.container = site'.settings.container) (entry : String) :
    Alike like (· = ·) (site.resolve entry) (site'.resolve entry) := by
  unfold Site.resolve
  rw [← hs]
  cases site.settings.container with
  | none => exact ht.alike_raise (hp rfl)
  | some registry =>
    cases h : registry.resolve? entry with
    | none =>
      simp only [h]
      exact ht.alike_raise (hp rfl)
    | some registration =>
      simp only [h]
      refine Exec.alike_state.bind fun {s t} hs => ?_
      cases hs
      exact Exec.alike_pure rfl

/-- Where a handler does not fit its position, any fault is admitted. -/
theorem misplaced_alike {fits : Bool} (hf : fits = true ∨ ∀ f, like.Admits f)
    (h : fits = false) (f : Fault) :
    Alike like (· = ·) (Exec.raise f : Exec ι α) (Exec.raise f) := by
  refine ht.alike_raise ?_
  rcases hf with hf | hf
  · rw [hf] at h
    cases h
  · exact hf f

end Likeness.Tolerant

/-! ## Instructions -/

namespace Likeness.GovernsLevels

variable (hg : like.GovernsLevels family family')
include hg

theorem conclude_alike (hs : like.Sites site site') {i i' : Instruction ι}
    (hi : like.Runs site site' i i') (result : Value) :
    Alike like (· = ·) (site.conclude i result) (site'.conclude i' result) := by
  intro u v hj
  have hv := site'.conclude_apply i' result v
  have hverdict : i'.verdict = i.verdict := by
    cases hg.mates hi <;> rfl
  rw [hverdict] at hv
  exact Exec.alikeAt_of_eq (site.conclude_apply i result u) hv
    (.ok rfl (hg.returned hs hi hj result))

variable (hl : launch.Alike like launch')
include hl

theorem dispatch_alike (hs : like.Sites site site') (role : Role) (o : Options) {h : Handler ι}
    (hr : h.All like.Suits) (hf : h.canStep = true ∨ ∀ f, like.Admits f)
    (hn : ∀ entry, h = .named entry →
      Alike like (· = ·) (site.resolve entry) (site'.resolve entry)) :
    Alike like (· = ·) (site.dispatch family launch role o h)
      (site'.dispatch family' launch' role o h) := by
  unfold Site.dispatch
  rw [← hg.signature, ← like.level_eq hs]
  cases h with
  | noop => exact hg.misplaced_alike hf rfl _
  | around p => exact hg.misplaced_alike hf rfl _
  | function p => exact p.value_alike hg.toTolerant hl hr
  | pipeline q => exact hl.invoke q o _
  | named entry =>
    refine (hn entry rfl).bind fun {p q} hq => ?_
    cases hq
    exact hl.invoke p o _
  | method m =>
    cases hm : m.around with
    | true =>
      simp only [hm]
      exact hg.misplaced_alike hf (by simp [Handler.canStep, hm]) _
    | false =>
      simp only [hm]
      exact Program.value_alike hg.toTolerant hl (hr o)

/-- What a wrap does is up to its program, given that its children are executed alike. -/
theorem wrap_alike {children children' : Exec ι Unit} (hc : Alike like (· = ·) children children')
    (o : Options) {h : Handler ι} (hr : h.All like.Suits)
    (hf : h.canWrap family.signature = true ∨ ∀ f, like.Admits f) :
    Alike like (· = ·) (h.wrap family launch o children) (h.wrap family' launch' o children') := by
  have hk : Option.Rel (Alike like (· = ·)) (some children) (some children') := .some hc
  unfold Handler.wrap
  rw [← hg.signature]
  cases h with
  | noop => exact hg.misplaced_alike hf rfl _
  | function p => exact hg.misplaced_alike hf rfl _
  | named entry => exact hg.misplaced_alike hf rfl _
  | around p => exact p.exec_alike hg.toTolerant hl hk hr 0
  | pipeline q =>
    have hname : (family q).name = (family' q).name :=
      congrFun (congrArg Signature.name hg.signature) q
    simp only [Family.invokeAround]
    rw [← hg.around, ← hname]
    cases hq : (family q).around with
    | none =>
      refine hg.misplaced_alike hf ?_ _
      simp [Handler.canWrap, Family.signature, hq]
    | some c => exact Program.exec_alike hg.toTolerant hl hk (hg.around_suits hq o) 0
  | method m =>
    cases hm : m.around with
    | true =>
      simp only [hm]
      exact Program.exec_alike hg.toTolerant hl hk (hr o) 0
    | false =>
      simp only [hm]
      exact hg.misplaced_alike hf hm _

theorem perform_leaf_alikeAt (hs : like.Sites site site') {i : Instruction ι}
    (hi : like.Runs site site' i i) (hleaf : i.isStep = true ∨ i.isFailure = true)
    (hn : ∀ entry, i.handler = .named entry →
      Alike like (· = ·) (site.resolve entry) (site'.resolve entry))
    {u v : World ι} (hj : like.Joined u v) (hf : u.state.failed = i.isFailure) :
    AlikeAt like (· = ·) (site.perform family launch i) (site'.perform family' launch' i) u v := by
  refine (hg.announced hs hi hj hf).bind fun {_ _ u' v' _ _} _ hh => ?_
  have hstep : i.handler.canStep = true ∨ ∀ f, like.Admits f :=
    (hg.fits hi).imp_left fun hfit => hfit.leaf hleaf
  have hdispatch := hg.dispatch_alike hl hs i.role i.options (hg.handler_suits hi) hstep hn
  rw [site.act_leaf family launch hleaf, site'.act_leaf family' launch' hleaf]
  refine (hdispatch.bind fun {a b} hab => ?_) (like.joined hh)
  cases hab
  exact hg.conclude_alike hs hi a

end Likeness.GovernsLevels

/-- A wrap with these children, which are executed in this way. -/
def Site.surround (family : Family ι) (launch : Launch ι) (site : Site ι) (h : Handler ι)
    (o : Options) (children : List (Instruction ι)) (traversal : Exec ι Unit) : Exec ι Unit := do
  site.announce family (.wrap h o children)
  let (result, _) ← h.wrap family launch o traversal
  Exec.emit (.returned site.pipeline site.level (.wrap h o children) result)

theorem Site.perform_wrap (h : Handler ι) (o : Options) (children : List (Instruction ι)) :
    site.perform family launch (.wrap h o children) = site.surround family launch h o children
      (site.deeper.traverse family launch [] children) := rfl

namespace Likeness.GovernsLevels

variable (hg : like.GovernsLevels family family') (hl : launch.Alike like launch')
include hg hl

theorem surround_alikeAt (hs : like.Sites site site') {h : Handler ι} {o : Options}
    {children children' : List (Instruction ι)}
    (hi : like.Runs site site' (.wrap h o children) (.wrap h o children'))
    {traversal traversal' : Exec ι Unit} (hc : Alike like (· = ·) traversal traversal')
    {u v : World ι} (hj : like.Joined u v) (hf : u.state.failed = false) :
    AlikeAt like (· = ·) (site.surround family launch h o children traversal)
      (site'.surround family' launch' h o children' traversal') u v := by
  refine (hg.announced hs hi hj hf).bind fun {_ _ u' v' _ _} _ hh => ?_
  have hwrap : h.canWrap family.signature = true ∨ ∀ f, like.Admits f :=
    (hg.fits hi).imp_left fun hfit => hfit.wrap rfl
  refine ((hg.wrap_alike hl hc o (hg.handler_suits hi) hwrap).bind fun {a b} hab => ?_)
    (like.joined hh)
  cases hab
  exact hg.conclude_alike hs hi a.1

/-- An instruction whose children are executed alike is so itself, where its kind fits. -/
theorem perform_alikeAt (hp : like.Lenient) (hs : like.Sites site site') {i : Instruction ι}
    (hi : like.Runs site site' i i)
    (hc : Alike like (· = ·) (site.deeper.traverse family launch [] i.children)
      (site'.deeper.traverse family' launch' [] i.children))
    {u v : World ι} (hj : like.Joined u v) (hf : u.state.failed = i.isFailure) :
    AlikeAt like (· = ·) (site.perform family launch i) (site'.perform family' launch' i) u v := by
  have hn : ∀ entry, i.handler = .named entry →
      Alike like (· = ·) (site.resolve entry) (site'.resolve entry) :=
    fun entry h => hg.resolve_alike hp (hg.container hs hi h) entry
  cases i with
  | step h o => exact hg.perform_leaf_alikeAt hl hs hi (Or.inl rfl) hn hj hf
  | failure h o => exact hg.perform_leaf_alikeAt hl hs hi (Or.inr rfl) hn hj hf
  | wrap h o children =>
    rw [Site.perform_wrap, Site.perform_wrap]
    exact hg.surround_alikeAt hl hs hi hc hj hf
  | gate g =>
    refine (hg.announced hs hi hj hf).bind fun _ hh => ?_
    exact hg.check_alike hp g (like.joined hh)

theorem enact_alikeAt (hp : like.Lenient) (hs : like.Sites site site') {i : Instruction ι}
    (hi : like.Runs site site' i i)
    (hc : Alike like (· = ·) (site.deeper.traverse family launch [] i.children)
      (site'.deeper.traverse family' launch' [] i.children))
    (required : List Key) {u v : World ι} (hj : like.Joined u v)
    (hf : u.state.failed = i.isFailure) :
    AlikeAt like (· = ·) (site.enact family launch required i)
      (site'.enact family' launch' required i) u v := by
  rw [Site.enact_eq, Site.enact_eq]
  cases i.lacking? required with
  | some k => exact hg.alike_raise (hp rfl) hj
  | none => exact hg.perform_alikeAt hl hp hs hi hc hj hf

/-! ## Levels and runs -/

theorem traverse_alike (hp : like.Lenient) (hs : like.Sites site site')
    {is : List (Instruction ι)} (hi : ∀ i ∈ Instruction.nodesOf is, like.Runs site site' i i)
    (required : List Key) : Alike like (· = ·) (site.traverse family launch required is)
      (site'.traverse family' launch' required is) := by
  rw [Site.traverse_eq_walk, Site.traverse_eq_walk]
  refine like.walk_alike (fun s => s.enact family launch) (fun s => s.enact family' launch')
    (fun hs _ _ hj => hg.cascading hs hj) ?_ hs hi required
  intro s s' i hs hi hc keys u v hj hf
  rw [← Site.traverse_eq_walk, ← Site.traverse_eq_walk] at hc
  exact hg.enact_alikeAt hl hp hs hi hc keys hj hf

theorem enter_alike {q : ι} {c : Callable ι} (hc : ∀ o, like.Suits (c.program o)) (o : Options) :
    Alike like (· = ·) (enter launch q c o) (enter launch' q c o) := by
  intro u v hj
  refine (Exec.alikeAt_emit (hg.entered hj q o)).bind fun _ hh => ?_
  exact Program.value_alike hg.toTolerant hl (hc o) (like.joined hh)

theorem body_alike (q : ι) {traversal traversal' : Exec ι Unit}
    (ht : Alike like (· = ·) traversal traversal') :
    Alike like (· = ·) (family.body launch q traversal)
      (family'.body launch' q traversal') := by
  unfold Family.body
  rw [← hg.entry]
  refine ht.bind fun _ => ?_
  cases hq : (family q).entry with
  | none => exact Exec.alike_pure rfl
  | some c =>
    refine Exec.alike_state.bind fun {s t} hs => ?_
    cases hs
    exact (hg.enter_alike hl (hg.entry_suits hq) _).bind fun _ => Exec.alike_pure rfl

theorem invokeBy_alike {run run' : ι → Level → Exec ι Unit}
    (hr : ∀ q level, Alike like (· = ·) (run q level) (run' q level)) (q : ι) (o : Options)
    (level : Level) : Alike like (· = ·) (family.invokeBy launch run q o level)
      (family'.invokeBy launch' run' q o level) := by
  unfold Family.invokeBy
  rw [← hg.entry]
  cases hq : (family q).entry with
  | some c => exact hg.enter_alike hl (hg.entry_suits hq) o
  | none =>
    refine (hr q level).bind fun _ => Exec.alike_state.bind fun {s t} hs => ?_
    cases hs
    exact Exec.alike_pure rfl

omit hl in
theorem launchBy_alike {runs runs' : Launch ι → ι → Level → Exec ι Unit}
    (hr : ∀ {launch launch' : Launch ι}, launch.Alike like launch' → ∀ q level,
      Alike like (· = ·) (runs launch q level) (runs' launch' q level)) (depth : Nat) :
    (family.launchBy runs depth).Alike like (family'.launchBy runs' depth) := by
  induction depth with
  | zero => exact ⟨fun _ _ => Exec.alike_tooDeep,fun _ _ _ => Exec.alike_tooDeep⟩
  | succ depth ih => exact ⟨hr ih,hg.invokeBy_alike ih (hr ih)⟩

end Likeness.GovernsLevels

theorem Likeness.Governs.round_alike (hg : like.Governs family family')
    (hl : launch.Alike like launch') (q : ι) (level : Level) {traversal traversal' : Exec ι Unit}
    (ht : Alike like (· = ·) traversal traversal') :
    Alike like (· = ·) (family.round launch q level traversal)
      (family'.round launch' q level traversal') := by
  rw [Family.round_eq, Family.round_eq]
  exact (hg.body_alike hl q ht).bind fun _ _ _ hj => .ok rfl (hg.finished hj q level)

/-- Trees with the same instructions, all of which may be executed for the pipeline. -/
structure Tree.Alike (like : Likeness ι) (q : ι) (tree tree' : Tree ι) : Prop where
  roots : tree.roots = tree'.roots
  sites (level : Level) : like.Sites ⟨q, tree.settings, level⟩ ⟨q, tree'.settings, level⟩
  runs (level : Level) (i : Instruction ι) : i ∈ Instruction.nodesOf tree.roots →
    like.Runs ⟨q, tree.settings, level⟩ ⟨q, tree'.settings, level⟩ i i

/-- Runs start alike, and with trees that are alike. -/
def Likeness.Starts (like : Likeness ι) (need need' : ι → Exec ι (Tree ι)) : Prop :=
  ∀ q level, Alike like (Tree.Alike like q) (Family.start need q level) (Family.start need' q level)

/-- Runs start alike, whatever is asked of their trees, if needs of trees are alike. -/
theorem Family.start_alike {r : Tree ι → Tree ι → Prop} {need need' : ι → Exec ι (Tree ι)} {q : ι}
    {level : Level} (hn : Alike like r (need q) (need' q))
    (hs : ∀ {u v}, like.Joined u v → like.Holds u v [.started q level] [.started q level] u v) :
    Alike like r (start need q level) (start need' q level) := by
  have hstarted : Alike like (· = ·) (Exec.emit (.started q level))
      (Exec.emit (.started q level)) := fun _ _ hj => Exec.alikeAt_emit (hs hj)
  exact hn.bind fun ht => hstarted.bind fun _ => Exec.alike_pure ht

theorem Likeness.starts_of_need {need need' : ι → Exec ι (Tree ι)}
    (hn : ∀ q, Alike like (Tree.Alike like q) (need q) (need' q))
    (hs : ∀ {u v}, like.Joined u v → ∀ q level,
      like.Holds u v [.started q level] [.started q level] u v) : like.Starts need need' :=
  fun q level => Family.start_alike (hn q) fun hj => hs hj q level

namespace Likeness.Governs

variable (hg : like.Governs family family') (hp : like.Lenient)
include hg hp

theorem runWith_alike {need need' : ι → Exec ι (Tree ι)} (hn : like.Starts need need')
    (hl : launch.Alike like launch') (q : ι) (level : Level) :
    Alike like (· = ·) (family.runWith launch need q level)
      (family'.runWith launch' need' q level) := by
  refine (hn q level).bind fun {t t'} ht => hg.round_alike hl q level ?_
  rw [← ht.roots]
  exact hg.traverse_alike hl hp (ht.sites level) (ht.runs level) []

theorem launchWith_alike {need need' : ι → Exec ι (Tree ι)} (hn : like.Starts need need')
    (depth : Nat) : (family.launchWith need depth).Alike like (family'.launchWith need' depth) := by
  rw [family.launchWith_eq, family'.launchWith_eq]
  exact hg.launchBy_alike (fun hl => hg.runWith_alike hp hn hl) depth

end Likeness.Governs

end Cascade
