import Cascade.Proofs.Leeway.Exec
import Cascade.Proofs.Likeness.Level
import Cascade.Proofs.Raised.Reason

/-! # Runs side by side

Families that are the same up to options, whose handlers suit that, run side by side: instructions,
levels, and the pipelines that are started. What a pipeline needs of others is asked for those only
that it may start.
-/
namespace Cascade

open Json (Value)
open Exec (Paired)
open Instruction (nodesOf mem_nodesOf_of_mem mem_nodes_self)

variable {ι : Type}

structure Site.UpTo (l : Leeway) (site site' : Site ι) : Prop where
  pipeline : site.pipeline = site'.pipeline
  settings : site.settings = site'.settings
  level : l.Levels site.level site'.level

structure Tree.UpTo (R : Options → Options → Prop) (tree tree' : Tree ι) : Prop where
  roots : Instruction.UpTo R tree.roots tree'.roots
  settings : tree.settings = tree'.settings

/-- The families have the same names and entries. Handlers do the same with both, and start only
such pipelines as may be started by the pipeline that they are declared for. -/
structure Family.Suits (l : Leeway) (starts : ι → ι → Prop) (family family' : Family ι) : Prop where
  name (q : ι) : (family q).name = (family' q).name
  entry (q : ι) : (family q).entry = (family' q).entry
  around (q : ι) : (family q).around = (family' q).around
  entry_suits {q : ι} {c : Callable ι} (h : (family q).entry = some c) : c.Suits l (starts q)
  around_suits {q : ι} {c : Callable ι} (h : (family q).around = some c) : c.Suits l (starts q)
  handler_suits {q : ι} {i : Instruction ι} (h : family.Has q i) : i.handler.Suits l (starts q)
  registered {q : ι} {tree : Tree ι} {registry : Registry ι} {entry : String}
    {registration : Registration ι} (ht : family.compile q = .ok tree)
    (hc : tree.settings.container = some registry)
    (hr : registry.resolve? entry = some registration) (s : State) :
    starts q (registration.pipelineFor s)
  trans {p q r : ι} : starts p q → starts q r → starts p r

/-- The families suit each other and differ in options at most. -/
structure Family.UpTo (l : Leeway) (starts : ι → ι → Prop) (family family' : Family ι) : Prop
    extends family.Suits l starts family' where
  declarations (q : ι) : Declaration.UpTo l.Opts (family q).declarations (family' q).declarations

/-- A family suits another one with the same names and entries, where options are the same and the
levels that handlers give to the pipelines they start. -/
theorem Family.suits_of_same {l : Leeway} (hl : ∀ {o o'}, l.Opts o o' → o = o')
    {starts S : ι → ι → Prop} {family family' : Family ι}
    (name : ∀ q, (family q).name = (family' q).name)
    (entry : ∀ q, (family q).entry = (family' q).entry)
    (around : ∀ q, (family q).around = (family' q).around)
    (programs : ∀ q, (family q).All (Program.StartsOnly (S q)))
    (hS : ∀ q p, S q p → starts q p ∧ ∀ n, l.Levels n n)
    (handler : ∀ {q p i}, family.Has q i → i.handler = .pipeline p → starts q p)
    (registered : ∀ {q tree registry entry registration}, family.compile q = .ok tree →
      tree.settings.container = some registry → registry.resolve? entry = some registration →
      ∀ s, starts q (registration.pipelineFor s))
    (trans : ∀ {p q r}, starts p q → starts q r → starts p r) :
    family.Suits l starts family' where
  name := name
  entry := entry
  around := around
  entry_suits {q c} hc o o' ho := by
    cases hl ho
    exact ((programs q).entry c o hc).upTo (hS q) hl
  around_suits {q c} hc o o' ho := by
    cases hl ho
    exact ((programs q).around c o hc).upTo (hS q) hl
  handler_suits {q i} hi :=
    Handler.suits_of_all (hS q) hl (hi.all (programs q)) fun _ => handler hi
  registered := registered
  trans := trans

theorem Family.Suits.upTo_self {l : Leeway} {starts : ι → ι → Prop} {family : Family ι}
    (h : family.Suits l starts family) : family.UpTo l starts family := ⟨h,fun _ => .refl _⟩

theorem Site.UpTo.deeper {l : Leeway} {site site' : Site ι} (h : site.UpTo l site') :
    site.deeper.UpTo l site'.deeper := ⟨h.pipeline,h.settings,l.deeper h.level⟩

theorem Family.Reaches.deeper {family : Family ι} {site : Site ι} {i : Instruction ι}
    (h : family.Reaches site i) : family.Reaches site.deeper i := ⟨h.settings,h.has⟩

namespace Family

variable {family : Family ι} {site : Site ι} {i : Instruction ι} {is : List (Instruction ι)}

theorem reaches_heads (h : ∀ j ∈ nodesOf is, family.Reaches site j) :
    ∀ j ∈ is, family.Reaches site j := fun j hj => h j (mem_nodesOf_of_mem hj (mem_nodes_self j))

theorem reaches_rest (h : ∀ j ∈ nodesOf (i :: is), family.Reaches site j) :
    ∀ j ∈ nodesOf is, family.Reaches site j := by
  intro j hj
  refine h j ?_
  rw [nodesOf]
  exact List.mem_append_right _ hj

theorem reaches_children (h : ∀ j ∈ nodesOf (i :: is), family.Reaches site j) :
    ∀ j ∈ nodesOf i.children, family.Reaches site.deeper j := by
  cases i with
  | step _ _ | failure _ _ | gate _ => exact fun j hj => absurd hj List.not_mem_nil
  | wrap handler o children =>
    intro j hj
    refine (h j ?_).deeper
    rw [nodesOf, Instruction.nodes]
    exact List.mem_append_left _ (List.mem_cons_of_mem _ hj)

end Family

namespace Instruction.UpTo

variable {l : Leeway} {i i' : Instruction ι}

theorem handler_eq (h : UpTo l.Opts [i] [i']) : i.handler = i'.handler := by
  cases h <;> rfl

theorem options (h : UpTo l.Opts [i] [i']) : l.Opts i.options i'.options := by
  cases h with
  | step ho _ | failure ho _ | wrap ho _ _ => exact ho
  | gate _ => exact l.refl _

theorem kind_eq (h : UpTo l.Opts [i] [i']) : i.kind = i'.kind := by
  cases h <;> rfl

theorem inStep (h : UpTo l.Opts [i] [i']) (required : List Key) : i.InStep required i' := by
  refine ⟨?_,fun _ => (l.agree h.options).failFast,?_⟩ <;> cases h <;> rfl

theorem lacking?_eq (h : UpTo l.Opts [i] [i']) (required : List Key) :
    i.lacking? required = i'.lacking? required := by
  have hagree := (l.agree h.options).lacking? required
  cases h with
  | step _ _ | failure _ _ => exact hagree
  | wrap _ _ _ | gate _ => rfl

theorem verdict_eq (h : UpTo l.Opts [i] [i']) : i.verdict = i'.verdict := by
  have hfail := (l.agree h.options).fail
  funext result s
  unfold verdict canFail
  rw [hfail]
  cases h <;> rfl

end Instruction.UpTo

/-! ## Instructions -/

variable {sim : Simulation ι} {family family' : Family ι} {launch launch' : Launch ι}
  {site site' : Site ι}

theorem Site.conclude_paired (hs : site.UpTo sim.toLeeway site') {i i' : Instruction ι}
    (hi : Instruction.UpTo sim.Opts [i] [i']) (result : Value) :
    Paired sim (· = ·) (site.conclude i result) (site'.conclude i' result) := by
  intro u v hj
  rw [conclude_apply, conclude_apply, ← hj.1, ← hi.verdict_eq, ← hs.pipeline]
  exact ⟨.ok rfl,sim.told_one (.returned _ hs.level hi result),hj.resume _⟩

variable {starts : ι → ι → Prop} (hf : family.Suits sim.toLeeway starts family')
include hf

theorem Family.Suits.signature : family.signature = family'.signature :=
  Family.signature_eq hf.name hf.around

theorem Site.announce_paired (hs : site.UpTo sim.toLeeway site') {i i' : Instruction ι}
    (hi : Instruction.UpTo sim.Opts [i] [i']) :
    Paired sim (· = ·) (site.announce family i) (site'.announce family' i') := by
  refine Exec.paired_state.bind fun {s t} hst => ?_
  cases hst
  have hexecuting : Event.UpTo sim.toLeeway (.executing site.pipeline site.level i s)
      (.executing site'.pipeline site'.level i' s) := by
    rw [← hs.pipeline]
    exact .executing _ hs.level hi s
  have hrecord : (site.record family i s).UpTo sim.toLeeway (site'.record family' i' s) := by
    refine ⟨rfl,hs.level,hi.kind_eq,?_,⟨_,_,hi.options,rfl,rfl⟩,rfl⟩
    show i.handler.name family.signature = i'.handler.name family'.signature
    rw [hi.handler_eq, hf.signature]
  refine (Exec.paired_emit hexecuting).bind fun _ => ?_
  rw [← hs.settings]
  cases site.settings.debug with
  | true => exact Exec.paired_emit (.logged _ hrecord)
  | false => exact Exec.paired_pure rfl

/-- A name stands for the same pipeline, and that one may be started. -/
theorem Site.resolve_paired (hs : site.UpTo sim.toLeeway site') {i : Instruction ι}
    (hr : family.Reaches site i) (entry : String) :
    Paired sim (fun q q' => q = q' ∧ starts site.pipeline q) (site.resolve entry)
      (site'.resolve entry) := by
  obtain ⟨tree,ht,hsettings⟩ := hr.settings
  unfold resolve
  rw [← hs.settings]
  cases hc : site.settings.container with
  | none => exact Exec.paired_raise (.refl _)
  | some registry =>
    cases he : registry.resolve? entry with
    | none =>
      simp only [he]
      exact Exec.paired_raise (.refl _)
    | some registration =>
      simp only [he]
      refine Exec.paired_state.map fun {s t} hst => ?_
      cases hst
      rw [hsettings] at hc
      exact ⟨rfl,hf.registered ht hc he s⟩

variable (hl : launch.Paired sim (starts site.pipeline) launch')
include hl

theorem Site.dispatch_paired (hs : site.UpTo sim.toLeeway site') {i : Instruction ι}
    (hr : family.Reaches site i) (role : Role) {o o' : Options} (ho : sim.Opts o o') :
    Paired sim (· = ·) (site.dispatch family launch role o i.handler)
      (site'.dispatch family' launch' role o' i.handler) := by
  have hsuits := hf.handler_suits hr.has
  have hlevel := sim.deeper hs.level
  unfold dispatch
  rw [← hf.signature]
  cases h : i.handler with
  | noop | around p => exact Exec.paired_raise (.refl _)
  | function p =>
    rw [h] at hsuits
    exact Program.value_paired hl hsuits
  | pipeline q =>
    rw [h] at hsuits
    exact hl.invoke hsuits ho hlevel
  | named entry =>
    refine (resolve_paired hf hs hr entry).bind fun {q q'} hq => ?_
    obtain ⟨rfl,hq⟩ := hq
    exact hl.invoke hq ho hlevel
  | method m =>
    rw [h] at hsuits
    cases hm : m.around with
    | true =>
      simp only [hm]
      exact Exec.paired_raise (.refl _)
    | false =>
      simp only [hm]
      exact Program.value_paired hl (hsuits _ _ ho)

/-- A pipeline in a wrap position starts what it may start itself. -/
theorem Handler.wrap_paired {i : Instruction ι} (hr : family.Reaches site i) {o o' : Options}
    (ho : sim.Opts o o') {children children' : Exec ι Unit}
    (hc : Paired sim (· = ·) children children') :
    Paired sim (· = ·) (i.handler.wrap family launch o children)
      (i.handler.wrap family' launch' o' children') := by
  have hsuits := hf.handler_suits hr.has
  have hk : Option.Rel (Paired sim (· = ·)) (some children) (some children') := .some hc
  unfold wrap
  rw [← hf.signature]
  cases h : i.handler with
  | noop | function p | named entry => exact Exec.paired_raise (.refl _)
  | around p =>
    rw [h] at hsuits
    exact Program.exec_paired hl hk hsuits 0
  | pipeline q =>
    rw [h] at hsuits
    simp only [Family.invokeAround]
    rw [← hf.around, ← hf.name]
    cases hq : (family q).around with
    | none => exact Exec.paired_raise (.refl _)
    | some c =>
      have hstarts : ∀ p, starts q p → starts site.pipeline p := fun _ => hf.trans hsuits
      exact Program.exec_paired hl hk ((hf.around_suits hq o o' ho).mono hstarts) 0
  | method m =>
    rw [h] at hsuits
    cases hm : m.around with
    | true =>
      simp only [hm]
      exact Program.exec_paired hl hk (hsuits _ _ ho) 0
    | false =>
      simp only [hm]
      exact Exec.paired_raise (.refl _)

theorem Site.perform_paired (hs : site.UpTo sim.toLeeway site') {i i' : Instruction ι}
    (hi : Instruction.UpTo sim.Opts [i] [i']) (hr : family.Reaches site i)
    (hc : Paired sim (· = ·) (site.deeper.traverse family launch [] i.children)
      (site'.deeper.traverse family' launch' [] i'.children)) :
    Paired sim (· = ·) (site.perform family launch i) (site'.perform family' launch' i') := by
  refine (announce_paired hf hs hi).bind fun _ => ?_
  have hleaf : ∀ role, Paired sim (· = ·)
      (site.dispatch family launch role i.options i.handler >>= site.conclude i)
      (site'.dispatch family' launch' role i'.options i'.handler >>= site'.conclude i') := by
    intro role
    rw [← hi.handler_eq]
    refine (dispatch_paired hf hl hs hr role hi.options).bind fun {a b} hab => ?_
    cases hab
    exact conclude_paired hs hi a
  have hwrap := Handler.wrap_paired hf hl hr hi.options hc
  have hconclude := conclude_paired hs hi
  cases hi with
  | step _ _ => exact hleaf .step
  | failure _ _ => exact hleaf .failure
  | wrap _ _ _ =>
    refine hwrap.bind fun {a b} hab => ?_
    cases hab
    exact hconclude a.1
  | @gate g _ _ _ =>
    refine Exec.paired_state.bind fun {s t} hst => ?_
    cases hst
    cases g.missing? s with
    | none => exact Exec.paired_pure rfl
    | some k => exact Exec.paired_raise (.refl _)

theorem Site.enact_paired (hs : site.UpTo sim.toLeeway site') {i i' : Instruction ι}
    (hi : Instruction.UpTo sim.Opts [i] [i']) (hr : family.Reaches site i)
    (hc : Paired sim (· = ·) (site.deeper.traverse family launch [] i.children)
      (site'.deeper.traverse family' launch' [] i'.children)) (required : List Key) :
    Paired sim (· = ·) (site.enact family launch required i)
      (site'.enact family' launch' required i') := by
  rw [enact_eq, enact_eq, ← hi.lacking?_eq]
  cases i.lacking? required with
  | some k => exact Exec.paired_raise (.missingOption _ hi.options)
  | none => exact perform_paired hf hl hs hi hr hc

/-! ## Levels -/

/-- Only failure handlers are in a cascade, and these have no children. -/
theorem Site.cascade_paired (hs : site.UpTo sim.toLeeway site') {is is' : List (Instruction ι)}
    (h : Instruction.UpTo sim.Opts is is') (hr : ∀ i ∈ is, family.Reaches site i)
    (required : List Key) : Paired sim (· = ·)
      ((Instruction.cascade is).forM (site.enact family launch required))
      ((Instruction.cascade is').forM (site'.enact family' launch' required)) := by
  induction h with
  | nil => exact Exec.paired_pure rfl
  | step _ _ ih | wrap _ _ _ _ ih | gate _ ih =>
    rw [Instruction.cascade_of_not_isFailure rfl, Instruction.cascade_of_not_isFailure rfl]
    exact ih fun i hi => hr i (List.mem_cons_of_mem _ hi)
  | @failure h o o' is is' ho _ ih =>
    have hfirst : Paired sim (· = ·) (site.enact family launch required (.failure h o))
        (site'.enact family' launch' required (.failure h o')) :=
      enact_paired hf hl hs (.failure ho .nil) (hr _ List.mem_cons_self) (Exec.paired_pure rfl)
        required
    have hfast : (Instruction.failure h o).options.failFast =
        (Instruction.failure h o').options.failFast := (sim.agree ho).failFast
    rw [Instruction.cascade_of_isFailure rfl, Instruction.cascade_of_isFailure rfl, hfast]
    cases (Instruction.failure h o').options.failFast with
    | true => exact hfirst.bind fun _ => Exec.paired_pure rfl
    | false => exact hfirst.bind fun _ => ih fun i hi => hr i (List.mem_cons_of_mem _ hi)

omit hf hl in
/-- Two levels whose first instructions are executed side by side, and whose cascades are run so. -/
theorem Site.traverse_cons_paired_of (hs : site.UpTo sim.toLeeway site') {i i' : Instruction ι}
    {is is' : List (Instruction ι)} {required : List Key} (hi : i.InStep required i')
    (henact : Paired sim (· = ·) (site.enact family launch required i)
      (site'.enact family' launch' required i'))
    (hcascade : Paired sim (· = ·)
      ((Instruction.cascade (i :: is)).forM (site.enact family launch required))
      ((Instruction.cascade (i' :: is')).forM (site'.enact family' launch' required)))
    (hrest : Paired sim (· = ·)
      (site.traverse family launch (i.requiredAfter required) is)
      (site'.traverse family' launch' (i.requiredAfter required) is')) :
    Paired sim (· = ·) (site.traverse family launch required (i :: is))
      (site'.traverse family' launch' required (i' :: is')) := by
  have hcascading : Event.UpTo sim.toLeeway (.cascading site.pipeline site.level)
      (.cascading site'.pipeline site'.level) := by
    rw [← hs.pipeline]
    exact .cascading _ hs.level
  rw [traverse_eq_walk, traverse_eq_walk] at hrest ⊢
  unfold walk
  rw [← hi.isFailure, ← hi.requiredAfter]
  refine Exec.paired_state.bind fun {s t} hst => ?_
  cases hst
  cases s.failed with
  | true => exact (Exec.paired_emit hcascading).bind fun _ => hcascade
  | false =>
    cases hfailure : i.isFailure with
    | true =>
      rw [Instruction.requiredAfter_of_isFailure hfailure] at hrest
      exact hrest
    | false => exact henact.bind fun _ => hrest

theorem Site.traverse_cons_paired (hs : site.UpTo sim.toLeeway site') {i i' : Instruction ι}
    (hi : Instruction.UpTo sim.Opts [i] [i']) {is is' : List (Instruction ι)}
    (h : Instruction.UpTo sim.Opts is is') (hr : ∀ j ∈ i :: is, family.Reaches site j)
    (hc : Paired sim (· = ·) (site.deeper.traverse family launch [] i.children)
      (site'.deeper.traverse family' launch' [] i'.children))
    (hrest : ∀ required, Paired sim (· = ·) (site.traverse family launch required is)
      (site'.traverse family' launch' required is')) (required : List Key) :
    Paired sim (· = ·) (site.traverse family launch required (i :: is))
      (site'.traverse family' launch' required (i' :: is')) :=
  traverse_cons_paired_of hs (hi.inStep required)
    (enact_paired hf hl hs hi (hr i List.mem_cons_self) hc required)
    (cascade_paired hf hl hs (hi.append h) hr required) (hrest _)

/-- By induction on how the instructions go together, those of wraps included. -/
theorem Site.traverse_paired (hs : site.UpTo sim.toLeeway site') {is is' : List (Instruction ι)}
    (h : Instruction.UpTo sim.Opts is is') (hr : ∀ i ∈ nodesOf is, family.Reaches site i)
    (required : List Key) : Paired sim (· = ·) (site.traverse family launch required is)
      (site'.traverse family' launch' required is') := by
  induction h generalizing site site' required with
  | nil => exact Exec.paired_pure rfl
  | step ho h ih =>
    exact traverse_cons_paired hf hl hs (.step ho .nil) h (Family.reaches_heads hr)
      (Exec.paired_pure rfl) (ih hl hs (Family.reaches_rest hr)) required
  | failure ho h ih =>
    exact traverse_cons_paired hf hl hs (.failure ho .nil) h (Family.reaches_heads hr)
      (Exec.paired_pure rfl) (ih hl hs (Family.reaches_rest hr)) required
  | gate h ih =>
    exact traverse_cons_paired hf hl hs (.gate .nil) h (Family.reaches_heads hr)
      (Exec.paired_pure rfl) (ih hl hs (Family.reaches_rest hr)) required
  | wrap ho hc h ihc ih =>
    have hdeeper : launch.Paired sim (starts site.deeper.pipeline) launch' := hl
    refine traverse_cons_paired hf hl hs (.wrap ho hc .nil) h (Family.reaches_heads hr) ?_
      (ih hl hs (Family.reaches_rest hr)) required
    exact ihc hdeeper hs.deeper (Family.reaches_children hr) []

omit hl

/-! ## Runs -/

/-- Trees are run side by side if their levels are. -/
theorem Tree.run_paired_of {q : ι} (hl : launch.Paired sim (starts q) launch') {tree tree' : Tree ι}
    {m n : Level} (h : sim.Levels m n) (htraverse : Paired sim (· = ·)
      (Site.traverse family launch ⟨q, tree.settings, m⟩ [] tree.roots)
      (Site.traverse family' launch' ⟨q, tree'.settings, n⟩ [] tree'.roots)) :
    Paired sim (· = ·) (tree.run family launch q m) (tree'.run family' launch' q n) := by
  have hfinish : Paired sim (· = ·)
      (Exec.state >>= fun s => Exec.emit (.finished q m s.successful) : Exec ι Unit)
      (Exec.state >>= fun s => Exec.emit (.finished q n s.successful)) := by
    refine Exec.paired_state.bind fun {s t} hst => ?_
    cases hst
    exact Exec.paired_emit (.finished q h _)
  refine (Exec.paired_emit (.started q h)).bind fun _ => htraverse.bind fun _ => ?_
  rw [← hf.entry]
  cases hq : (family q).entry with
  | none => exact hfinish
  | some c =>
    refine Exec.paired_state.bind fun {s t} hst => ?_
    cases hst
    have henter : Paired sim (· = ·) (enter launch q c (.ofParams s.params?))
        (enter launch' q c (.ofParams s.params?)) :=
      (Exec.paired_emit (.entered q (sim.refl _))).bind fun _ =>
        Program.value_paired hl (hf.entry_suits hq _ _ (sim.refl _))
    exact henter.bind fun _ => hfinish

theorem Tree.run_paired {q : ι} (hl : launch.Paired sim (starts q) launch') {tree tree' : Tree ι}
    (hc : family.compile q = .ok tree) (ht : tree.UpTo sim.Opts tree') {m n : Level}
    (h : sim.Levels m n) :
    Paired sim (· = ·) (tree.run family launch q m) (tree'.run family' launch' q n) := by
  have hsite : Site.UpTo sim.toLeeway ⟨q, tree.settings, m⟩ ⟨q, tree'.settings, n⟩ :=
    ⟨rfl,ht.settings,h⟩
  exact Tree.run_paired_of hf hl h (Site.traverse_paired hf hl hsite ht.roots
    (fun i hi => ⟨⟨tree,hc,rfl⟩,tree,hc,hi⟩) [])

/-- Trees that are needed are built side by side, and they are those of the families. -/
def Simulation.Needs (sim : Simulation ι) (family : Family ι)
    (need need' : ι → Exec ι (Tree ι)) : Prop :=
  ∀ q, Paired sim (fun t t' => family.compile q = .ok t ∧ t.UpTo sim.Opts t') (need q) (need' q)

omit hf in
theorem Simulation.told_of_forall₂ {d e : List (Event ι)}
    (h : List.Forall₂ (Event.UpTo sim.toLeeway) d e) : sim.Told d e := by
  induction h with
  | nil => exact sim.told_nil
  | cons he _ ih => exact sim.told_append (sim.told_one he) ih

omit hf in
theorem Family.UpTo.told_declaring (hf : family.UpTo sim.toLeeway starts family') (q : ι)
    {e e' : Event ι} (he : e.UpTo sim.toLeeway e') :
    sim.Told (family.declaring q ++ [e]) (family'.declaring q ++ [e']) := by
  have hprobes : (family.declared q).probes = (family'.declared q).probes := by
    rw [Family.declared_eq, Family.declared_eq]
    exact (hf.declarations q).probesOf 0 0
  refine sim.told_append (sim.told_of_forall₂ (.cons (.declaring q) ?_)) (sim.told_one he)
  rw [hprobes, List.forall₂_map_left_iff, List.forall₂_map_right_iff]
  exact List.forall₂_same.2 fun p _ => .probed p

/-- The trees of both worlds are those of the families, and stay so when a tree is added. Both have
the tree of a pipeline then, or both lack it, or it does not matter which. -/
structure Simulation.Grows [DecidableEq ι] (sim : Simulation ι) (family family' : Family ι) :
    Prop where
  faithful {f g : Forest ι} (h : sim.Forests f g) : f.Faithful family ∧ g.Faithful family'
  added {f g : Forest ι} (h : sim.Forests f g) {q : ι} {t t' : Tree ι}
    (hc : family.compile q = .ok t) (hc' : family'.compile q = .ok t') :
    sim.Forests ((q, t) :: f) ((q, t') :: g)
  kept {f g : Forest ι} (h : sim.Forests f g) {q : ι} {t t' : Tree ι}
    (hc : family.compile q = .ok t) (hc' : family'.compile q = .ok t') :
    (q ∈ f.built ↔ q ∈ g.built) ∨
      sim.Forests ((q, t) :: f) g ∧ sim.Told (family.declaring q ++ [.compiled q]) [] ∧
        sim.Forests f ((q, t') :: g) ∧ sim.Told [] (family'.declaring q ++ [.compiled q])

omit hf in
theorem Simulation.Grows.needs [DecidableEq ι] (hf : family.UpTo sim.toLeeway starts family')
    (hg : sim.Grows family family') :
    sim.Needs family family.tree family'.tree := by
  intro q u v hj
  have hagree : Declaration.Agree family.signature (family q).declarations
      (family' q).declarations := (hf.declarations q).agree
  obtain ⟨hu,hv⟩ := hg.faithful hj.2
  rcases Family.compile_of_agree hf.signature hagree with ⟨hc,hc'⟩ | ⟨f,hc,hc'⟩
  · have htree : Tree.UpTo sim.Opts
        ⟨Declaration.imageOf (family q).declarations,
          Declaration.settingsOf (family q).declarations⟩
        ⟨Declaration.imageOf (family' q).declarations,
          Declaration.settingsOf (family q).declarations⟩ :=
      ⟨(hf.declarations q).imageOf sim.refl,rfl⟩
    by_cases hbu : q ∈ u.forest.built <;> by_cases hbv : q ∈ v.forest.built
    · rw [Family.tree_of_built hc hu hbu, Family.tree_of_built hc' hv hbv]
      exact ⟨.ok ⟨hc,htree⟩,sim.told_nil,hj⟩
    · rw [Family.tree_of_built hc hu hbu, Family.tree_of_not_built hc' hbv]
      rcases hg.kept hj.2 hc hc' with hiff | ⟨_,_,hforests,htold⟩
      · exact absurd (hiff.1 hbu) hbv
      · exact ⟨.ok ⟨hc,htree⟩,htold,hj.1,hforests⟩
    · rw [Family.tree_of_not_built hc hbu, Family.tree_of_built hc' hv hbv]
      rcases hg.kept hj.2 hc hc' with hiff | ⟨hforests,htold,_,_⟩
      · exact absurd (hiff.2 hbv) hbu
      · exact ⟨.ok ⟨hc,htree⟩,htold,hj.1,hforests⟩
    · rw [Family.tree_of_not_built hc hbu, Family.tree_of_not_built hc' hbv]
      exact ⟨.ok ⟨hc,htree⟩,hf.told_declaring q (.compiled q),hj.1,hg.added hj.2 hc hc'⟩
  · rw [Family.tree_of_flawed hc hu, Family.tree_of_flawed hc' hv, hj.1]
    exact ⟨.fault (.refl f),hf.told_declaring q (.raised (.refl f) _),hj⟩

variable {need need' : ι → Exec ι (Tree ι)}

theorem Family.invokeWith_paired_of {q : ι} (hl : launch.Paired sim (starts q) launch')
    {r : Tree ι → Tree ι → Prop} (hn : Paired sim r (need q) (need' q)) {o o' : Options}
    (ho : sim.Opts o o') {m n : Level} (hrun : ∀ {t t'}, r t t' →
      Paired sim (· = ·) (t.run family launch q m) (t'.run family' launch' q n)) :
    Paired sim (· = ·) (family.invokeWith launch need q o m)
      (family'.invokeWith launch' need' q o' n) := by
  unfold invokeWith
  rw [← hf.entry]
  cases hq : (family q).entry with
  | some c =>
    exact (Exec.paired_emit (.entered q ho)).bind fun _ =>
      Program.value_paired hl (hf.entry_suits hq _ _ ho)
  | none =>
    refine hn.bind fun {t t'} ht => (hrun ht).bind fun _ => ?_
    refine Exec.paired_state.map fun {s t} hst => ?_
    cases hst
    rfl

variable (hn : sim.Needs family need need')
include hn

/-- One level of starting more allows for the pipelines that start nothing but what was allowed for
before. -/
theorem Family.launchWith_succ_paired {S T : ι → Prop} {depth depth' : Nat}
    (hl : (family.launchWith need depth).Paired sim S (family'.launchWith need' depth'))
    (hS : ∀ q, T q → ∀ p, starts q p → S p) :
    (family.launchWith need (depth + 1)).Paired sim T
      (family'.launchWith need' (depth' + 1)) where
  run hq _ _ h := (hn _).bind fun ht => Tree.run_paired hf (hl.mono (hS _ hq)) ht.1 ht.2 h
  invoke hq _ _ ho _ _ h := invokeWith_paired_of hf (hl.mono (hS _ hq)) (hn _) ho fun ht =>
    Tree.run_paired hf (hl.mono (hS _ hq)) ht.1 ht.2 h

/-- If both may be too deep, any pipelines may be started, to any depth. -/
theorem Family.launchWith_paired (ht : sim.tires) (depth : Nat) :
    (family.launchWith need depth).Paired sim (fun _ => True)
      (family'.launchWith need' depth) := by
  induction depth with
  | zero =>
    constructor
    · exact fun _ _ _ _ => Exec.paired_tooDeep ht
    · exact fun _ _ _ _ _ _ _ => Exec.paired_tooDeep ht
  | succ depth ih => exact launchWith_succ_paired hf hn ih fun _ _ _ _ => trivial

omit hf hn

/-! ## Sessions -/

inductive Answer.UpTo (R : Options → Options → Prop) : Answer ι → Answer ι → Prop where
  | tree {t t' : Tree ι} (h : t.UpTo R t') : UpTo R (.tree t) (.tree t')
  | value (v : Value) : UpTo R (.value v) (.value v)

theorem Request.execBy_paired (hl : launch.Paired sim (fun _ => True) launch')
    (hlevel : ∀ n, sim.Levels n n) (r : Request ι) :
    Paired sim (· = ·) (r.execBy launch) (r.execBy launch') := by
  cases r with
  | call q params =>
    exact (Exec.paired_setState _).bind fun _ => (hl.run trivial (hlevel 0)).map fun _ => rfl
  | run q level => exact (hl.run trivial (hlevel level)).map fun _ => rfl
  | invoke q o level => exact hl.invoke trivial (sim.refl o) (hlevel level)

theorem sessionBy_paired (hl : launch.Paired sim (fun _ => True) launch')
    (hlevel : ∀ n, sim.Levels n n) (hn : sim.Needs family need need') (turns : List (Turn ι))
    {u v : World ι} (hj : sim.Joined u v) :
    List.Forall₂ (Outcome.Paired sim (Answer.UpTo sim.Opts)) (sessionBy launch need turns u)
      (sessionBy launch' need' turns v) := by
  refine sessionBy_rel (fun t u v hj => ?_) turns hj
  suffices h : (t.execBy launch need u).Paired sim (Answer.UpTo sim.Opts)
      (t.execBy launch' need' v) from ⟨h,h.joined⟩
  cases t with
  | tree q => exact (hn q).map (fun ht => Answer.UpTo.tree ht.2) hj
  | request prepare r =>
    have hstart : sim.Joined { u with state := prepare u.state }
        { v with state := prepare v.state } := by
      rw [hj.1]
      exact hj.resume _
    refine (Request.execBy_paired hl hlevel r).map (fun {a b} hab => ?_) hstart
    cases hab
    exact Answer.UpTo.value a

end Cascade
