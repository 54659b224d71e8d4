import Cascade.Proofs.Entries.Unneeded
import Cascade.Proofs.Traced.Run

/-! # Entry points

The entry of a pipeline is called at the end of each of its runs, with the parameters that the tree
has left, unless the tree is halted. A pipeline that stands for a handler is not run: its entry is
called instead, with the options of the instruction, and there its declarations do not matter.
-/
namespace Cascade

open Json (Value)

variable {ι : Type}

/-! ## At the end of a run -/

/-- The options are the fields of the parameters if these are an object, and else there are none. -/
def Options.FromParams (s : State) (o : Options) : Prop :=
  (∃ fields, s.params? = some (.object fields) ∧ o = .ofList fields) ∨
    (∀ fields, s.params? ≠ some (.object fields)) ∧ o = .empty

theorem Options.fromParams_ofParams (s : State) : FromParams s (.ofParams s.params?) := by
  unfold FromParams ofParams
  cases s.params? with
  | none => exact Or.inr ⟨nofun,rfl⟩
  | some v =>
    cases v with
    | object fields => exact Or.inl ⟨fields,rfl,rfl⟩
    | _ => exact Or.inr ⟨nofun,rfl⟩

/-- What the run of a tree comes to whose pipeline has an entry. -/
inductive Tree.Enters (family : Family ι) (launch : Launch ι) (tree : Tree ι) (q : ι)
    (level : Level) (c : Callable ι) (w : World ι) : Outcome ι Unit → Prop where
  /-- The traversal of the roots is halted, and the entry is not called. -/
  | halted {halt : Halt} {v : World ι} {told : List (Event ι)}
    (h : Site.traverse family launch ⟨q, tree.settings, level⟩ [] tree.roots w =
      ⟨.error halt, v, told⟩) :
    Enters family launch tree q level c w ⟨.error halt, v, .started q level :: told⟩
  /-- The roots are traversed, whether or not the state is failed, and then the entry is halted. -/
  | broken {halt : Halt} {v u : World ι} {told own : List (Event ι)} {o : Options}
    (h : Site.traverse family launch ⟨q, tree.settings, level⟩ [] tree.roots w =
      ⟨.ok (), v, told⟩)
    (ho : o.FromParams v.state) (he : (c.program o).value launch v = ⟨.error halt, u, own⟩) :
    Enters family launch tree q level c w
      ⟨.error halt, u, .started q level :: (told ++ .entered q o :: own)⟩
  /-- The roots are traversed, and the run ends in the world that the entry leaves; the value of the
  entry makes no difference. -/
  | ended {value : Value} {v u : World ι} {told own : List (Event ι)} {o : Options}
    (h : Site.traverse family launch ⟨q, tree.settings, level⟩ [] tree.roots w =
      ⟨.ok (), v, told⟩)
    (ho : o.FromParams v.state) (he : (c.program o).value launch v = ⟨.ok value, u, own⟩) :
    Enters family launch tree q level c w ⟨.ok (), u, .started q level ::
      (told ++ .entered q o :: (own ++ [.finished q level u.state.successful]))⟩

section

variable {family : Family ι} {launch : Launch ι} {q : ι} {c : Callable ι}

theorem enter_apply (o : Options) (w : World ι) : enter launch q c o w =
    ((c.program o).value launch w).prepend [.entered q o] := Exec.bind_of_ok (Exec.emit_apply _ w)

theorem Tree.run_enters (hq : (family q).entry = some c) (tree : Tree ι) (level : Level)
    (w : World ι) : tree.Enters family launch q level c w (tree.run family launch q level w) := by
  have hbody : tree.body family launch q level =
      (Site.traverse family launch ⟨q, tree.settings, level⟩ [] tree.roots >>= fun _ =>
        Exec.state >>= fun s => enter launch q c (.ofParams s.params?) >>= fun _ => pure ()) := by
    unfold body Family.body
    rw [hq]
  rw [run_apply, hbody]
  rcases hx : Site.traverse family launch ⟨q, tree.settings, level⟩ [] tree.roots w with
    ⟨halt | _,v,told⟩
  · rw [Exec.bind_of_error hx]
    exact .halted hx
  · have hv := Options.fromParams_ofParams v.state
    have henter : enter launch q c (.ofParams v.state.params?) v = _ := enter_apply _ v
    rw [Exec.bind_of_ok hx, Exec.bind_of_ok (Exec.state_apply v)]
    rcases hy : (c.program (.ofParams v.state.params?)).value launch v with ⟨halt | value,u,own⟩
    · rw [hy] at henter
      rw [Exec.bind_of_error henter]
      exact .broken hx hv hy
    · rw [hy] at henter
      rw [Exec.bind_of_ok henter]
      have hended : tree.Enters family launch q level c w _ := .ended hx hv hy
      simpa [Outcome.prepend] using hended

end

/-! ## What is told besides -/

/-- The event tells what handlers do by themselves. -/
def Event.OfHandler : Event ι → Prop
  | changed _ | raised .. => True
  | _ => False

/-- The event tells what happens on a level, apart from pipelines that are needed or entered. -/
def Event.OfLevel : Event ι → Prop
  | executing .. | logged .. | returned .. | cascading .. | changed _ | raised .. => True
  | _ => False

theorem Program.tells_handler (launch : Launch ι) (p : Program ι) :
    (p.value launch).Tells Event.OfHandler launch.Block :=
  p.tells_value (Launch.tells_of_block (fun _ _ => trivial) (fun _ => trivial) fun _ h => h)

theorem Site.tells_level (family : Family ι) (launch : Launch ι) (site : Site ι)
    (is : List (Instruction ι)) (required : List Key) :
    (site.traverse family launch required is).Tells Event.OfLevel launch.Block := by
  have ht : launch.Tells Event.OfLevel launch.Block :=
    Launch.tells_of_block (fun _ _ => trivial) (fun _ => trivial) fun _ h => h
  refine Site.tells_traverse_of ht (fun _ _ => trivial) (fun site i hc => ?_) site is required
  refine site.tells_perform ht (fun s => ?_) (fun _ => trivial) hc
  exact Site.forall_announcement trivial fun _ _ => trivial

/-! ## Runs and dispatches -/

variable [DecidableEq ι]

/-- The entry is called last in each run of the pipeline, whatever the tree is. -/
structure Family.EntersLast (family : Family ι) (q : ι) (c : Callable ι) : Prop where
  executed (launch : Launch ι) (tree : Tree ι) (level : Level) (w : World ι) :
    tree.Enters family launch q level c w (tree.run family launch q level w)
  run {depth : Nat} {level : Level} {w v : World ι} {tree : Tree ι} {built : List (Event ι)}
    (h : family.tree q w = ⟨.ok tree, v, built⟩) : unbuilding built = [] ∧ ∃ out,
      tree.Enters family (family.launchWith family.tree depth) q level c v out ∧
      family.run (depth + 1) q level w = out.prepend built
  refused {depth : Nat} {level : Level} {w v : World ι} {halt : Halt} {built : List (Event ι)}
    (h : family.tree q w = ⟨.error halt, v, built⟩) :
    family.run (depth + 1) q level w = ⟨.error halt, v, built⟩
  call (depth : Nat) (params : Value) (w : World ι) : family.call depth q params w =
    family.run depth q 0 { w with state := .withParams params }

/-- Where the pipeline stands for a handler, or is invoked by one, its entry is called and nothing
is needed for it. So its declarations make no difference to what comes to no run of it. -/
structure Family.EntersAlone (family : Family ι) (q : ι) (c : Callable ι) : Prop where
  dispatched {need : ι → Exec ι (Tree ι)} {depth : Nat} {site : Site ι} {i : Instruction ι}
    {w : World ι} (hi : i.isStep = true ∨ i.isFailure = true)
    (hq : i.handler.StandsFor site.settings.container w.state q) :
    site.act family (family.launchWith need (depth + 1)) i w = (do
      Exec.emit (.entered q i.options)
      let result ← (c.program i.options).value (family.launchWith need depth)
      site.conclude i result : Exec ι Unit) w
  invoked (need : ι → Exec ι (Tree ι)) (depth : Nat) (o : Options) (level : Level) :
    (family.launchWith need (depth + 1)).invoke q o level = (do
      Exec.emit (.entered q o)
      (c.program o).value (family.launchWith need depth))
  level {family' : Family ι} (hs : family.SameBut q family') (depth : Nat) (site : Site ι)
    (is : List (Instruction ι)) (required : List Key) (w : World ι) {out : Outcome ι Unit}
    (hout : site.traverse family (family.launchWith family.tree depth) required is w = out)
    (h : ∀ e ∈ out.events, e.concerns q = false) :
    site.traverse family' (family'.launchWith family'.tree depth) required is w = out
  request {family' : Family ι} (hs : family.SameBut q family') (depth : Nat) (r : Request ι)
    (w : World ι) (h : ∀ e ∈ (r.exec family depth w).events, e.concerns q = false) :
    r.exec family' depth w = r.exec family depth w

section

variable {family : Family ι} {q : ι} {c : Callable ι} (he : (family q).entry = some c)
include he

theorem Family.entersLast : family.EntersLast q c where
  executed _ tree level w := tree.run_enters he level w
  run h := ⟨unbuilding_of_tree h,_,Tree.run_enters he _ _ _,Exec.bind_of_ok h⟩
  refused h := Exec.bind_of_error h
  call depth params _ := Family.call_apply depth params

theorem Family.entersAlone : family.EntersAlone q c where
  dispatched {need depth site i w} hi hq := by
    have hdispatch : site.dispatch family (family.launchWith need (depth + 1)) i.role i.options
        i.handler w = enter (family.launchWith need depth) q c i.options w := by
      rw [Site.dispatch_of_standsFor hq, invoke_of_entry he]
    rw [site.act_leaf family _ hi, Exec.bind_apply, hdispatch, ← Exec.bind_apply]
    unfold enter
    rw [Exec.bind_assoc]
  invoked need depth o level := invoke_of_entry he need depth o level
  level {family'} hs depth site is required w out hout h := by
    rcases hs.traverse (hs.launch depth) site is required w with ⟨e,hmem,hp⟩ | hx
    · rw [hout] at hmem
      rw [h e hmem] at hp
      cases hp
    · rw [hx, hout]
  request hs depth r w h := r.exec_unneeded hs depth h

end

/-- A run of a pipeline that has an entry calls it once the roots are traversed without a fault,
and then once, also if the state is failed; its options are the parameters that the tree left, and
its value makes no difference. Where the pipeline stands for a handler, or is invoked, the entry is
all that is called, with the options that are given, and its value is the result. Then the pipeline
is neither run nor declared: what the level and the entry tell by themselves is of no pipeline, but
that the entry is entered, and any other declarations do as well. -/
theorem Family.entry_points (family : Family ι) {q : ι} {c : Callable ι}
    (he : (family q).entry = some c) :
    family.EntersLast q c ∧ family.EntersAlone q c ∧
    (∀ p, c = .bare p → ∀ o, c.program o = p) ∧
    (∀ launch (p : Program ι), (p.value launch).Tells Event.OfHandler launch.Block) ∧
    ∀ launch (site : Site ι) is required,
      (site.traverse family launch required is).Tells Event.OfLevel launch.Block := by
  refine ⟨family.entersLast he,family.entersAlone he,?_,?_,?_⟩
  · rintro p rfl o
    rfl
  · exact fun launch p => p.tells_handler launch
  · exact fun launch site is required => site.tells_level family launch is required

def quote : Callable Bool :=
  .withOptions fun o => .change (.set "quoted" o.value) (.done (.bool true))

/-- A pipeline that quotes its options, and one that has it quote a rate. -/
def quoting (declarations : List (Declaration Bool)) : Family Bool
  | true => { name := "quote", declarations, entry := some quote }
  | false =>
    { name := "order", declarations := [.step (.pipeline true) (.ofList [("rate", .int 2)])] }

theorem Family.entry_points_quoting :
    let failing := quoting [.step (.function (.done (.bool false))) .empty]
    let flawed := quoting [.dependsOn .state []]
    let order : Request Bool := .run false 0
    let entered := fun out : Outcome Bool Value => out.events.filterMap fun
      | .entered q o => some (q, o.text)
      | _ => none
    (failing true).entry = some quote ∧ (flawed.compile true).isOk = false ∧
    failing.EntersLast true quote ∧ failing.EntersAlone true quote ∧
    entered ((Request.call true (.object [("rate", .int 3)])).exec failing 1 {}) =
      [(true, "\x7b\"rate\":3\x7d")] ∧
    entered (order.exec failing 2 {}) = [(true, "\x7b\"rate\":2\x7d")] ∧
    (∀ e ∈ (order.exec failing 2 {}).events, e.concerns true = false) ∧
    order.exec flawed 2 {} = order.exec failing 2 {} := by
  intro failing flawed order entered
  obtain ⟨hlast,halone,_⟩ := failing.entry_points (q := true) rfl
  have hs : failing.SameBut true flawed := by
    refine ⟨fun p hp => ?_,rfl,rfl,rfl⟩
    cases p with
    | true => exact absurd rfl hp
    | false => rfl
  have hnone : ∀ e ∈ (order.exec failing 2 {}).events, e.concerns true = false := by
    decide +kernel
  exact ⟨rfl,by decide +kernel,hlast,halone,by decide +kernel,by decide +kernel,hnone,
    halone.request hs 2 order {} hnone⟩

end Cascade
