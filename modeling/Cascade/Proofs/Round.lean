import Cascade.Run.Pipeline

/-! # Runs in parts

A run needs a tree and tells that it starts. Its round is what comes then: the tree is traversed,
the entry is entered if there is one, and the end is told. How a pipeline is run settles how it is
invoked, and so all that may be launched.
-/
namespace Cascade

open Json (Value)

variable {ι : Type} (family : Family ι) (launch : Launch ι)

namespace Family

/-- The tree of a run, once it is told that the run starts. -/
def start (need : ι → Exec ι (Tree ι)) (q : ι) (level : Level) : Exec ι (Tree ι) := do
  let tree ← need q
  Exec.emit (.started q level)
  return tree

def round (q : ι) (level : Level) (traversal : Exec ι Unit) : Exec ι Unit := do
  traversal
  if let some entry := (family q).entry then
    let s ← Exec.state
    let _ ← enter launch q entry (.ofParams s.params?)
  Exec.emit (.finished q level (← Exec.state).successful)

/-- A round up to its end. -/
def body (q : ι) (traversal : Exec ι Unit) : Exec ι Unit := do
  traversal
  if let some entry := (family q).entry then
    let s ← Exec.state
    let _ ← enter launch q entry (.ofParams s.params?)

/-- Runs a pipeline, its round being a traversal of the tree. -/
def runWith (need : ι → Exec ι (Tree ι)) (q : ι) (level : Level) : Exec ι Unit := do
  let tree ← start need q level
  family.round launch q level (Site.traverse family launch ⟨q, tree.settings, level⟩ [] tree.roots)

def invokeBy (run : ι → Level → Exec ι Unit) (q : ι) (options : Options) (level : Level) :
    Exec ι Value :=
  match (family q).entry with
  | some entry => enter launch q entry options
  | none => do
    run q level
    return .bool (← Exec.state).successful

/-- Pipelines that are run in this way, started within each other up to a depth. -/
def launchBy (runs : Launch ι → ι → Level → Exec ι Unit) : Nat → Launch ι
  | 0 => ⟨fun _ _ => Exec.tooDeep, fun _ _ _ => Exec.tooDeep⟩
  | depth + 1 =>
    { run := runs (launchBy runs depth)
      invoke := family.invokeBy (launchBy runs depth) (runs (launchBy runs depth)) }

theorem start_of_ok {need : ι → Exec ι (Tree ι)} {q : ι} {w w' : World ι} {tree : Tree ι}
    {events : List (Event ι)} (h : need q w = ⟨.ok tree, w', events⟩) (level : Level) :
    start need q level w = ⟨.ok tree, w', events ++ [.started q level]⟩ := Exec.bind_of_ok h

theorem start_of_error {need : ι → Exec ι (Tree ι)} {q : ι} {w w' : World ι} {halt : Halt}
    {events : List (Event ι)} (h : need q w = ⟨.error halt, w', events⟩) (level : Level) :
    start need q level w = ⟨.error halt, w', events⟩ := Exec.bind_of_error h

theorem round_eq (q : ι) (level : Level) (traversal : Exec ι Unit) :
    family.round launch q level traversal = (family.body launch q traversal >>= fun _ =>
      Exec.state >>= fun s => Exec.emit (.finished q level s.successful)) := by
  unfold round body
  cases (family q).entry with
  | none | some c => simp only [Exec.bind_assoc, Exec.pure_bind]

theorem runWith_eq (need : ι → Exec ι (Tree ι)) : family.runWith launch need =
    fun q level => need q >>= fun tree => tree.run family launch q level := by
  funext q level
  unfold runWith start
  simp only [Exec.bind_assoc, Exec.pure_bind]
  rfl

theorem invokeWith_eq (need : ι → Exec ι (Tree ι)) :
    family.invokeWith launch need = family.invokeBy launch (family.runWith launch need) := by
  funext q options level
  unfold invokeWith invokeBy
  rw [runWith_eq]
  cases (family q).entry with
  | some c => rfl
  | none => exact (Exec.bind_assoc _ _ _).symm

theorem launchWith_succ (need : ι → Exec ι (Tree ι)) (depth : Nat) :
    family.launchWith need (depth + 1) = ⟨family.runWith (family.launchWith need depth) need,
      family.invokeBy (family.launchWith need depth)
        (family.runWith (family.launchWith need depth) need)⟩ := by
  rw [← invokeWith_eq, runWith_eq]
  rfl

theorem launchWith_eq (need : ι → Exec ι (Tree ι)) (depth : Nat) : family.launchWith need depth =
    family.launchBy (fun launch => family.runWith launch need) depth := by
  induction depth with
  | zero => rfl
  | succ depth ih =>
    rw [launchWith_succ, ih]
    rfl

end Family

namespace Tree

variable (tree : Tree ι) (q : ι) (level : Level)

/-- What a run does between its start and its end. -/
def body : Exec ι Unit :=
  family.body launch q (Site.traverse family launch ⟨q, tree.settings, level⟩ [] tree.roots)

theorem run_eq : tree.run family launch q level = (Exec.emit (.started q level) >>= fun _ =>
    tree.body family launch q level >>= fun _ =>
      Exec.state >>= fun s => Exec.emit (.finished q level s.successful)) := by
  have hround := family.round_eq launch q level
    (Site.traverse family launch ⟨q, tree.settings, level⟩ [] tree.roots)
  exact congrArg (fun x => Exec.emit (.started q level) >>= fun _ => x) hround

/-- The start is told in any case, the end only if nothing between halts the run. -/
theorem run_apply (w : World ι) : tree.run family launch q level w =
    match tree.body family launch q level w with
    | ⟨.ok _, v, events⟩ => ⟨.ok (), v,
        .started q level :: (events ++ [.finished q level v.state.successful])⟩
    | ⟨.error halt, v, events⟩ => ⟨.error halt, v, .started q level :: events⟩ := by
  rw [run_eq, Exec.bind_of_ok (Exec.emit_apply _ w), Exec.bind_apply]
  rcases tree.body family launch q level w with ⟨_ | _,v,events⟩ <;> rfl

end Tree

end Cascade
