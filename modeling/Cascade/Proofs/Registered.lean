import Cascade.Proofs.Level.Dispatch
import Cascade.Proofs.Listed

/-! # What is registered

A registry has for each name what was registered under it last. So what is registered under other
names makes no difference to it, and calls for different names may be made in any order: all that is
asked of the registry, and all that is dispatched by a name, stays the same.
-/
namespace Cascade

variable {ι : Type}

namespace Registry

/-! ## Calls that register -/

inductive Operation (ι : Type) where
  | pipeline (name : String) (q : ι)
  | factory (name : String) (pick : State → ι)
  /-- Registers what is prepared already. -/
  | entry (name : String) (registration : Registration ι)

def Operation.name : Operation ι → String
  | pipeline name _ | factory name _ | entry name _ => name

def Operation.registration : Operation ι → Registration ι
  | pipeline _ q => .pipeline q
  | factory _ pick => .choice pick
  | entry _ registration => registration

def perform (r : Registry ι) (op : Operation ι) : Registry ι := r.register op.name op.registration

/-- A new registry after the calls. -/
def of (ops : List (Operation ι)) : Registry ι := ops.foldl perform empty

def callsFor (name : String) (ops : List (Operation ι)) : List (Operation ι) :=
  ops.filter fun op => op.name = name

/-- What the last call for the name registers. -/
def last? (ops : List (Operation ι)) (name : String) : Option (Registration ι) :=
  (callsFor name ops).getLast?.map Operation.registration

theorem last?_concat (ops : List (Operation ι)) (op : Operation ι) (name : String) :
    last? (ops ++ [op]) name = if op.name = name then some op.registration else last? ops name := by
  unfold last? callsFor
  rw [List.filter_append, List.filter_singleton]
  by_cases h : op.name = name <;> simp [h]

theorem last?_isSome_iff {ops : List (Operation ι)} {name : String} :
    (last? ops name).isSome ↔ ∃ op ∈ ops, op.name = name := by
  simp [last?, callsFor]

theorem resolve?_of (ops : List (Operation ι)) (name : String) :
    (of ops).resolve? name = last? ops name := by
  induction ops using List.reverseRecOn with
  | nil => rfl
  | append_singleton ops op ih =>
    have hstep : of (ops ++ [op]) = (of ops).perform op := List.foldl_append
    rw [hstep, last?_concat, ← ih]
    exact resolve?_register _ _ _ _

theorem eq_of_resolve? {r r' : Registry ι} (h : ∀ name, r.resolve? name = r'.resolve? name) :
    r = r' := by
  cases r
  cases r'
  exact congrArg Registry.mk (SortedMap.ext h)

theorem perform_comm (r : Registry ι) {a b : Operation ι} (h : a.name ≠ b.name) :
    (r.perform a).perform b = (r.perform b).perform a := by
  refine eq_of_resolve? fun name => ?_
  simp only [perform, resolve?_register]
  by_cases ha : a.name = name
  · simp [ha, show b.name ≠ name from fun hb => h (ha.trans hb.symm)]
  · simp [ha]

/-! ## What a registry answers -/

/-- What is asked of the registry is answered by the calls, the last one for a name. -/
structure Answers (r : Registry ι) (ops : List (Operation ι)) : Prop where
  resolve? (name : String) : r.resolve? name = last? ops name
  contains (name : String) : r.contains name = (last? ops name).isSome
  contains_iff (name : String) : r.contains name = true ↔ ∃ op ∈ ops, op.name = name
  ascending : r.names.Pairwise (· < ·)
  mem_names (name : String) : name ∈ r.names ↔ ∃ op ∈ ops, op.name = name
  size : r.size = r.names.length
  isEmpty : r.isEmpty = true ↔ r.size = 0
  /-- In whatever order the entries are listed, sorting them by name gives the names. -/
  listed {listing : List (String × Registration ι)} (h : Lists listing (last? ops)) :
    (listing.map (·.1)).mergeSort = r.names ∧ listing.length = r.size
  /-- Where the registry is the container, a name is dispatched to what the last call chooses in
  that state. -/
  dispatched {family : Family ι} {launch : Launch ι} {site : Site ι}
    (hc : site.settings.container = some r) (role : Role) (o : Options) (name : String)
    (w : World ι) : site.dispatch family launch role o (.named name) w =
      match last? ops name with
      | some registration =>
        launch.invoke (registration.pipelineFor w.state) o (site.level + 1) w
      | none => Exec.raise (.unknownEntry name) w

theorem answers_of_resolve? {r : Registry ι} {ops : List (Operation ι)}
    (h : ∀ name, r.resolve? name = last? ops name) : r.Answers ops where
  resolve? := h
  contains name := congrArg Option.isSome (h name)
  contains_iff name := by
    rw [← last?_isSome_iff, ← h]
    rfl
  ascending := r.entries.keys_ascending
  mem_names name := by
    rw [mem_names_iff, ← last?_isSome_iff, ← h]
    rfl
  size := (List.length_map _).symm
  isEmpty := by
    show r.entries.entries.isEmpty = true ↔ r.entries.entries.length = 0
    rw [List.isEmpty_iff, List.length_eq_zero_iff]
  listed {listing} hl := by
    have hlists : Lists listing r.entries.get? := by
      rw [show r.entries.get? = last? ops from funext h]
      exact hl
    have hsort := SortedMap.mergeSort_of_lists hlists
    refine ⟨hsort,?_⟩
    have hlength := congrArg List.length hsort
    rwa [List.length_mergeSort, List.length_map, SortedMap.keys, List.length_map] at hlength
  dispatched {family launch site} hc role o name w := by
    rw [← h]
    cases hr : r.resolve? name with
    | some registration => exact Site.dispatch_of_standsFor (.named hc hr) role o
    | none =>
      show (site.resolve name >>= fun p => launch.invoke p o (site.level + 1)) w = _
      rw [Site.resolve_of_unknown hc hr]
      rfl

/-- The same calls in another order, but not those for the same name. -/
structure Reordered (ops ops' : List (Operation ι)) : Prop where
  perm : ops.Perm ops'
  callsFor (name : String) : callsFor name ops' = callsFor name ops

theorem reordered_swap (before after : List (Operation ι)) {a b : Operation ι}
    (h : a.name ≠ b.name) : Reordered (before ++ a :: b :: after) (before ++ b :: a :: after) where
  perm := (List.Perm.swap b a after).append_left before
  callsFor name := by
    unfold Registry.callsFor
    simp only [List.filter_append, List.filter_cons]
    by_cases ha : a.name = name
    · simp [ha, show b.name ≠ name from fun hb => h (ha.trans hb.symm)]
    · simp [ha]

/-- Whatever is registered, and under whatever names: a registry answers for each name by what was
registered under it last, and lists just these names, in ascending order. Calls for different names
commute. So if they are made in another order, the registry is the same, with the same answers, and
in every state the same is dispatched. -/
theorem last_wins (ops : List (Operation ι)) : (of ops).Answers ops ∧
    (∀ (r : Registry ι) (a b : Operation ι), a.name ≠ b.name →
      (r.perform a).perform b = (r.perform b).perform a) ∧
    ∀ ops', Reordered ops ops' → (of ops').Answers ops ∧ of ops' = of ops := by
  refine ⟨answers_of_resolve? (resolve?_of ops),fun r _ _ h => r.perform_comm h,fun ops' h => ?_⟩
  have hsame : ∀ name, (of ops').resolve? name = last? ops name := by
    intro name
    rw [resolve?_of, last?, h.callsFor]
    rfl
  exact ⟨answers_of_resolve? hsame,
    eq_of_resolve? fun name => (hsame name).trans (resolve?_of ops name).symm⟩

theorem last_wins_swapped :
    let early : Operation Bool := .pipeline "b" false
    let late : Operation Bool := .entry "b" (.pipeline true)
    let other : Operation Bool := .factory "a" State.failed
    let r := of [early, other, late]
    Reordered [early, late, other] [early, other, late] ∧ other.name ≠ late.name ∧
    (of [early, late, other]).Answers [early, late, other] ∧ r.Answers [early, late, other] ∧
    r = of [early, late, other] ∧ r.names = ["a", "b"] ∧ r.resolve? "b" = some (.pipeline true) := by
  intro early late other r
  have hother : other.name ≠ late.name := by decide
  have hcalls : Reordered [early, late, other] [early, other, late] :=
    reordered_swap [early] [] hother.symm
  obtain ⟨hanswers,_,hreordered⟩ := last_wins [early, late, other]
  obtain ⟨hsame,hr⟩ := hreordered _ hcalls
  exact ⟨hcalls,hother,hanswers,hsame,hr,by decide +kernel,hsame.resolve? "b"⟩

end Registry

end Cascade
