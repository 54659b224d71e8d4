import Cascade.Handler.Program

/-! # Registries

Names for pipelines. A registration names a pipeline or chooses one by the state; a later one
replaces an earlier one of the same name. The names of a registry are those that resolve.
-/
namespace Cascade

inductive Registration (ι : Type) where
  | pipeline (q : ι)
  | choice (pick : State → ι)

def Registration.pipelineFor {ι : Type} (s : State) : Registration ι → ι
  | pipeline q => q
  | choice pick => pick s

/-- Chooses by whether an entry of the state is truthy; a missing one is not. -/
def Registration.byFlag {ι : Type} (key : String) (yes no : ι) : Registration ι :=
  choice fun s => if ((s.get? key).map Json.Value.truthy).getD false then yes else no

def Registration.inspect {ι : Type} (name : ι → String) : Registration ι → String
  | pipeline q => "Operation(" ++ name q ++ ")"
  | choice _ => "Factory"

structure Registry (ι : Type) where
  entries : SortedMap (Registration ι)

namespace Registry

variable {ι : Type}

def empty : Registry ι := ⟨.empty⟩

def register (r : Registry ι) (name : String) (entry : Registration ι) : Registry ι :=
  ⟨r.entries.insert name entry⟩

def ofList (entries : List (String × Registration ι)) : Registry ι := ⟨.ofList entries⟩

def resolve? (r : Registry ι) (name : String) : Option (Registration ι) := r.entries.get? name

def contains (r : Registry ι) (name : String) : Bool := (r.resolve? name).isSome

def names (r : Registry ι) : List String := r.entries.keys

def size (r : Registry ι) : Nat := r.entries.size

def isEmpty (r : Registry ι) : Bool := r.entries.isEmpty

@[simp] theorem resolve?_register (r : Registry ι) (name k : String) (entry : Registration ι) :
    (r.register name entry).resolve? k = if name = k then some entry else r.resolve? k :=
  SortedMap.get?_insert r.entries name k entry

theorem mem_names_iff {r : Registry ι} {name : String} : name ∈ r.names ↔ r.contains name = true :=
  SortedMap.mem_keys_iff

end Registry

end Cascade
