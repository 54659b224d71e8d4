import Cascade.Key

/-! # Gates

A gate names keys that have to be there before anything after it runs.
-/
namespace Cascade

structure Gate where
  category : Category
  keys : List Key
deriving DecidableEq

namespace Gate

/-- The gate for keys of that spelling; the first that is not symbolic is a fault. -/
def ofStrings (category : Category) (raws : List String) : Except Fault Gate := do
  return ⟨category, ← raws.mapM Key.ofString⟩

def text (g : Gate) : String := g.category.name ++ "=" ++ Text.bracketed (g.keys.map Key.raw)

def inspect (g : Gate) : String :=
  Text.record "Dependency"
    [("category", g.category.inspect), ("keys", Text.bracketed (g.keys.map Key.inspect))]

end Gate

end Cascade
