import CodeGraph.Declaration

/-!
# Sources of facts

Where the declarations of compiled sources come from. A source may change a state of type `ω` when
it is asked, as a language server does that keeps documents open.
-/

namespace CodeGraph

structure FactSource (ω : Type) where
  /-- The outermost declarations of the file at a path with this content. -/
  declarations : (path content : String) → ω → Except FactError (List Declaration) × ω
  /-- What there is to complain about in the file at a path. -/
  diagnostics : (path : String) → ω → List String

namespace FactSource

/-- The source that knows nothing and says so. -/
def none {ω : Type} : FactSource ω where
  declarations _ _ w := (.ok [], w)
  diagnostics _ _ :=
    ["No language server available; source declarations were not extracted"]

end FactSource

end CodeGraph
