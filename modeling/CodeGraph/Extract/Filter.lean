import CodeGraph.Extract.Extraction

/-!
# The accessibility filter

A symbol below the minimum goes, and with it whatever it contains, directly or not, and every
relationship of what went. Containment may run in cycles and may lead to keys without a symbol. Each
step of `removeFrom` takes up a pending key or passes over it; a key that is taken up uses up the
containments that start at it, which is why the steps end.
-/

namespace CodeGraph.Extraction

/-- The keys that the node with this key contains directly. -/
def containedIn (relationships : List Relationship) (key : String) : List String :=
  (relationships.filter fun r => r.type == .contains && r.source == key).map (·.target)

/-- The containments that do not start at a removed key. -/
def unspent (relationships : List Relationship) (removed : List String) : List Relationship :=
  relationships.filter fun r => r.type == .contains && !removed.contains r.source

theorem length_unspent {r : List Relationship} {removed : List String} {key : String}
    (h : removed.contains key = false) :
    (unspent r removed).length
      = (unspent r (key :: removed)).length
        + (containedIn r key).length := by
  induction r with
  | nil => rfl
  | cons a rs ih =>
    simp only [unspent, containedIn, List.filter_cons, List.length_map] at ih ⊢
    by_cases hk : a.source = key
    · subst hk
      cases hc : a.type == RelType.contains <;> simp_all
      omega
    · cases hc : a.type == RelType.contains <;> cases hr : removed.contains a.source <;> simp_all
      omega

/-- Adds the keys `pending` to those removed, and what is contained in them. -/
def removeFrom (relationships : List Relationship) (removed pending : List String) : List String :=
  match pending with
  | [] => removed
  | key :: pending =>
    if removed.contains key then removeFrom relationships removed pending
    else removeFrom relationships (key :: removed) (containedIn relationships key ++ pending)
termination_by (unspent relationships removed).length + pending.length
decreasing_by
  · simp
  · have h : removed.contains key = false := by simpa using ‹¬removed.contains key = true›
    rw [length_unspent (r := relationships) h]
    simp only [List.length_append, List.length_cons]
    omega

/-- The keys of the symbols below the minimum, and of whatever they contain. -/
def removedKeys (e : Extraction) (minimum : Accessibility) : List String :=
  removeFrom e.relationships []
    ((e.symbols.filter fun s => !s.accessibility.admits minimum).map (·.key))

/-- What remains of an extraction under a minimum. -/
def restrict (e : Extraction) (minimum : Accessibility) : Extraction :=
  let removed := e.removedKeys minimum
  { symbols := e.symbols.filter fun s => !removed.contains s.key
    relationships := e.relationships.filter fun r =>
      !removed.contains r.source && !removed.contains r.target }

end CodeGraph.Extraction
