import CodeGraph.Proofs.ElementTree
import CodeGraph.Proofs.References

/-!
# Packages of a project

A project file is gone through twice for its packages: once for the list of them and once for their
symbols. Both go through the elements inside the root in the order of their tags, however deep they
lie, and take what refers to a package from each, so the list is what the symbols tell
(`packages_of_project`).
-/

namespace CodeGraph

namespace Markup

open Element (families)

/-- The second element lies directly inside the first. -/
def Element.HasChild (p c : Element) : Prop := c ∈ p.children

/-- The descendants are the elements inside, at any depth. -/
theorem Element.mem_descendants_iff {x e : Element} :
    x ∈ e.descendants ↔ Relation.TransGen Element.HasChild e x := by
  rw [descendants_eq, mem_families]
  constructor
  · rintro ⟨c, hc, hx⟩
    have hdown : ∀ x ∈ c.family, Relation.TransGen Element.HasChild e x :=
      forall_mem_family (.single hc) fun p _ hp d hd => hp.tail hd
    exact hdown x hx
  · intro h
    induction h with
    | single hc => exact ⟨_, hc, self_mem_family _⟩
    | tail _ hd ih =>
      obtain ⟨c, hc, hp⟩ := ih
      exact ⟨c, hc, child_mem_family hp hd⟩

/-- The elements of a document are in the order of the tags that start them. -/
theorem labels_of_parse {document : String} {root : Element} (h : parse document = .ok root) :
    ∃ tokens, Token.tokens? 0 (dropMark document.toList) = some tokens ∧
      (root :: root.descendants).map Element.label <+: labels document.toList tokens := by
  rw [parse, parseChars_eq_iff (by simp)] at h
  simp only [Building.result_eq_ok_iff, exists_reached_outside_iff] at h
  obtain ⟨tokens, outer, es, hread, hcontent, hroot⟩ := h
  obtain ⟨others, rfl⟩ := List.head?_eq_some_iff.1 hroot
  refine ⟨tokens, hread, ?_⟩
  rw [hcontent.labels_eq, families, Element.descendants_eq, ← Element.family_eq, List.map_append]
  exact List.prefix_append _ _

end Markup

namespace ProjectFile

open Markup (Element)

/-- The package that an element refers to, and the version it asks for. -/
def package? (e : Element) : Option (String × Option String) :=
  if e.name = "PackageReference" then (include? e).map fun name => (name, version? e) else none

theorem filterMap_told (l : List Symbol) :
    l.filterMap told =
      (l.filter fun x => x.kind = .packageReference).map fun x => (x.name, x.documentation) := by
  induction l with
  | nil => rfl
  | cons x l ih => by_cases hx : x.kind = .packageReference <;> simp [told, hx, ih]

/-- The packages listed for a file are those that its symbols tell, with the versions and in their
order, and none if the file is malformed. They are what the elements inside the root refer to, at
whatever depth, in the order of the tags that start the elements. -/
theorem packages_of_project (f : SourceFile) :
    packageReferences f.content =
      ((extract f).symbols.filter fun x => x.kind = .packageReference).map
        (fun x => (x.name, x.documentation)) ∧
    (∀ e, Markup.parse f.content = .error e →
      packageReferences f.content = [] ∧ extract f = .empty) ∧
    ∀ root, Markup.parse f.content = .ok root →
      packageReferences f.content = root.descendants.filterMap package? ∧
      (∀ e, e ∈ root.descendants ↔ Relation.TransGen Element.HasChild root e) ∧
      ∃ tokens, Markup.Token.tokens? 0 (Markup.dropMark f.content.toList) = some tokens ∧
        (root :: root.descendants).map Element.label <+:
          Markup.labels f.content.toList tokens := by
  refine ⟨(packageReferences_eq f).trans (filterMap_told _), fun e h => ?_, fun root h =>
    ⟨?_, fun e => Element.mem_descendants_iff, Markup.labels_of_parse h⟩⟩
  · simp only [packageReferences, extract, h, and_self]
  · simp only [packageReferences, h, List.filterMap_filter, beq_iff_eq]
    rfl

/-- A package deep inside the document comes before one that is less deep and starts later. -/
example : packageReferences ("<P><G><PackageReference Include=' A ' Version=''/></G>" ++
    "<PackageReference Include='B'><Version> 2 </Version></PackageReference></P>") =
      [("A", none), ("B", some "2")] := by
  cbv

end ProjectFile

end CodeGraph
