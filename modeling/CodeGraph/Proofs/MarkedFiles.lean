import CodeGraph.Proofs.Filtering
import CodeGraph.Proofs.KeysApart
import CodeGraph.Proofs.MarkedTrees
import CodeGraph.Proofs.Visibility

/-!
# Marked files

A mark in front of a file may change what a run finds in it. Whether it does depends on the kind of
the file, and for each kind there is a condition on the text under which it does not
(`DocumentKind.PassesOverMark`). Nothing else decides, as the accessibility filter takes away
nothing that would hide a difference (`extraction_marked_iff`).
-/

namespace CodeGraph

open Text (mark markBytes)

/-! ## Kinds of documents -/

namespace DocumentKind

/-- The text is read the same with a mark in front. Scripts and pages always are; of sources nothing
is said, which are not read here. -/
inductive PassesOverMark : DocumentKind → List Char → Prop
  | razor {l : List Char} (h : Razor.PassesOverMark l) : PassesOverMark .razor l
  | xaml {l : List Char} (h : Markup.KeepsLines l) : PassesOverMark .xaml l
  | project {l : List Char} (h : ProjectFile.PassesOverMark l) : PassesOverMark .project l
  | xml {l : List Char} (h : Markup.KeepsLines l) : PassesOverMark .xml l
  | json {l : List Char} (h : JsonDocument.PassesOverMark l) : PassesOverMark .json l
  | css {l : List Char} (h : Stylesheet.PassesOverMark l) : PassesOverMark .css l
  | javaScript (l : List Char) : PassesOverMark .javaScript l
  | html (l : List Char) : PassesOverMark .html l

theorem extract_marked_iff {k : DocumentKind} (hk : k ≠ .source) {f : SourceFile}
    (h : f.content.toList.head? ≠ some mark) (minimum : Accessibility)
    (facts : Except FactError (List Declaration)) :
    k.extract f.marked minimum facts = k.extract f minimum facts ↔
      k.PassesOverMark f.content.toList := by
  cases k with
  | source => exact absurd rfl hk
  | razor => exact (Razor.extract_marked_iff f).trans ⟨.razor, fun (.razor h) => h⟩
  | xaml => exact (Xaml.extract_marked_iff h).trans ⟨.xaml, fun (.xaml h) => h⟩
  | project => exact (ProjectFile.extract_marked_iff h).trans ⟨.project, fun (.project h) => h⟩
  | xml => exact (Xml.extract_marked_iff h).trans ⟨.xml, fun (.xml h) => h⟩
  | json => exact (JsonDocument.extract_marked_iff f).trans ⟨.json, fun (.json h) => h⟩
  | css => exact (Stylesheet.extract_marked_iff f).trans ⟨.css, fun (.css h) => h⟩
  | javaScript => exact iff_of_true (Script.extract_marked f) (.javaScript _)
  | html => exact iff_of_true (Page.extract_marked f) (.html _)

end DocumentKind

/-! ## Files -/

namespace Run

open CodeGraph.Path (DiscoveredFile)

variable {ε : Type} (s : Surroundings ε) (o : Options) (file : DiscoveredFile)
  (bytes : List UInt8) (e : ε)

theorem extraction_visit {k : DocumentKind} (hkind : DocumentKind.ofPath? file.path = some k)
    (hk : k ≠ .source) : (visit s o file bytes e).1.extraction =
      (k.extract (sourceOf o file bytes) o.minimum (.ok [])).restrict o.minimum := by
  have hsource : some k ≠ some DocumentKind.source := by simpa using hk
  have hfacts : factsAt s o file bytes e = .ok [] := by
    simp only [factsAt, declarationsOf, hkind, if_neg hsource]
  simp only [visit_extraction, hfacts, SourceFile.extract, sourceOf, hkind]

theorem sourceOf_marked :
    sourceOf o file (markBytes ++ bytes) = (sourceOf o file bytes).marked := by
  simp only [sourceOf, SourceFile.marked, SourceFile.mk.injEq, true_and]
  rw [← Text.toList_decodeLossy_markBytes, String.ofList_toList]

/-- A run that finds a mark in front of a file takes the same symbols and relationships from it as
without the mark, whatever the minimum, if and only if the text passes over the mark as a text of
its kind. If it does not, what is taken differs under each minimum by which nothing in the file is
left out. An XML document, a view or a project passes over the mark as soon as all of its tags have
room for it. -/
theorem extraction_marked_iff {k : DocumentKind}
    (hkind : DocumentKind.ofPath? file.path = some k) (hk : k ≠ .source)
    (hmark : (Text.decodeLossy bytes).toList.head? ≠ some mark) :
    let text := (Text.decodeLossy bytes).toList
    let found := fun minimum bytes => (visit s { o with minimum } file bytes e).1.extraction
    (k.PassesOverMark text ↔
      ∀ minimum, found minimum (markBytes ++ bytes) = found minimum bytes) ∧
    (∀ minimum, (k = .xaml → Accessibility.priv.admits minimum = true) →
      (found minimum (markBytes ++ bytes) = found minimum bytes ↔ k.PassesOverMark text)) ∧
    (k = .xml ∨ k = .xaml ∨ k = .project → ∀ tokens,
      Markup.Token.tokens? 0 text = some tokens →
      (∀ t ∈ tokens, ∀ x ∈ t.tag?, Markup.HasRoom x.1) → k.PassesOverMark text) := by
  intro text found
  let f := sourceOf o file bytes
  have hfound (minimum : Accessibility) : found minimum bytes =
      (k.extract f minimum (.ok [])).restrict minimum := extraction_visit s _ file bytes e hkind hk
  have hfound' (minimum : Accessibility) : found minimum (markBytes ++ bytes) =
      (k.extract f.marked minimum (.ok [])).restrict minimum := by
    rw [← sourceOf_marked]
    exact extraction_visit s _ file _ e hkind hk
  have hextract (minimum : Accessibility) : _ :=
    DocumentKind.extract_marked_iff hk (f := f) hmark minimum (.ok [])
  have hdiffers (minimum : Accessibility)
      (hxaml : k = .xaml → Accessibility.priv.admits minimum = true) :
      found minimum (markBytes ++ bytes) = found minimum bytes ↔ k.PassesOverMark text := by
    rw [hfound, hfound', Extraction.restrict_of_admitted fun x hx =>
        DocumentKind.admits_of_mem_extract hk hxaml hx,
      Extraction.restrict_of_admitted fun x hx => DocumentKind.admits_of_mem_extract hk hxaml hx]
    exact hextract minimum
  refine ⟨⟨fun h minimum => ?_, fun h => ?_⟩, hdiffers, fun hmarkup tokens hread hroom => ?_⟩
  · rw [hfound, hfound', (hextract minimum).2 h]
  · exact (hdiffers .notApplicable fun _ => Accessibility.admits_notApplicable _).1 (h _)
  · have hkeeps := Markup.keepsLines_of_room hmark hread hroom
    rcases hmarkup with rfl | rfl | rfl
    · exact .xml hkeeps
    · exact .xaml hkeeps
    · exact .project (ProjectFile.passesOverMark_of_keepsLines hkeeps)

/-- The second tag of its name has no room, so with the mark both are kept with the first line. -/
theorem extraction_marked_of_short_tag :
    let s : Surroundings Unit :=
      (SourceTree.ofTexts "/" "/w" []).surroundings (fun _ _ => .ok []) none
    let file : DiscoveredFile := ⟨"/w/a.xml", "a.xml"⟩
    let bytes := Text.encode "<r><a/>\n<a></a></r>"
    let found := fun minimum bytes => (visit s { root := "/w", repoKey := "r", minimum } file bytes
      ()).1.extraction
    DocumentKind.ofPath? file.path = some .xml ∧ DocumentKind.xml ≠ .source ∧
    (Text.decodeLossy bytes).toList.head? ≠ some mark ∧
    (∀ minimum, found minimum (markBytes ++ bytes) ≠ found minimum bytes) ∧
    (found .priv (markBytes ++ bytes)).symbols.map (·.key) = ["r:a.xml:XmlElement:r:1",
      "r:a.xml:XmlElement:a:1", "r:a.xml:XmlElement:a:1"] := by
  intro s file bytes found
  have hkind : DocumentKind.ofPath? file.path = some .xml := by decide +kernel
  have hk : DocumentKind.xml ≠ .source := by decide
  have htext : (Text.decodeLossy bytes).toList = "<r><a/>\n<a></a></r>".toList :=
    congrArg String.toList (Text.decodeLossy_encode _)
  have hmark : (Text.decodeLossy bytes).toList.head? ≠ some mark := by
    rw [htext]
    decide
  refine ⟨hkind, hk, hmark, fun minimum heq => ?_, by decide +kernel⟩
  obtain ⟨-, hdiffers, -⟩ :=
    extraction_marked_iff s { root := "/w", repoKey := "r" } file bytes () hkind hk hmark
  have hpasses := (hdiffers minimum fun h => by cases h).1 heq
  rw [htext] at hpasses
  cases hpasses with
  | xml hkeeps =>
    have htree : Markup.stopTree "<r><a/>\n<a></a></r>".toList = .ok ⟨"r", [], "", 3,
      [⟨"a", [], "", 7, []⟩, ⟨"a", [], "", 11, []⟩]⟩ := by decide +kernel
    have hlost : ¬ Markup.KeepsLine "<r><a/>\n<a></a></r>".toList 11 := by
      unfold Markup.KeepsLine
      decide
    exact hlost (hkeeps _ htree ⟨"a", [], "", 11, []⟩ (by
      simp [Markup.Element.family, Markup.Element.families]))

end Run

end CodeGraph
