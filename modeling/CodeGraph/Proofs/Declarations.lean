import CodeGraph.Proofs.Filtering
import CodeGraph.Extract.DocumentKind
import Mathlib.Data.List.Nodup

/-!
# Declarations in their surroundings

What becomes of a declaration of a source depends on those it stands in: one with a made-up name
hides all that is inside it, one below the minimum does so unless it is a namespace, and a namespace
is passed over. `occurrences` lists the declarations of a file in pre-order, each with those around
it, and says with `Occurrence.IsShown` what is extracted (`shown_in_preorder`).

The filter works on keys and containments instead. It finds the same declarations as long as
signatures tell them apart: the way to the key of a declaration then leads over the declarations
around it and over nothing else (`isShown_iff_not_falls`, `extract_restrict`).
-/

namespace CodeGraph.Source

open Relation (ReflTransGen)
open Extraction (Contains)

/-! ## Occurrences -/

/-- A declaration with those it stands in, the innermost first. -/
structure Occurrence where
  declaration : Declaration
  around : List Declaration

mutual

/-- A declaration and what is inside it, in pre-order. -/
def occurrencesOf (around : List Declaration) : Declaration → List Occurrence
  | ⟨name, kind, qualifiedName, signature, accessibility, startLine, endLine, documentation,
      children⟩ =>
    let d : Declaration := ⟨name, kind, qualifiedName, signature, accessibility, startLine, endLine,
      documentation, children⟩
    ⟨d, around⟩ :: occurrencesIn (d :: around) children

def occurrencesIn (around : List Declaration) : List Declaration → List Occurrence
  | [] => []
  | d :: rest => occurrencesOf around d ++ occurrencesIn around rest

end

/-- The declarations of a file, in pre-order. -/
def occurrences (l : List Declaration) : List Occurrence := occurrencesIn [] l

/-- The declaration does not hide what is inside it. -/
def IsOpen (minimum : Accessibility) (d : Declaration) : Prop :=
  isSynthetic d.name = false ∧
    (d.kind.isNamespace = false → d.accessibility.admits minimum = true)

instance (minimum : Accessibility) (d : Declaration) : Decidable (IsOpen minimum d) :=
  inferInstanceAs (Decidable (_ ∧ (_ → _)))

/-- The key that the declaration has as a symbol of the file. -/
def keyOf (f : SourceFile) (d : Declaration) : String := Key.symbol f.repoKey d.signature

namespace Occurrence

/-- The declaration is no namespace, and neither it nor one around it hides it. -/
def IsShown (minimum : Accessibility) (o : Occurrence) : Prop :=
  o.declaration.kind.isNamespace = false ∧ ∀ d ∈ o.declaration :: o.around, IsOpen minimum d

instance (minimum : Accessibility) (o : Occurrence) : Decidable (o.IsShown minimum) :=
  inferInstanceAs (Decidable (_ ∧ ∀ d ∈ _, _))

/-- The innermost declaration around it that is no namespace. -/
def holder? (o : Occurrence) : Option Declaration := o.around.find? (!·.kind.isNamespace)

/-- The symbol of the declaration. -/
def symbol (f : SourceFile) (o : Occurrence) : Symbol where
  key := keyOf f o.declaration
  name := o.declaration.name
  kind := o.declaration.kind
  qualifiedName := o.declaration.qualifiedName
  accessibility := o.declaration.accessibility
  fileKey := f.key
  filePath := f.path
  startLine := some o.declaration.startLine
  endLine := some o.declaration.endLine
  documentation := o.declaration.documentation
  comments := none

def link? (f : SourceFile) (o : Occurrence) : Option Relationship :=
  o.holder?.map fun d => ⟨keyOf f d, keyOf f o.declaration, .contains⟩

end Occurrence

/-- What is extracted of the declarations that are shown. -/
def shownOf (f : SourceFile) (minimum : Accessibility) (l : List Occurrence) : Extraction :=
  let shown := l.filter (·.IsShown minimum)
  ⟨shown.map (·.symbol f), shown.filterMap (·.link? f)⟩

section Visiting

variable {f : SourceFile} {minimum : Accessibility} {around : List Declaration} {d : Declaration}

theorem occurrencesOf_eq : ∀ d : Declaration,
    occurrencesOf around d = ⟨d, around⟩ :: occurrencesIn (d :: around) d.children
  | ⟨_, _, _, _, _, _, _, _, _⟩ => by rw [occurrencesOf]

theorem shownOf_append (l m : List Occurrence) :
    shownOf f minimum (l ++ m) = shownOf f minimum l ++ shownOf f minimum m := by
  show Extraction.mk _ _ = Extraction.mk _ _
  simp [shownOf]

theorem shownOf_cons_of_shown {o : Occurrence} (h : o.IsShown minimum) (l : List Occurrence) :
    shownOf f minimum (o :: l) = ⟨[o.symbol f], (o.link? f).toList⟩ ++ shownOf f minimum l := by
  show Extraction.mk _ _ = Extraction.mk _ _
  cases hl : o.link? f <;> simp [shownOf, h, hl]

theorem shownOf_cons_of_not_shown {o : Occurrence} (h : ¬ o.IsShown minimum)
    (l : List Occurrence) : shownOf f minimum (o :: l) = shownOf f minimum l := by
  simp [shownOf, h]

mutual

theorem suffix_around_of (around : List Declaration) : ∀ d : Declaration,
    ∀ o ∈ occurrencesOf around d, around <:+ o.around
  | ⟨_, _, _, _, _, _, _, _, children⟩ => by
    intro o ho
    rw [occurrencesOf] at ho
    rcases List.mem_cons.1 ho with rfl | ho
    · exact List.suffix_rfl
    · exact (List.suffix_cons _ _).trans (suffix_around_in _ children o ho)

theorem suffix_around_in (around : List Declaration) : ∀ l : List Declaration,
    ∀ o ∈ occurrencesIn around l, around <:+ o.around
  | [] => by simp [occurrencesIn]
  | d :: rest => by
    intro o ho
    rw [occurrencesIn] at ho
    rcases List.mem_append.1 ho with ho | ho
    · exact suffix_around_of around d o ho
    · exact suffix_around_in around rest o ho

end

/-- Nothing is shown inside a declaration that hides what is inside it. -/
theorem shownOf_of_hidden (hd : d ∈ around) (hhides : ¬ IsOpen minimum d)
    (l : List Declaration) : shownOf f minimum (occurrencesIn around l) = .empty := by
  have hnone : (occurrencesIn around l).filter (·.IsShown minimum) = [] := by
    rw [List.filter_eq_nil_iff]
    intro o ho hshown
    have hmem := (suffix_around_in around l o ho).subset hd
    exact hhides ((of_decide_eq_true hshown).2 d (List.mem_cons_of_mem _ hmem))
  simp [shownOf, hnone, Extraction.empty]

theorem shownOf_occurrencesOf_of_hidden (hhides : ¬ IsOpen minimum d) :
    shownOf f minimum (occurrencesOf around d) = .empty := by
  rw [occurrencesOf_eq, shownOf_cons_of_not_shown fun h => hhides (h.2 d List.mem_cons_self)]
  exact shownOf_of_hidden List.mem_cons_self hhides _

mutual

theorem visit_eq (around : List Declaration) (hopen : ∀ d ∈ around, IsOpen minimum d) :
    ∀ d : Declaration,
      visit f minimum ((around.find? (!·.kind.isNamespace)).map (keyOf f)) d =
        shownOf f minimum (occurrencesOf around d)
  | ⟨name, kind, qualifiedName, signature, accessibility, startLine, endLine, documentation,
      children⟩ => by
    let d : Declaration := ⟨name, kind, qualifiedName, signature, accessibility, startLine, endLine,
      documentation, children⟩
    by_cases hd : IsOpen minimum d
    · have hinside := visitAll_eq (d :: around) (List.forall_mem_cons.2 ⟨hd, hopen⟩) children
      have hname : isSynthetic name = false := hd.1
      rw [occurrencesOf, visit]
      cases hkind : kind.isNamespace with
      | true =>
        have hnot : ¬ (⟨d, around⟩ : Occurrence).IsShown minimum := by
          simp [Occurrence.IsShown, d, hkind]
        rw [shownOf_cons_of_not_shown hnot, ← hinside]
        simp [d, hkind, hname]
      | false =>
        have hadmits : accessibility.admits minimum = true := hd.2 hkind
        have hshown : (⟨d, around⟩ : Occurrence).IsShown minimum :=
          ⟨hkind, List.forall_mem_cons.2 ⟨hd, hopen⟩⟩
        rw [shownOf_cons_of_shown hshown, ← hinside]
        cases hholder : around.find? (!·.kind.isNamespace) <;>
          simp [d, hkind, hname, hadmits, hholder, Occurrence.symbol, Occurrence.link?,
            Occurrence.holder?, keyOf]
    · rw [shownOf_occurrencesOf_of_hidden hd, visit]
      have hcases : isSynthetic name = false → kind.isNamespace = false ∧
          accessibility.admits minimum = false := by
        simpa [IsOpen, d] using hd
      cases hname : isSynthetic name with
      | true => simp
      | false => simp [hcases hname]

theorem visitAll_eq (around : List Declaration) (hopen : ∀ d ∈ around, IsOpen minimum d) :
    ∀ l : List Declaration,
      visitAll f minimum ((around.find? (!·.kind.isNamespace)).map (keyOf f)) l =
        shownOf f minimum (occurrencesIn around l)
  | [] => rfl
  | d :: rest => by
    rw [visitAll, occurrencesIn, shownOf_append, visit_eq around hopen d,
      visitAll_eq around hopen rest]

end

theorem extract_eq (f : SourceFile) (minimum : Accessibility) (l : List Declaration) :
    extract f minimum (.ok l) = shownOf f minimum (occurrences l) :=
  visitAll_eq [] (List.forall_mem_nil _) l

theorem restrict_shownOf (f : SourceFile) (minimum : Accessibility) (l : List Occurrence) :
    (shownOf f minimum l).restrict minimum = shownOf f minimum l := by
  refine Extraction.restrict_of_admitted fun x hx => ?_
  obtain ⟨o, ho, rfl⟩ := List.mem_map.1 hx
  have hshown := of_decide_eq_true (List.mem_filter.1 ho).2
  exact (hshown.2 _ List.mem_cons_self).2 hshown.1

end Visiting

/-! ## What stands around a declaration -/

section Around

/-- The declaration of one occurrence is directly inside that of the other. -/
def Occurrence.IsIn (o outer : Occurrence) : Prop :=
  o.around = outer.declaration :: outer.around ∧ o.declaration ∈ outer.declaration.children

mutual

theorem mem_occurrencesOf (around : List Declaration) : ∀ {d : Declaration} {o : Occurrence},
    o ∈ occurrencesOf around d ↔ o = ⟨d, around⟩ ∨ ∃ outer ∈ occurrencesOf around d, o.IsIn outer
  | ⟨_, _, _, _, _, _, _, _, children⟩, o => by
    rw [occurrencesOf, List.mem_cons, mem_occurrencesIn]
    simp only [List.mem_cons, exists_eq_or_imp, Occurrence.IsIn]

theorem mem_occurrencesIn (around : List Declaration) : ∀ {l : List Declaration} {o : Occurrence},
    o ∈ occurrencesIn around l ↔
      (o.around = around ∧ o.declaration ∈ l) ∨ ∃ outer ∈ occurrencesIn around l, o.IsIn outer
  | [], o => by simp [occurrencesIn]
  | d :: rest, o => by
    have hd := mem_occurrencesOf around (d := d) (o := o)
    have hrest := mem_occurrencesIn around (l := rest) (o := o)
    have heq : o = ⟨d, around⟩ ↔ o.around = around ∧ o.declaration = d := by
      rcases o with ⟨_, _⟩
      simp [and_comm]
    rw [occurrencesIn, List.mem_append, hd, hrest, heq]
    simp only [List.mem_append, List.mem_cons, or_and_right, exists_or, and_or_left]
    exact or_or_or_comm

end

/-- A declaration in a file is one of the outermost ones, with nothing around it, or stands
directly in another one. -/
theorem mem_occurrences {l : List Declaration} {o : Occurrence} : o ∈ occurrences l ↔
    (o.around = [] ∧ o.declaration ∈ l) ∨ ∃ outer ∈ occurrences l, o.IsIn outer :=
  mem_occurrencesIn []

/-- Whatever is around a declaration occurs itself, with what is further out around it. -/
theorem mem_occurrences_of_around {l : List Declaration} {o : Occurrence} (ho : o ∈ occurrences l)
    {inner outer : List Declaration} {d : Declaration} (h : o.around = inner ++ d :: outer) :
    ⟨d, outer⟩ ∈ occurrences l := by
  induction inner generalizing o with
  | nil =>
    rcases mem_occurrences.1 ho with ⟨hnone, -⟩ | ⟨p, hp, haround, -⟩
    · simp [hnone] at h
    · rw [haround] at h
      obtain ⟨rfl, rfl⟩ := List.cons_eq_cons.1 h
      exact hp
  | cons a inner ih =>
    rcases mem_occurrences.1 ho with ⟨hnone, -⟩ | ⟨p, hp, haround, -⟩
    · simp [hnone] at h
    · rw [haround] at h
      exact ih hp (List.cons_eq_cons.1 h).2

/-- The other occurrence is the innermost around this one that is no namespace. -/
structure Occurrence.IsHeldBy (o outer : Occurrence) : Prop where
  innermost : ∃ inner, o.around = inner ++ outer.declaration :: outer.around ∧
    ∀ d ∈ inner, d.kind.isNamespace = true
  kind : outer.declaration.kind.isNamespace = false

theorem exists_holder {l : List Declaration} {o : Occurrence} {d : Declaration}
    (ho : o ∈ occurrences l) (h : o.holder? = some d) :
    ∃ outer ∈ occurrences l, outer.declaration = d ∧ o.IsHeldBy outer := by
  obtain ⟨hkind, inner, outer, haround, hinner⟩ := List.find?_eq_some_iff_append.1 h
  simp only [Bool.not_eq_true', Bool.not_not] at hkind hinner
  exact ⟨⟨d, outer⟩, mem_occurrences_of_around ho haround, rfl, ⟨inner, haround, hinner⟩, hkind⟩

theorem isOpen_iff {minimum : Accessibility} {d : Declaration} (h : IsOpen .notApplicable d) :
    IsOpen minimum d ↔
      (d.kind.isNamespace = false → d.accessibility.admits minimum = true) :=
  and_iff_right h.1

variable {minimum : Accessibility} {o outer : Occurrence}

theorem Occurrence.IsShown.notApplicable (h : o.IsShown minimum) : o.IsShown .notApplicable :=
  ⟨h.1, fun d hd => ⟨(h.2 d hd).1, fun _ => Accessibility.admits_notApplicable _⟩⟩

/-- A declaration that a made-up name does not hide is shown if it is admitted and what holds it is
shown. -/
theorem isShown_iff_of_held (h : o.IsShown .notApplicable) (hheld : o.IsHeldBy outer) :
    o.IsShown minimum ↔
      o.declaration.accessibility.admits minimum = true ∧ outer.IsShown minimum := by
  obtain ⟨⟨inner, haround, hinner⟩, hkind⟩ := hheld
  constructor
  · intro hshown
    refine ⟨(hshown.2 _ List.mem_cons_self).2 h.1, hkind, fun d hd => hshown.2 d ?_⟩
    rw [haround]
    exact List.mem_cons_of_mem _ (List.mem_append_right _ hd)
  · rintro ⟨hadmits, houter⟩
    refine ⟨h.1, fun d hd => (isOpen_iff (h.2 d hd)).2 fun hnot => ?_⟩
    rw [haround, List.mem_cons, List.mem_append] at hd
    rcases hd with rfl | hd | hd
    · exact hadmits
    · rw [hinner d hd] at hnot
      cases hnot
    · exact (houter.2 d hd).2 hnot

theorem isShown_iff_of_holder?_eq_none (h : o.IsShown .notApplicable) (hnone : o.holder? = none) :
    o.IsShown minimum ↔ o.declaration.accessibility.admits minimum = true := by
  refine ⟨fun hshown => (hshown.2 _ List.mem_cons_self).2 h.1, fun hadmits => ⟨h.1, fun d hd => ?_⟩⟩
  refine (isOpen_iff (h.2 d hd)).2 fun hnot => ?_
  rcases List.mem_cons.1 hd with rfl | hd
  · exact hadmits
  · have hns := List.find?_eq_none.1 hnone d hd
    simp [hnot] at hns

end Around

/-! ## Filtering by keys -/

section Filtering

variable {f : SourceFile} {m : Accessibility} {l : List Declaration}

/-- No two declarations of the file have one signature, namespaces apart. -/
def HaveOwnSignatures (l : List Declaration) : Prop :=
  (((occurrences l).filter fun o => !o.declaration.kind.isNamespace).map
    (·.declaration.signature)).Nodup

theorem keyOf_inj {d d' : Declaration} : keyOf f d = keyOf f d' ↔ d.signature = d'.signature := by
  show f.repoKey ++ ":" ++ d.signature = f.repoKey ++ ":" ++ d'.signature ↔ _
  simp only [← String.toList_inj, String.toList_append, List.append_cancel_left_eq]

theorem HaveOwnSignatures.eq_of_keyOf (hown : HaveOwnSignatures l) {o o' : Occurrence}
    (ho : o ∈ occurrences l) (ho' : o' ∈ occurrences l)
    (hkind : o.declaration.kind.isNamespace = false)
    (hkind' : o'.declaration.kind.isNamespace = false)
    (h : keyOf f o.declaration = keyOf f o'.declaration) : o = o' := by
  refine List.inj_on_of_nodup_map hown (List.mem_filter.2 ⟨ho, ?_⟩) (List.mem_filter.2 ⟨ho', ?_⟩)
    (keyOf_inj.1 h)
  · rw [hkind]; rfl
  · rw [hkind']; rfl

/-- What is extracted without a minimum. -/
def whole (f : SourceFile) (l : List Declaration) : Extraction :=
  shownOf f .notApplicable (occurrences l)

theorem mem_symbols_whole {x : Symbol} : x ∈ (whole f l).symbols ↔
    ∃ o ∈ occurrences l, o.IsShown .notApplicable ∧ o.symbol f = x := by
  simp only [whole, shownOf, List.mem_map, List.mem_filter, decide_eq_true_eq, and_assoc]

theorem mem_relationships_whole {r : Relationship} : r ∈ (whole f l).relationships ↔
    ∃ o ∈ occurrences l, o.IsShown .notApplicable ∧ o.link? f = some r := by
  simp only [whole, shownOf, List.mem_filterMap, List.mem_filter, decide_eq_true_eq, and_assoc]

theorem link?_eq_some {o : Occurrence} {r : Relationship} (ho : o ∈ occurrences l)
    (h : o.link? f = some r) :
    ∃ outer ∈ occurrences l, o.IsHeldBy outer ∧
      r = ⟨keyOf f outer.declaration, keyOf f o.declaration, .contains⟩ := by
  obtain ⟨d, hd, rfl⟩ := Option.map_eq_some_iff.1 h
  obtain ⟨outer, houter, rfl, hheld⟩ := exists_holder ho hd
  exact ⟨outer, houter, hheld, rfl⟩

/-- The key of a declaration that is not shown falls. -/
theorem falls_of_not_shown {o : Occurrence} (ho : o ∈ occurrences l) (h : o.IsShown .notApplicable)
    (hnot : ¬ o.IsShown m) : (whole f l).Falls m (keyOf f o.declaration) := by
  by_cases hadmits : o.declaration.accessibility.admits m = true
  · cases hholder : o.holder? with
    | none => exact absurd ((isShown_iff_of_holder?_eq_none h hholder).2 hadmits) hnot
    | some d =>
      obtain ⟨outer, houter, rfl, hheld⟩ := exists_holder ho hholder
      have houter₀ := ((isShown_iff_of_held h hheld).1 h).2
      have hfalls := falls_of_not_shown houter houter₀ fun houter' =>
        hnot ((isShown_iff_of_held h hheld).2 ⟨hadmits, houter'⟩)
      refine hfalls.of_contains (.single ?_)
      exact mem_relationships_whole.2 ⟨o, ho, h, by rw [Occurrence.link?, hholder]; rfl⟩
  · rw [Bool.not_eq_true] at hadmits
    exact ⟨o.symbol f, mem_symbols_whole.2 ⟨o, ho, h, rfl⟩, hadmits, .refl⟩
termination_by o.around.length
decreasing_by
  obtain ⟨inner, haround, -⟩ := hheld.innermost
  rw [haround, List.length_append, List.length_cons]
  omega

theorem not_shown_of_falls (hown : HaveOwnSignatures l) {key : String}
    (hfalls : (whole f l).Falls m key) :
    ∀ o ∈ occurrences l, o.IsShown .notApplicable → keyOf f o.declaration = key →
      ¬ o.IsShown m := by
  obtain ⟨x, hx, hbelow, hway⟩ := hfalls
  induction hway with
  | refl =>
    rintro o ho h hkey hshown
    obtain ⟨o', ho', h', rfl⟩ := mem_symbols_whole.1 hx
    obtain rfl := hown.eq_of_keyOf ho ho' h.1 h'.1 hkey
    have hadmits := (hshown.2 _ List.mem_cons_self).2 h.1
    rw [show o.declaration.accessibility.admits m = false from hbelow] at hadmits
    cases hadmits
  | tail _ hab ih =>
    rintro o ho h hkey hshown
    obtain ⟨o', ho', h', hlink⟩ := mem_relationships_whole.1 hab
    obtain ⟨outer, houter, hheld, hr⟩ := link?_eq_some ho' hlink
    rw [Relationship.mk.injEq] at hr
    obtain ⟨rfl, rfl, -⟩ := hr
    obtain rfl := hown.eq_of_keyOf ho ho' h.1 h'.1 hkey
    have houter₀ := ((isShown_iff_of_held h hheld).1 h).2
    exact ih outer houter houter₀ rfl ((isShown_iff_of_held h hheld).1 hshown).2

theorem isShown_iff_not_falls {o : Occurrence} (f : SourceFile) (hown : HaveOwnSignatures l)
    (ho : o ∈ occurrences l) : o.IsShown m ↔
      o.IsShown .notApplicable ∧ ¬ (whole f l).Falls m (keyOf f o.declaration) := by
  constructor
  · intro hshown
    exact ⟨hshown.notApplicable, fun hfalls =>
      not_shown_of_falls hown hfalls o ho hshown.notApplicable rfl hshown⟩
  · rintro ⟨h, hstays⟩
    by_contra hnot
    exact hstays (falls_of_not_shown ho h hnot)

/-- Filtering what is extracted without a minimum leaves what is extracted under the minimum. -/
theorem restrict_whole (hown : HaveOwnSignatures l) :
    (whole f l).restrict m = shownOf f m (occurrences l) := by
  have hsymbols : ((whole f l).restrict m).symbols = (shownOf f m (occurrences l)).symbols := by
    rw [Extraction.symbols_restrict]
    show List.filter _ (List.map _ _) = List.map _ _
    rw [List.filter_map, List.filter_filter]
    refine congrArg _ (List.filter_congr fun o ho => ?_)
    have hiff := isShown_iff_not_falls (m := m) f hown ho
    rw [Bool.eq_iff_iff, Bool.and_eq_true, and_comm, Function.comp_apply, decide_eq_true_eq,
      decide_eq_true_eq, decide_eq_true_eq]
    exact hiff.symm
  have hrelationships : ((whole f l).restrict m).relationships =
      (shownOf f m (occurrences l)).relationships := by
    rw [Extraction.relationships_restrict]
    show List.filter _ (List.filterMap _ _) = List.filterMap _ _
    rw [List.filter_filterMap, List.filterMap_filter, List.filterMap_filter]
    refine List.filterMap_congr fun o ho => ?_
    by_cases h : o.IsShown .notApplicable
    · cases hlink : o.link? f with
      | none => simp
      | some r =>
        obtain ⟨outer, houter, hheld, rfl⟩ := link?_eq_some ho hlink
        have htarget := (isShown_iff_not_falls (m := m) f hown ho).trans (and_iff_right h)
        -- What holds a declaration that is shown is shown as well, so the inner end decides.
        have hends : (¬ (whole f l).Falls m (keyOf f outer.declaration) ∧
            ¬ (whole f l).Falls m (keyOf f o.declaration)) ↔ o.IsShown m := by
          refine ⟨fun hboth => htarget.2 hboth.2, fun hshown => ⟨?_, htarget.1 hshown⟩⟩
          have houter' := ((isShown_iff_of_held h hheld).1 hshown).2
          exact ((isShown_iff_not_falls f hown houter).1 houter').2
        simp [h, hends, Option.filter]
    · simp [h, mt Occurrence.IsShown.notApplicable h]
  exact congrArg₂ Extraction.mk hsymbols hrelationships

end Filtering

/-! ## What is extracted -/

/-- The declarations that are no namespace, that no made-up name hides and that are admitted, like
all around them that are no namespace, become the symbols of a file, in pre-order. Each of them is
contained in the innermost declaration around it that is no namespace, if there is one, and nothing
else is related. -/
theorem shown_in_preorder (f : SourceFile) (minimum : Accessibility) (l : List Declaration) :
    let shown := (occurrences l).filter (·.IsShown minimum)
    (extract f minimum (.ok l)).symbols = shown.map (·.symbol f) ∧
    (extract f minimum (.ok l)).relationships = shown.filterMap (·.link? f) ∧
    ∀ o, o ∈ occurrences l ↔
      (o.around = [] ∧ o.declaration ∈ l) ∨ ∃ outer ∈ occurrences l, o.IsIn outer := by
  rw [extract_eq]
  exact ⟨rfl, rfl, fun _ => mem_occurrences⟩

/-- Visiting under a minimum is visiting all and filtering afterwards. So the filter leaves what is
extracted of a source as it is. -/
theorem extract_restrict (f : SourceFile) (minimum : Accessibility) {l : List Declaration}
    (hown : HaveOwnSignatures l) :
    extract f minimum (.ok l) = (extract f .notApplicable (.ok l)).restrict minimum ∧
    (extract f minimum (.ok l)).restrict minimum = extract f minimum (.ok l) ∧
    (DocumentKind.ofPath? f.path = some .source →
      f.extract minimum (.ok l) = extract f minimum (.ok l)) := by
  have hagain : (extract f minimum (.ok l)).restrict minimum = extract f minimum (.ok l) := by
    rw [extract_eq, restrict_shownOf]
  refine ⟨?_, hagain, fun hkind => ?_⟩
  · rw [extract_eq, extract_eq]
    exact (restrict_whole hown).symm
  · simp only [SourceFile.extract, hkind, DocumentKind.extract, hagain]

/-- A namespace with a class and a private member of it, a class below the minimum with a public
member, and a class with a made-up name. -/
theorem extract_restrict_of_namespace :
    let f : SourceFile := ⟨"r", "r:C.cs", "/w/C.cs", ""⟩
    let decl (kind : SymbolKind) (name : String) (accessibility : Accessibility)
        (children : List Declaration) : Declaration :=
      ⟨name, kind, name, name, accessibility, 1, 1, none, children⟩
    let l := [decl .namespaceDecl "N" .priv
      [decl .classDecl "C" .pub [decl .field "f" .priv []],
       decl .classDecl "D" .internal [decl .method "m" .pub []],
       decl .classDecl "<G>" .pub [decl .method "h" .pub []]]]
    HaveOwnSignatures l ∧
    (extract f .notApplicable (.ok l)).symbols.map (·.key) = ["r:C", "r:f", "r:D", "r:m"] ∧
    (extract f .pub (.ok l)).symbols.map (·.key) = ["r:C"] ∧
    extract f .pub (.ok l) = (extract f .notApplicable (.ok l)).restrict .pub ∧
    f.extract .pub (.ok l) = extract f .pub (.ok l) := by
  intro f decl l
  have hown : HaveOwnSignatures l := by
    unfold HaveOwnSignatures
    decide +kernel
  obtain ⟨hfilter, -, hsource⟩ := extract_restrict f .pub hown
  exact ⟨hown, by decide +kernel, by decide +kernel, hfilter, hsource (by decide +kernel)⟩

end CodeGraph.Source
