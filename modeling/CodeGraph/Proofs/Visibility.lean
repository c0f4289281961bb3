import CodeGraph.Extract.DocumentKind

/-!
# What the filter admits

The minimum is for what sources declare. In documents of the other kinds everything is public, and
only handlers of views are private (`DocumentKind.accessibility_of_mem_extract`). So no minimum
takes anything from them, save from a view (`DocumentKind.admits_of_mem_extract`).
-/

namespace CodeGraph

theorem Accessibility.admits_pub (minimum : Accessibility) :
    Accessibility.pub.admits minimum = true := by
  cases minimum <;> rfl

section Documents

variable (f : SourceFile) {x : Symbol}

theorem Razor.extract_public (h : x ∈ (extract f).symbols) : x.accessibility = .pub := by
  obtain ⟨a, ha, rfl⟩ := List.mem_map.1 h
  obtain ⟨line, -, ha⟩ := List.mem_filterMap.1 ha
  obtain ⟨_, -, rfl⟩ := Option.map_eq_some_iff.1 ha
  rfl

theorem JsonDocument.extract_public (h : x ∈ (extract f).symbols) : x.accessibility = .pub := by
  unfold extract at h
  rcases hv : Json.parse? f.content with _ | v <;> rw [hv] at h
  · cases h
  obtain ⟨a, ha, rfl⟩ := List.mem_map.1 h
  obtain ⟨_, -, rfl⟩ := List.mem_map.1 ha
  rfl

theorem Stylesheet.extract_public (h : x ∈ (extract f).symbols) : x.accessibility = .pub := by
  obtain ⟨a, ha, rfl⟩ := List.mem_map.1 h
  obtain ⟨_, -, rfl⟩ := List.mem_map.1 ha
  rfl

theorem Script.extract_public (h : x ∈ (extract f).symbols) : x.accessibility = .pub := by
  obtain ⟨a, ha, rfl⟩ := List.mem_map.1 h
  rcases List.mem_append.1 ha with ha | ha <;> obtain ⟨_, -, rfl⟩ := List.mem_map.1 ha <;> rfl

theorem Page.extract_public (h : x ∈ (extract f).symbols) : x.accessibility = .pub := by
  obtain ⟨a, ha, rfl⟩ := List.mem_map.1 h
  rcases List.mem_append.1 ha with ha | ha <;> obtain ⟨_, -, rfl⟩ := List.mem_map.1 ha <;> rfl

theorem ProjectFile.extract_public (h : x ∈ (extract f).symbols) : x.accessibility = .pub := by
  unfold extract at h
  rcases hroot : Markup.parse f.content with _ | root <;> simp only [hroot] at h
  · exact absurd h List.not_mem_nil
  obtain ⟨a, ha, rfl⟩ := List.mem_map.1 h
  rcases List.mem_append.1 ha with ha | ha <;> obtain ⟨e, -, h⟩ := List.mem_filterMap.1 ha
  · simp only [property?] at h
    split at h
    · cases h
    · obtain rfl := Option.some.inj h
      rfl
  · simp only [reference?, Option.bind_eq_bind, Option.bind_eq_some_iff] at h
    obtain ⟨kind, -, name, -, h⟩ := h
    split at h <;> obtain rfl := Option.some.inj h <;> rfl

variable {a : Attachment}

mutual

theorem Xml.attachments_public {parent : String} :
    ∀ e : Markup.Element, a ∈ attachments f parent e → a.symbol.accessibility = .pub
  | ⟨_, _, _, _, children⟩, h => by
    rw [attachments, List.mem_cons] at h
    rcases h with rfl | h
    · rfl
    · exact childAttachments_public children h

theorem Xml.childAttachments_public {parent : String} :
    ∀ es : List Markup.Element, a ∈ childAttachments f parent es → a.symbol.accessibility = .pub
  | [], h => by cases h
  | e :: es, h => by
    rw [childAttachments, List.mem_append] at h
    exact h.elim (attachments_public e) (childAttachments_public es)

end

mutual

theorem Xaml.accessibility_of_mem_attachments {parent : String} :
    ∀ e : Markup.Element, a ∈ attachments f parent e →
      a.symbol.accessibility = .pub ∨ a.symbol.accessibility = .priv
  | ⟨_, _, _, _, children⟩, h => by
    rw [attachments, List.mem_append, List.mem_cons] at h
    rcases h with (rfl | h) | h
    · exact .inl rfl
    · obtain ⟨_, -, rfl⟩ := List.mem_map.1 h
      exact .inr rfl
    · exact accessibility_of_mem_childAttachments children h

theorem Xaml.accessibility_of_mem_childAttachments {parent : String} :
    ∀ es : List Markup.Element, a ∈ childAttachments f parent es →
      a.symbol.accessibility = .pub ∨ a.symbol.accessibility = .priv
  | [], h => by cases h
  | e :: es, h => by
    rw [childAttachments, List.mem_append] at h
    exact h.elim (accessibility_of_mem_attachments e) (accessibility_of_mem_childAttachments es)

end

theorem Xml.extract_public (h : x ∈ (extract f).symbols) : x.accessibility = .pub := by
  unfold extract at h
  rcases hroot : Markup.parse f.content with _ | root <;> simp only [hroot] at h
  · exact absurd h List.not_mem_nil
  obtain ⟨a, ha, rfl⟩ := List.mem_map.1 h
  exact attachments_public f root ha

theorem Xaml.accessibility_of_mem_extract (h : x ∈ (extract f).symbols) :
    x.accessibility = .pub ∨ x.accessibility = .priv := by
  unfold extract at h
  rcases hroot : Markup.parse f.content with _ | root <;> simp only [hroot] at h
  · exact absurd h List.not_mem_nil
  obtain ⟨a, ha, rfl⟩ := List.mem_map.1 h
  exact accessibility_of_mem_attachments f root ha

end Documents

namespace DocumentKind

variable {f : SourceFile} {x : Symbol} {k : DocumentKind} {minimum : Accessibility}
  {facts : Except FactError (List Declaration)}

theorem accessibility_of_mem_extract (hk : k ≠ .source)
    (h : x ∈ (k.extract f minimum facts).symbols) :
    x.accessibility = .pub ∨ k = .xaml ∧ x.accessibility = .priv := by
  cases k with
  | source => exact absurd rfl hk
  | razor => exact .inl (Razor.extract_public f h)
  | xaml => exact (Xaml.accessibility_of_mem_extract f h).imp_right fun h => ⟨rfl, h⟩
  | project => exact .inl (ProjectFile.extract_public f h)
  | xml => exact .inl (Xml.extract_public f h)
  | json => exact .inl (JsonDocument.extract_public f h)
  | css => exact .inl (Stylesheet.extract_public f h)
  | javaScript => exact .inl (Script.extract_public f h)
  | html => exact .inl (Page.extract_public f h)

theorem admits_of_mem_extract (hk : k ≠ .source)
    (hxaml : k = .xaml → Accessibility.priv.admits minimum = true)
    (h : x ∈ (k.extract f minimum facts).symbols) : x.accessibility.admits minimum = true := by
  rcases accessibility_of_mem_extract hk h with hpub | ⟨hview, hpriv⟩
  · rw [hpub, Accessibility.admits_pub]
  · rw [hpriv, hxaml hview]

end DocumentKind

end CodeGraph
