import CodeGraph.Extract.Json
import CodeGraph.Proofs.Members
import CodeGraph.Text.Front
import CodeGraph.Text.Natural
import Mathlib.Data.List.Nodup

/-!
# Paths of members

A document yields one symbol for each member of each object in it, whose key ends in the path of the
member. A path is read from its front: a name goes on until the next full stop or bracket. So as
long as no name is empty or holds one of these, there is one way to a path and the keys are apart
(`members_of_document`).
-/

namespace CodeGraph.JsonDocument

open Json (Member Step Value)

/-- The path of what a step leads to from the value at `path`. -/
def extend (path : String) : Step → String
  | .member name => memberPath path name
  | .item i => itemPath path i

/-- The path of the value at the end of a way that starts at `path`. -/
def pathFrom (path : String) (way : List Step) : String := way.foldl extend path

/-- The symbol of a member. -/
def symbolOf (f : SourceFile) (m : Member) : Symbol :=
  let path := pathFrom "" m.way
  f.element (Key.element f.key SymbolKind.jsonProperty.name path none) m.name .jsonProperty path
    none

/-- A name that ends where the path goes on. -/
def IsPlain (name : String) : Prop := name ≠ "" ∧ '.' ∉ name.toList ∧ '[' ∉ name.toList

instance : DecidablePred IsPlain := fun _ => inferInstanceAs (Decidable (_ ∧ _))

/-! ## Every member has its symbol -/

mutual

theorem properties_eq (path : String) (v : Value) :
    properties path v = v.members.map fun m => (m.name, pathFrom path m.way) := by
  cases v with
  | object ms => exact memberProperties_eq path ms
  | array items => exact itemProperties_eq path 0 items
  | _ => rfl

theorem memberProperties_eq (path : String) (ms : List (String × Value)) :
    memberProperties path ms =
      (Json.membersOf ms).map fun m => (m.name, pathFrom path m.way) := by
  match ms with
  | [] => rfl
  | (name, v) :: ms =>
    rw [memberProperties, properties_eq _ v, memberProperties_eq path ms, Json.membersOf]
    simp only [List.map_cons, List.map_append, List.map_map]
    rfl

theorem itemProperties_eq (path : String) (i : Nat) (items : List Value) :
    itemProperties path i items =
      (Json.membersIn i items).map fun m => (m.name, pathFrom path m.way) := by
  match items with
  | [] => rfl
  | v :: items =>
    rw [itemProperties, properties_eq _ v, itemProperties_eq path (i + 1) items, Json.membersIn]
    simp only [List.map_append, List.map_map]
    rfl

end

/-! ## A path has one way -/

/-- The character with which a step goes on from a path that is not empty. -/
def mark : Step → Char
  | .member _ => '.'
  | .item _ => '['

/-- What a step adds to a path behind its mark. -/
def body : Step → List Char
  | .member name => name.toList
  | .item i => (toString i).toList ++ [']']

def isMark (c : Char) : Bool := c == '.' || c == '['

/-- What a way adds to a path that is not empty. -/
def marked (way : List Step) : List Char := way.flatMap fun s => mark s :: body s

theorem isMark_mark (s : Step) : isMark (mark s) = true := by cases s <;> rfl

theorem isMark_head?_marked (way : List Step) : ∀ c ∈ (marked way).head?, isMark c = true := by
  cases way with
  | nil => simp [marked]
  | cons s way => simpa [marked] using isMark_mark s

theorem toList_extend {path : String} (h : path ≠ "") (s : Step) :
    (extend path s).toList = path.toList ++ mark s :: body s := by
  cases s with
  | member name =>
    rw [extend, memberPath, if_neg h]
    show (path ++ "." ++ name).toList = _
    simp [String.toList_append, mark, body]
  | item i =>
    show (path ++ "[" ++ toString i ++ "]").toList = _
    simp [String.toList_append, mark, body]

theorem toList_pathFrom {path : String} (h : path ≠ "") (way : List Step) :
    (pathFrom path way).toList = path.toList ++ marked way := by
  induction way generalizing path with
  | nil => simp [pathFrom, marked]
  | cons s way ih =>
    have hpath := toList_extend h s
    have hne : extend path s ≠ "" := by
      intro heq
      rw [heq] at hpath
      simp at hpath
    show (pathFrom (extend path s) way).toList = _
    rw [ih hne, hpath]
    simp [marked]

theorem toList_pathFrom_member {name : String} (h : name ≠ "") (way : List Step) :
    (pathFrom "" (.member name :: way)).toList = name.toList ++ marked way := by
  show (pathFrom name way).toList = _
  rw [toList_pathFrom h]

theorem toList_pathFrom_item (i : Nat) (way : List Step) :
    (pathFrom "" (.item i :: way)).toList = marked (.item i :: way) := by
  have hroot : extend "" (.item i) = "[" ++ toString i ++ "]" := by
    show "" ++ "[" ++ toString i ++ "]" = _
    rw [String.empty_append]
  show (pathFrom (extend "" (.item i)) way).toList = _
  rw [toList_pathFrom (by simp [hroot]), hroot]
  simp [String.toList_append, marked, mark, body]

/-- Of what the step adds only the first character is a mark. -/
def IsClear (s : Step) : Prop := ∀ c ∈ body s, isMark c = false

theorem isClear_item (i : Nat) : IsClear (.item i) := by
  intro c hc
  rcases List.mem_append.1 hc with hc | hc
  · have hdigit := Text.isDigit_of_mem_toString hc
    have hne : c ≠ '.' ∧ c ≠ '[' := by
      constructor <;> rintro rfl <;> cases hdigit
    simp [isMark, hne]
  · obtain rfl := List.mem_singleton.1 hc
    rfl

theorem isClear_member {name : String} (h : IsPlain name) : IsClear (.member name) := by
  obtain ⟨-, hdot, hbracket⟩ := h
  intro c hc
  have hne : c ≠ '.' ∧ c ≠ '[' := ⟨fun heq => hdot (heq ▸ hc), fun heq => hbracket (heq ▸ hc)⟩
  simp [isMark, hne]

theorem step_inj {s s' : Step} (hmark : mark s = mark s') (hbody : body s = body s') : s = s' := by
  cases s with
  | member name =>
    cases s' with
    | member name' => rw [String.toList_inj.1 hbody]
    | item i => cases hmark
  | item i =>
    cases s' with
    | member name => cases hmark
    | item j => rw [Text.toString_inj (List.append_cancel_right hbody)]

theorem marked_inj : ∀ {way way' : List Step}, (∀ s ∈ way, IsClear s) → (∀ s ∈ way', IsClear s) →
    marked way = marked way' → way = way'
  | [], [], _, _, _ => rfl
  | [], _ :: _, _, _, h => nomatch h
  | _ :: _, [], _, _, h => nomatch h
  | s :: way, s' :: way', hway, hway', h => by
    obtain ⟨hs, hway⟩ := List.forall_mem_cons.1 hway
    obtain ⟨hs', hway'⟩ := List.forall_mem_cons.1 hway'
    have hnext : ∀ w, ∀ c ∈ (marked w).head?, (!isMark c) = false := by
      intro w c hc
      simp [isMark_head?_marked w c hc]
    obtain ⟨hmark, hrest⟩ := List.cons.inj h
    obtain ⟨hbody, hrest⟩ := Text.append_inj_of_head (p := (!isMark ·))
      (by simpa [IsClear] using hs) (by simpa [IsClear] using hs') (hnext way) (hnext way') hrest
    rw [step_inj hmark hbody, marked_inj hway hway' hrest]

/-- A way is plain if all names on it are. -/
def IsPlainWay (way : List Step) : Prop := ∀ name, .member name ∈ way → IsPlain name

theorem isClear_of_isPlainWay {way : List Step} (h : IsPlainWay way) : ∀ s ∈ way, IsClear s := by
  rintro (name | i) hs
  · exact isClear_member (h name hs)
  · exact isClear_item i

theorem toList_ne_bracket {name : String} (h : IsPlain name) (l m : List Char) :
    name.toList ++ l ≠ '[' :: m := by
  obtain ⟨hne, -, hbracket⟩ := h
  obtain ⟨c, r, hname⟩ := List.exists_cons_of_ne_nil (mt String.toList_eq_nil_iff.1 hne)
  intro heq
  rw [hname] at heq hbracket
  obtain ⟨rfl, -⟩ := List.cons.inj heq
  exact hbracket List.mem_cons_self

theorem pathFrom_inj {s s' : Step} {way way' : List Step} (h : IsPlainWay (s :: way))
    (h' : IsPlainWay (s' :: way')) (heq : pathFrom "" (s :: way) = pathFrom "" (s' :: way')) :
    s :: way = s' :: way' := by
  refine marked_inj (isClear_of_isPlainWay h) (isClear_of_isPlainWay h') ?_
  rw [← String.toList_inj] at heq
  cases s with
  | member name =>
    have hname := h name List.mem_cons_self
    rw [toList_pathFrom_member hname.1] at heq
    cases s' with
    | member name' =>
      rw [toList_pathFrom_member (h' name' List.mem_cons_self).1] at heq
      exact congrArg (List.cons '.') heq
    | item i =>
      rw [toList_pathFrom_item] at heq
      exact absurd heq (toList_ne_bracket hname _ _)
  | item i =>
    rw [toList_pathFrom_item] at heq
    cases s' with
    | member name' =>
      have hname := h' name' List.mem_cons_self
      rw [toList_pathFrom_member hname.1] at heq
      exact absurd heq.symm (toList_ne_bracket hname _ _)
    | item j => rwa [toList_pathFrom_item] at heq

theorem isPlainWay_of_has {v : Value} (h : ∀ m, v.Has m → IsPlain m.name) {m : Member}
    (hm : v.Has m) : IsPlainWay m.way := by
  intro name hname
  obtain ⟨front, behind, hway⟩ := List.append_of_mem hname
  refine h ⟨front, name⟩ ?_
  rw [Json.Value.Has, hway, List.append_cons, Json.Value.at?_append] at hm
  rw [Json.Value.Has, Member.way]
  exact Option.isSome_of_isSome_bind hm

theorem path_inj {v : Value} (h : ∀ m, v.Has m → IsPlain m.name) {m m' : Member} (hm : v.Has m)
    (hm' : v.Has m') (heq : pathFrom "" m.way = pathFrom "" m'.way) : m = m' := by
  have hway := isPlainWay_of_has h hm
  have hway' := isPlainWay_of_has h hm'
  obtain ⟨s, way, hs⟩ := List.exists_cons_of_ne_nil m.way_ne_nil
  obtain ⟨s', way', hs'⟩ := List.exists_cons_of_ne_nil m'.way_ne_nil
  rw [hs] at hway heq
  rw [hs'] at hway' heq
  exact Member.way_inj (by rw [hs, hs', pathFrom_inj hway hway' heq])

/-- A document yields one symbol for each member at any depth, in the order in which the members are
come across when those of an object are taken by their names. If no name is empty or holds a full
stop or an opening bracket, the keys of the symbols are apart. -/
theorem members_of_document (f : SourceFile) {v : Value} (h : Json.parse? f.content = some v) :
    ∃ members : List Member,
      (∀ m, m ∈ members ↔ v.Has m) ∧ members.Pairwise Member.Before ∧
      extract f = .ofAttachments (members.map fun m => ⟨f.key, .contains, symbolOf f m⟩) ∧
      ((∀ m, v.Has m → IsPlain m.name) → ((extract f).symbols.map (·.key)).Nodup) := by
  have hsorted := Json.isSorted_of_parse? h
  have hextract : extract f =
      .ofAttachments (v.members.map fun m => ⟨f.key, .contains, symbolOf f m⟩) := by
    rw [extract, h]
    simp only [properties_eq, List.map_map]
    rfl
  refine ⟨v.members, fun m => Json.Value.mem_members hsorted, v.pairwise_members hsorted, hextract,
    fun hplain => ?_⟩
  have hnodup := Member.nodup_of_pairwise (v.pairwise_members hsorted)
  rw [hextract, Extraction.ofAttachments, List.map_map, List.map_map]
  refine List.Nodup.map_on (fun m hm m' hm' heq => ?_) hnodup
  rw [Json.Value.mem_members hsorted] at hm hm'
  exact path_inj hplain hm hm' ((String.append_right_inj _).1 heq)

/-- An object inside an array inside an array, behind a member that comes first. -/
theorem members_of_hosts :
    let f : SourceFile := ⟨"r", "r:a.json", "/w/a.json",
      "\x7b\"b\": [[\x7b\"c\": 1\x7d]], \"a\": \x7b\"x\": 2\x7d\x7d"⟩
    let v : Value := .object [("a", .object [("x", .number (.integer 2))]),
      ("b", .array [.array [.object [("c", .number (.integer 1))]]])]
    Json.parse? f.content = some v ∧ (∀ m, v.Has m → IsPlain m.name) ∧
    ((extract f).symbols.map (·.key)).Nodup ∧
    (extract f).symbols.map (·.key) = ["r:a.json:JsonProperty:a", "r:a.json:JsonProperty:a.x",
      "r:a.json:JsonProperty:b", "r:a.json:JsonProperty:b[0][0].c"] := by
  intro f v
  have hparse : Json.parse? f.content = some v := by cbv
  have hplain : ∀ m, v.Has m → IsPlain m.name := by
    have hlisted : ∀ m ∈ v.members, IsPlain m.name := by decide
    exact fun m hm => hlisted m ((Json.Value.mem_members (Json.isSorted_of_parse? hparse)).2 hm)
  obtain ⟨members, -, -, -, hnodup⟩ := members_of_document f hparse
  exact ⟨hparse, hplain, hnodup hplain, by decide +kernel⟩

end CodeGraph.JsonDocument
