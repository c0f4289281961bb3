import CodeGraph.Json.Parser
import Mathlib.Tactic.SplitIfs

/-!
# Members of a JSON value

A member at any depth is told by the way to the object that it is a member of, and by its name. In
what is read from a text, the members of every object are in ascending order of their names
(`isSorted_of_parse?`). So the members of all objects, each in front of those inside its value, are
listed without repetition (`mem_members`, `pairwise_members`).
-/

namespace CodeGraph.Json

/-- What leads from a value to one inside it. -/
inductive Step where
  | member (name : String)
  | item (index : Nat)
deriving DecidableEq, Repr

/-- Members of one object in the order of their names, and items of one array in their own order. -/
def Step.Before : Step → Step → Prop
  | .member name, .member name' => name < name'
  | .item i, .item j => i < j
  | _, _ => False

/-- A member of an object inside a value: the way to the object, and the name. -/
structure Member where
  container : List Step
  name : String
deriving DecidableEq, Repr

namespace Member

def way (m : Member) : List Step := m.container ++ [.member m.name]

/-- The member as seen from a value that holds the value it is inside of. -/
def under (s : Step) (m : Member) : Member := { m with container := s :: m.container }

/-- A member comes before those inside its value, and otherwise the first steps that differ count.
-/
def Before (m m' : Member) : Prop := List.Lex Step.Before m.way m'.way

theorem way_ne_nil (m : Member) : m.way ≠ [] := by simp [way]

theorem way_inj {m m' : Member} (h : m.way = m'.way) : m = m' := by
  obtain ⟨hcontainer, hname⟩ := List.append_inj' h rfl
  have hname : m.name = m'.name := Step.member.inj (List.cons.inj hname).1
  exact congr (congrArg mk hcontainer) hname

@[simp] theorem way_under (s : Step) (m : Member) : (m.under s).way = s :: m.way := rfl

theorem under_inj {s s' : Step} {m m' : Member} : m.under s = m'.under s' ↔ s = s' ∧ m = m' := by
  obtain ⟨container, name⟩ := m
  obtain ⟨container', name'⟩ := m'
  simp [under, and_assoc]

theorem ne_under {name : String} {s : Step} {m : Member} : ⟨[], name⟩ ≠ m.under s := by
  simp [under]

theorem before_under {s : Step} {m m' : Member} (h : m.Before m') :
    (m.under s).Before (m'.under s) := .cons h

/-- The step with which the way to the member starts. -/
def StartsWith (m : Member) (s : Step) : Prop := ∃ rest, m.way = s :: rest

theorem startsWith_nil (name : String) : StartsWith ⟨[], name⟩ (.member name) := ⟨[], rfl⟩

theorem startsWith_under (s : Step) (m : Member) : (m.under s).StartsWith s := ⟨m.way, rfl⟩

theorem before_of_startsWith {s s' : Step} {m m' : Member} (h : s.Before s') (hm : m.StartsWith s)
    (hm' : m'.StartsWith s') : m.Before m' := by
  obtain ⟨rest, hm⟩ := hm
  obtain ⟨rest', hm'⟩ := hm'
  rw [Before, hm, hm']
  exact .rel h

/-- A member comes before those inside its value. -/
theorem before_inside (name : String) (m : Member) :
    Before ⟨[], name⟩ (m.under (.member name)) := by
  obtain ⟨s, rest, hway⟩ := List.exists_cons_of_ne_nil m.way_ne_nil
  rw [Before, way_under, hway]
  exact .cons .nil

theorem before_irrefl (m : Member) : ¬ m.Before m := by
  have hstep : ∀ s : Step, ¬ s.Before s := by
    rintro (name | i)
    · exact String.lt_irrefl name
    · exact Nat.lt_irrefl i
  exact List.lex_irrefl hstep m.way

theorem nodup_of_pairwise {l : List Member} (h : l.Pairwise Before) : l.Nodup := by
  refine List.Pairwise.imp ?_ h
  rintro m _ hbefore rfl
  exact before_irrefl m hbefore

end Member

namespace Value

/-- The value that a step leads to. -/
def step? : Value → Step → Option Value
  | .object ms, .member name => ms.lookup name
  | .array items, .item i => items[i]?
  | _, _ => none

/-- The value at the end of a way. -/
def at? (v : Value) (way : List Step) : Option Value := way.foldlM step? v

/-- The member is there. -/
def Has (v : Value) (m : Member) : Prop := (v.at? m.way).isSome

/-- In every object inside the value the names of the members ascend. -/
def IsSorted (v : Value) : Prop :=
  ∀ way ms, v.at? way = some (.object ms) → (ms.map Prod.fst).Pairwise (· < ·)

@[simp] theorem at?_nil (v : Value) : v.at? [] = some v := rfl

theorem at?_cons (v : Value) (s : Step) (way : List Step) :
    v.at? (s :: way) = (v.step? s).bind fun w => w.at? way := rfl

theorem at?_append (v : Value) (front behind : List Step) :
    v.at? (front ++ behind) = (v.at? front).bind fun w => w.at? behind :=
  List.foldlM_append

theorem IsSorted.step {v w : Value} {s : Step} (h : v.IsSorted) (hs : v.step? s = some w) :
    w.IsSorted := by
  intro way ms hway
  exact h (s :: way) ms (by rw [at?_cons, hs, Option.bind_some, hway])

theorem isSorted_of_steps {v : Value}
    (hv : ∀ ms, v = .object ms → (ms.map Prod.fst).Pairwise (· < ·))
    (hs : ∀ s w, v.step? s = some w → w.IsSorted) : v.IsSorted := by
  intro way ms hway
  cases way with
  | nil => exact hv ms (Option.some.inj hway)
  | cons s way =>
    rw [at?_cons] at hway
    obtain ⟨w, hw, hway⟩ := Option.bind_eq_some_iff.1 hway
    exact hs s w hw way ms hway

theorem isSorted_array {items : List Value} (h : ∀ v ∈ items, v.IsSorted) :
    (array items).IsSorted := by
  refine isSorted_of_steps (fun ms hms => by cases hms) fun s w hs => ?_
  cases s with
  | member name => cases hs
  | item i => exact h w (List.mem_of_getElem? hs)

theorem isSorted_of_leaf {v : Value} (harray : ∀ items, v ≠ .array items)
    (hobject : ∀ ms, v ≠ .object ms) : v.IsSorted := by
  refine isSorted_of_steps (fun ms hms => absurd hms (hobject ms)) fun s w hs => ?_
  cases v with
  | array items => exact absurd rfl (harray items)
  | object ms => exact absurd rfl (hobject ms)
  | _ => cases hs

theorem mem_of_lookup {name : String} {v : Value} : ∀ {ms : List (String × Value)},
    ms.lookup name = some v → (name, v) ∈ ms
  | (name', v') :: ms, h => by
    rw [List.lookup_cons] at h
    split at h
    · rename_i heq
      obtain rfl := Option.some.inj h
      rw [beq_iff_eq.1 heq]
      exact List.mem_cons_self
    · exact List.mem_cons_of_mem _ (mem_of_lookup h)

theorem lookup_of_mem {name : String} {v : Value} : ∀ {ms : List (String × Value)},
    (ms.map Prod.fst).Pairwise (· < ·) → (name, v) ∈ ms → ms.lookup name = some v
  | (name', v') :: ms, hsorted, hmem => by
    obtain ⟨hfirst, hrest⟩ := List.pairwise_cons.1 hsorted
    rw [List.lookup_cons]
    rcases List.mem_cons.1 hmem with heq | hmem
    · obtain ⟨rfl, rfl⟩ := Prod.mk.inj heq
      simp
    · have hlt := hfirst name (List.mem_map_of_mem hmem)
      have hne : (name == name') = false := by
        simpa using fun heq : name = name' => String.lt_irrefl name (heq ▸ hlt)
      rw [hne]
      exact lookup_of_mem hrest hmem

theorem isSorted_object {ms : List (String × Value)} (h : (ms.map Prod.fst).Pairwise (· < ·))
    (hms : ∀ v ∈ ms.map Prod.snd, v.IsSorted) : (object ms).IsSorted := by
  refine isSorted_of_steps (fun ms' heq => ?_) fun s w hs => ?_
  · obtain rfl := Value.object.inj heq
    exact h
  · cases s with
    | member name => exact hms w (List.mem_map_of_mem (mem_of_lookup hs))
    | item i => cases hs

/-! ## What is read from a text -/

theorem mem_insertMember {name : String} {v : Value} {p : String × Value} :
    ∀ {ms : List (String × Value)}, p ∈ insertMember name v ms → p = (name, v) ∨ p ∈ ms
  | [], h => .inl (List.mem_singleton.1 h)
  | (name', v') :: ms, h => by
    simp only [insertMember] at h
    split_ifs at h with hlt heq
    · exact List.mem_cons.1 h
    · exact (List.mem_cons.1 h).imp_right (List.mem_cons_of_mem _)
    · rcases List.mem_cons.1 h with rfl | h
      · exact .inr List.mem_cons_self
      · exact (mem_insertMember h).imp_right (List.mem_cons_of_mem _)

theorem pairwise_insertMember {name : String} {v : Value} : ∀ {ms : List (String × Value)},
    (ms.map Prod.fst).Pairwise (· < ·) → ((insertMember name v ms).map Prod.fst).Pairwise (· < ·)
  | [], _ => by simp [insertMember]
  | (name', v') :: ms, h => by
    obtain ⟨hfirst, hrest⟩ := List.pairwise_cons.1 h
    simp only [insertMember]
    split_ifs with hlt heq
    · refine List.pairwise_cons.2 ⟨fun k hk => ?_, h⟩
      rcases List.mem_cons.1 hk with rfl | hk
      · exact hlt
      · exact String.lt_trans hlt (hfirst k hk)
    · subst heq
      exact h
    · refine List.pairwise_cons.2 ⟨fun k hk => ?_, pairwise_insertMember hrest⟩
      obtain ⟨p, hp, rfl⟩ := List.mem_map.1 hk
      rcases mem_insertMember hp with rfl | hp
      · exact Std.lt_of_le_of_ne (String.not_lt.1 hlt) (Ne.symm heq)
      · exact hfirst p.1 (List.mem_map_of_mem hp)

theorem isSorted_ofMembers {ms : List (String × Value)} (h : ∀ p ∈ ms, p.2.IsSorted) :
    (ofMembers ms).IsSorted := by
  have hfold : ∀ (ms acc : List (String × Value)), (∀ p ∈ ms, p.2.IsSorted) →
      (acc.map Prod.fst).Pairwise (· < ·) → (∀ p ∈ acc, p.2.IsSorted) →
      (object (ms.foldl (fun acc p => insertMember p.1 p.2 acc) acc)).IsSorted := by
    intro ms
    induction ms with
    | nil =>
      intro acc _ hacc hvalues
      exact isSorted_object hacc fun v hv => by
        obtain ⟨p, hp, rfl⟩ := List.mem_map.1 hv
        exact hvalues p hp
    | cons p ms ih =>
      intro acc hms hacc hvalues
      refine ih _ (fun q hq => hms q (List.mem_cons_of_mem p hq)) (pairwise_insertMember hacc) ?_
      intro q hq
      rcases mem_insertMember hq with rfl | hq
      · exact hms p List.mem_cons_self
      · exact hvalues q hq
  exact hfold ms [] h .nil (by simp)

end Value

/-- The values that an open container holds so far. -/
def Open.values : Open → List Value
  | .array items => items
  | .object ms | .member ms _ => ms.map Prod.snd

namespace Building

/-- Whatever is complete is sorted. -/
structure IsSorted (b : Building) : Prop where
  stack : ∀ o ∈ b.stack, ∀ v ∈ o.values, v.IsSorted
  place : ∀ v, b.place = .nothing v → v.IsSorted

variable {b b' : Building} {stack : List Open} {v : Value}

theorem isSorted_add (hv : v.IsSorted) (hstack : ∀ o ∈ stack, ∀ w ∈ o.values, w.IsSorted)
    (h : add v stack = some b) : b.IsSorted := by
  cases stack with
  | nil =>
    obtain rfl := Option.some.inj h
    exact ⟨by simp, fun w hw => Place.nothing.inj hw ▸ hv⟩
  | cons o stack =>
    obtain ⟨ho, hrest⟩ := List.forall_mem_cons.1 hstack
    cases o with
    | object ms => cases h
    | array items =>
      obtain rfl := Option.some.inj h
      exact ⟨List.forall_mem_cons.2 ⟨List.forall_mem_cons.2 ⟨hv, ho⟩, hrest⟩,
        fun w hw => nomatch hw⟩
    | member ms name =>
      obtain rfl := Option.some.inj h
      exact ⟨List.forall_mem_cons.2 ⟨List.forall_mem_cons.2 ⟨hv, ho⟩, hrest⟩,
        fun w hw => nomatch hw⟩

theorem isSorted_push {o : Open} {place : Place}
    (ho : o.values = []) (hplace : ∀ v, place ≠ .nothing v)
    (hstack : ∀ o ∈ stack, ∀ w ∈ o.values, w.IsSorted) (h : push o place stack = some b) :
    b.IsSorted := by
  unfold push at h
  split_ifs at h
  obtain rfl := Option.some.inj h
  exact ⟨List.forall_mem_cons.2 ⟨by simp [ho], hstack⟩, fun w hw => absurd hw (hplace w)⟩

theorem isSorted_close {isArray : Bool} (hstack : ∀ o ∈ stack, ∀ w ∈ o.values, w.IsSorted)
    (h : close isArray stack = some b) : b.IsSorted := by
  unfold close at h
  split at h
  · split_ifs at h
    obtain ⟨hitems, hrest⟩ := List.forall_mem_cons.1 hstack
    refine isSorted_add (Value.isSorted_array fun w hw => ?_) hrest h
    exact hitems w (List.mem_reverse.1 hw)
  · split_ifs at h
    obtain ⟨hms, hrest⟩ := List.forall_mem_cons.1 hstack
    refine isSorted_add (Value.isSorted_ofMembers fun p hp => ?_) hrest h
    exact hms p.2 (List.mem_map_of_mem (List.mem_reverse.1 hp))
  · cases h

theorem isSorted_step {t : Token} (hb : b.IsSorted) (ht : ∀ v, t = .scalar v → v.IsSorted)
    (h : step b t = some b') : b'.IsSorted := by
  obtain ⟨stack, place⟩ := b
  have hstack : ∀ o ∈ stack, ∀ w ∈ o.values, w.IsSorted := hb.stack
  unfold step at h
  split at h
  case h_1 | h_2 => exact isSorted_add (ht _ rfl) hstack h
  case h_3 | h_4 | h_5 | h_6 => exact isSorted_push rfl (by simp) hstack h
  case h_7 | h_8 | h_13 | h_14 => exact isSorted_close hstack h
  case h_9 | h_10 =>
    split at h
    · rename_i ms outer heq
      obtain rfl : stack = .object ms :: outer := heq
      obtain rfl := Option.some.inj h
      obtain ⟨hms, houter⟩ := List.forall_mem_cons.1 hstack
      exact ⟨List.forall_mem_cons.2 ⟨hms, houter⟩, fun w hw => nomatch hw⟩
    · cases h
  case h_11 =>
    obtain rfl := Option.some.inj h
    exact ⟨hstack, fun w hw => nomatch hw⟩
  case h_12 => split at h <;> exact Option.some.inj h ▸ ⟨hstack, fun w hw => nomatch hw⟩
  case h_15 => cases h

theorem isSorted_foldlM {tokens : List Token} (hb : b.IsSorted)
    (ht : ∀ t ∈ tokens, ∀ v, t = .scalar v → v.IsSorted)
    (h : tokens.foldlM step b = some b') : b'.IsSorted := by
  induction tokens generalizing b with
  | nil => exact Option.some.inj h ▸ hb
  | cons t tokens ih =>
    obtain ⟨b₁, hb₁, h⟩ := Option.bind_eq_some_iff.1 h
    obtain ⟨ht, htokens⟩ := List.forall_mem_cons.1 ht
    exact ih (isSorted_step hb ht hb₁) htokens h

end Building

namespace Token

theorem isSorted_of_next? {c : Char} {l rest : List Char} {v : Value}
    (h : next? c l = some (.scalar v, rest)) : v.IsSorted := by
  unfold next? at h
  split at h
  case h_7 =>
    obtain ⟨p, -, heq⟩ := Option.map_eq_some_iff.1 h
    cases heq
    exact Value.isSorted_of_leaf (by simp) (by simp)
  case h_8 | h_12 =>
    obtain ⟨p, -, heq⟩ := Option.map_eq_some_iff.1 h
    cases heq
    exact Value.isSorted_of_leaf (by simp) (by simp)
  case h_9 | h_10 | h_11 =>
    split at h <;> cases h
    exact Value.isSorted_of_leaf (by simp) (by simp)
  all_goals cases h

theorem isSorted_of_tokens? {l : List Char} {tokens : List Token} (h : tokens? l = some tokens) :
    ∀ t ∈ tokens, ∀ v, t = .scalar v → v.IsSorted := by
  fun_induction tokens? l generalizing tokens with
  | case1 =>
    obtain rfl := Option.some.inj h
    simp
  | case2 c rest hblank ih => exact ih h
  | case3 => cases h
  | case4 c rest hblank t rest' hnext ih =>
    obtain ⟨more, hmore, rfl⟩ := Option.map_eq_some_iff.1 h
    refine List.forall_mem_cons.2 ⟨?_, ih hmore⟩
    rintro v rfl
    exact isSorted_of_next? hnext

end Token

theorem isSorted_of_parse? {text : String} {v : Value} (h : parse? text = some v) :
    v.IsSorted := by
  obtain ⟨tokens, htokens, h⟩ := Option.bind_eq_some_iff.1 h
  obtain ⟨b, hb, h⟩ := Option.bind_eq_some_iff.1 h
  have hstart : Building.start.IsSorted := ⟨by simp [Building.start], by simp [Building.start]⟩
  have hsorted := Building.isSorted_foldlM hstart (Token.isSorted_of_tokens? htokens) hb
  unfold Building.result? at h
  split at h
  · rename_i w hw
    exact hsorted.place v (Option.some.inj h ▸ hw)
  · cases h

/-! ## All members -/

mutual

/-- The members of the objects in a value, each in front of those inside its own value. -/
def Value.members : Value → List Member
  | .object ms => membersOf ms
  | .array items => membersIn 0 items
  | _ => []

def membersOf : List (String × Value) → List Member
  | [] => []
  | (name, v) :: ms => ⟨[], name⟩ :: (v.members.map (.under (.member name)) ++ membersOf ms)

def membersIn (i : Nat) : List Value → List Member
  | [] => []
  | v :: items => v.members.map (.under (.item i)) ++ membersIn (i + 1) items

end

variable {m : Member}

theorem mem_membersOf {ms : List (String × Value)} : m ∈ membersOf ms ↔
    ∃ p ∈ ms, m = ⟨[], p.1⟩ ∨ ∃ m' ∈ p.2.members, m = m'.under (.member p.1) := by
  induction ms with
  | nil => simp [membersOf]
  | cons p ms ih => simp [membersOf, ih, or_assoc, eq_comm]

theorem startsWith_of_mem_membersOf {ms : List (String × Value)} (h : m ∈ membersOf ms) :
    ∃ name ∈ ms.map Prod.fst, m.StartsWith (.member name) := by
  obtain ⟨p, hp, rfl | ⟨m', -, rfl⟩⟩ := mem_membersOf.1 h
  · exact ⟨p.1, List.mem_map_of_mem hp, Member.startsWith_nil p.1⟩
  · exact ⟨p.1, List.mem_map_of_mem hp, m'.startsWith_under _⟩

theorem mem_membersIn {i : Nat} {items : List Value} : m ∈ membersIn i items ↔
    ∃ (j : Nat) (v : Value), items[j]? = some v ∧
      ∃ m' ∈ v.members, m = m'.under (.item (i + j)) := by
  induction items generalizing i with
  | nil => simp [membersIn]
  | cons v items ih =>
    simp only [membersIn, List.mem_append, List.mem_map, ih]
    constructor
    · rintro (⟨m', hm', rfl⟩ | ⟨j, w, hw, m', hm', rfl⟩)
      · exact ⟨0, v, rfl, m', hm', rfl⟩
      · exact ⟨j + 1, w, hw, m', hm', by rw [Nat.add_right_comm, Nat.add_assoc]⟩
    · rintro ⟨j, w, hw, m', hm', rfl⟩
      cases j with
      | zero =>
        obtain rfl := Option.some.inj hw
        exact .inl ⟨m', hm', rfl⟩
      | succ j => exact .inr ⟨j, w, hw, m', hm', by rw [Nat.add_right_comm, Nat.add_assoc]⟩

namespace Value

theorem has_under {v : Value} {s : Step} :
    v.Has (m.under s) ↔ ∃ w, v.step? s = some w ∧ w.Has m := by
  rw [Has, Member.way_under, at?_cons]
  cases v.step? s with
  | none => simp
  | some w => simp [Has]

theorem has_nil {v : Value} {name : String} :
    v.Has ⟨[], name⟩ ↔ ∃ w, v.step? (.member name) = some w := by
  rw [Has, Member.way, List.nil_append, at?_cons]
  cases v.step? (.member name) <;> simp

theorem mem_members_iff {v : Value} (h : v.IsSorted) : m ∈ v.members ↔
    ∃ s w, v.step? s = some w ∧
      ((∃ name, s = .member name ∧ m = ⟨[], name⟩) ∨ ∃ m' ∈ w.members, m = m'.under s) := by
  cases v with
  | object ms =>
    rw [members, mem_membersOf]
    constructor
    · rintro ⟨p, hp, hm⟩
      exact ⟨.member p.1, p.2, lookup_of_mem (h [] ms rfl) hp, hm.imp_left fun hm => ⟨p.1, rfl, hm⟩⟩
    · rintro ⟨s, w, hs, hm⟩
      cases s with
      | item i => cases hs
      | member name =>
        refine ⟨(name, w), mem_of_lookup hs, hm.imp_left ?_⟩
        rintro ⟨name', heq, rfl⟩
        rw [Step.member.inj heq]
  | array items =>
    rw [members, mem_membersIn]
    constructor
    · rintro ⟨i, w, hi, hm⟩
      rw [Nat.zero_add] at hm
      exact ⟨.item i, w, hi, .inr hm⟩
    · rintro ⟨s, w, hs, hm⟩
      cases s with
      | member name => cases hs
      | item i =>
        refine ⟨i, w, hs, ?_⟩
        rw [Nat.zero_add]
        exact hm.resolve_left fun ⟨_, heq, _⟩ => nomatch heq
  | _ => simp [members, step?]

/-- Every member is listed. -/
theorem mem_members {v : Value} (h : v.IsSorted) : m ∈ v.members ↔ v.Has m := by
  obtain ⟨container, name⟩ := m
  rw [mem_members_iff h]
  induction container generalizing v with
  | nil =>
    rw [has_nil]
    constructor
    · rintro ⟨s, w, hs, ⟨name', rfl, heq⟩ | ⟨m', -, heq⟩⟩
      · obtain rfl : name = name' := (Member.mk.inj heq).2
        exact ⟨w, hs⟩
      · exact absurd heq Member.ne_under
    · rintro ⟨w, hs⟩
      exact ⟨.member name, w, hs, .inl ⟨name, rfl, rfl⟩⟩
  | cons s container ih =>
    have hunder : (⟨s :: container, name⟩ : Member) = Member.under s ⟨container, name⟩ := rfl
    rw [hunder, has_under]
    constructor
    · rintro ⟨s', w, hs, ⟨name', -, heq⟩ | ⟨m', hm', heq⟩⟩
      · exact absurd heq.symm Member.ne_under
      · obtain ⟨rfl, rfl⟩ := Member.under_inj.1 heq
        exact ⟨w, hs, (ih (h.step hs)).1 ((mem_members_iff (h.step hs)).1 hm')⟩
    · rintro ⟨w, hs, hw⟩
      have hmem := (mem_members_iff (h.step hs)).2 ((ih (h.step hs)).2 hw)
      exact ⟨s, w, hs, .inr ⟨_, hmem, rfl⟩⟩

end Value

mutual

theorem Value.pairwise_members (v : Value) (h : v.IsSorted) :
    v.members.Pairwise Member.Before := by
  cases v with
  | object ms =>
    refine pairwise_membersOf ms (h [] ms rfl) fun p hp => ?_
    exact h.step (s := .member p.1) (Value.lookup_of_mem (h [] ms rfl) hp)
  | array items =>
    refine pairwise_membersIn 0 items fun w hw => ?_
    obtain ⟨i, hi⟩ := List.mem_iff_getElem?.1 hw
    exact h.step (s := .item i) hi
  | _ => exact .nil

theorem pairwise_membersOf (ms : List (String × Value)) (h : (ms.map Prod.fst).Pairwise (· < ·))
    (hms : ∀ p ∈ ms, p.2.IsSorted) : (membersOf ms).Pairwise Member.Before := by
  match ms with
  | [] => exact .nil
  | (name, v) :: ms =>
    obtain ⟨hfirst, hrest⟩ := List.pairwise_cons.1 h
    obtain ⟨hv, hms⟩ := List.forall_mem_cons.1 hms
    have hinside : (v.members.map (.under (.member name))).Pairwise Member.Before :=
      (Value.pairwise_members v hv).map _ fun _ _ => Member.before_under
    rw [membersOf, List.pairwise_cons, List.pairwise_append]
    refine ⟨fun m hm => ?_, hinside, pairwise_membersOf ms hrest hms, fun m hm m' hm' => ?_⟩
    · rcases List.mem_append.1 hm with hm | hm
      · obtain ⟨n, -, rfl⟩ := List.mem_map.1 hm
        exact Member.before_inside name n
      · obtain ⟨name', hname, hm⟩ := startsWith_of_mem_membersOf hm
        have hlt : (Step.member name).Before (.member name') := hfirst name' hname
        exact Member.before_of_startsWith hlt (Member.startsWith_nil name) hm
    · obtain ⟨n, -, rfl⟩ := List.mem_map.1 hm
      obtain ⟨name', hname, hm'⟩ := startsWith_of_mem_membersOf hm'
      have hlt : (Step.member name).Before (.member name') := hfirst name' hname
      exact Member.before_of_startsWith hlt (n.startsWith_under _) hm'

theorem pairwise_membersIn (i : Nat) (items : List Value) (h : ∀ v ∈ items, v.IsSorted) :
    (membersIn i items).Pairwise Member.Before := by
  match items with
  | [] => exact .nil
  | v :: items =>
    obtain ⟨hv, hitems⟩ := List.forall_mem_cons.1 h
    have hinside : (v.members.map (.under (.item i))).Pairwise Member.Before :=
      (Value.pairwise_members v hv).map _ fun _ _ => Member.before_under
    rw [membersIn, List.pairwise_append]
    refine ⟨hinside, pairwise_membersIn (i + 1) items hitems, fun m hm m' hm' => ?_⟩
    obtain ⟨n, -, rfl⟩ := List.mem_map.1 hm
    obtain ⟨j, w, -, n', -, rfl⟩ := mem_membersIn.1 hm'
    have hlt : (Step.item i).Before (.item (i + 1 + j)) := by
      show i < i + 1 + j
      omega
    exact Member.before_of_startsWith hlt (n.startsWith_under _) (n'.startsWith_under _)

end

end CodeGraph.Json
