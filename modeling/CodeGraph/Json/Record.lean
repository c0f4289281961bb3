import CodeGraph.Json.Value

/-!
# Records as JSON

A record is written as an object of its fields. It may also be given as an array of exactly its
fields in order. Members that are no field do not count. A variant without data is written as its
name, and one with data as an object whose only member has its name.
-/

namespace CodeGraph.Json

/-- The fields of a record that are present. -/
abbrev Record := List (String × Value)

namespace Record

/-- Reads a record with these fields. -/
def ofValue? (fields : List String) : Value → Option Record
  | .object ms => some ms
  | .array items => if items.length = fields.length then some (fields.zip items) else none
  | _ => none

/-- The value that `read` makes of a field, which has to be there. -/
def required {α : Type} (r : Record) (field : String) (read : Value → Option α) : Option α :=
  (r.lookup field).bind read

/-- The value that `read` makes of a field that may be missing or null. -/
def optional {α : Type} (r : Record) (field : String) (read : Value → Option α) :
    Option (Option α) :=
  match r.lookup field with
  | none | some .null => some none
  | some v => (read v).map some

theorem sizeOf_lt_of_lookup {r : Record} {field : String} {v : Value}
    (h : r.lookup field = some v) : sizeOf v < sizeOf r := by
  induction r with
  | nil => simp at h
  | cons m r ih =>
    obtain ⟨name, w⟩ := m
    rw [List.lookup_cons] at h
    split at h
    · cases h
      simp only [List.cons.sizeOf_spec, Prod.mk.sizeOf_spec]
      omega
    · have := ih h
      simp only [List.cons.sizeOf_spec]
      omega

theorem sizeOf_lt_of_lookup_zip {fields : List String} {items : List Value} {field : String}
    {v : Value} (h : (fields.zip items).lookup field = some v) : sizeOf v < sizeOf items := by
  induction fields generalizing items with
  | nil => simp at h
  | cons f fields ih =>
    cases items with
    | nil => simp at h
    | cons w items =>
      rw [List.zip_cons_cons, List.lookup_cons] at h
      split at h
      · cases h
        simp only [List.cons.sizeOf_spec]
        omega
      · have := ih h
        simp only [List.cons.sizeOf_spec]
        omega

theorem sizeOf_lt_of_field {fields : List String} {v w : Value} {r : Record} {field : String}
    (h : Record.ofValue? fields v = some r) (hf : r.lookup field = some w) :
    sizeOf w < sizeOf v := by
  unfold Record.ofValue? at h
  split at h
  · cases h
    have := sizeOf_lt_of_lookup hf
    simp only [Value.object.sizeOf_spec]
    omega
  · split at h
    · cases h
      have := sizeOf_lt_of_lookup_zip hf
      simp only [Value.array.sizeOf_spec]
      omega
    · cases h
  · cases h

end Record

namespace Value

/-- Reads every item of an array. -/
def listOf? {α : Type} (read : Value → Option α) (v : Value) : Option (List α) :=
  v.array? >>= List.mapM read

def strings? : Value → Option (List String) := listOf? string?

/-- The name of a variant and its data. -/
def variant? : Value → Option (String × Option Value)
  | .string name => some (name, none)
  | .object [(name, data)] => some (name, some data)
  | _ => none

/-- The name of a variant without data. -/
def plainVariant? (v : Value) : Option String :=
  match v.variant? with
  | some (name, none) | some (name, some .null) => some name
  | _ => none

def ofStrings (l : List String) : Value := .array (l.map .string)

def ofOption {α : Type} (write : α → Value) : Option α → Value
  | some a => write a
  | none => .null

end Value

end CodeGraph.Json
