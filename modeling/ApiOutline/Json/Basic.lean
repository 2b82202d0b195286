import ApiOutline.Number.Double

/-!
# JSON values

A JSON value keeps what its text says: integers are exact and stay apart from numbers with a
fraction or an exponent, and an object keeps its fields in the order in which their names first
came. Writing a field that is there already replaces its value in place.
-/

namespace ApiOutline

/-- A JSON value. -/
inductive Json where
  | null
  | bool (b : Bool)
  | int (n : Int)
  | float (x : Double)
  | str (s : String)
  | arr (items : List Json)
  | obj (fields : List (String × Json))
  deriving Inhabited

namespace Json

/-- The fields of an object, each name at most once. -/
abbrev Fields := List (String × Json)

/-- The value of a field. -/
def Fields.get? (fields : Fields) (name : String) : Option Json :=
  List.lookup name fields

/-- Sets a field: in place when it is there, and at the end otherwise. -/
def Fields.put (fields : Fields) (name : String) (value : Json) : Fields :=
  match fields with
  | [] => [(name, value)]
  | (n, v) :: rest => if n = name then (n, value) :: rest else (n, v) :: Fields.put rest name value

/-- Sets the fields of `extra` one after the other. -/
def Fields.putAll (fields extra : Fields) : Fields :=
  extra.foldl (fun acc (name, value) => acc.put name value) fields

/-- The fields but the one of the given name. -/
def Fields.without (fields : Fields) (name : String) : Fields :=
  fields.filter fun field => field.1 ≠ name

/-- Whether a value counts as true: all do but null, false, zero and what is empty. -/
def isTruthy : Json → Bool
  | .null => false
  | .bool b => b
  | .int n => n ≠ 0
  | .float x => !x.isZero
  | .str s => s ≠ ""
  | .arr items => !items.isEmpty
  | .obj fields => !fields.isEmpty

/-- The name of the kind of a value, as messages give it. -/
def kindName : Json → String
  | .null => "NoneType"
  | .bool _ => "bool"
  | .int _ => "int"
  | .float _ => "float"
  | .str _ => "str"
  | .arr _ => "list"
  | .obj _ => "dict"

/-- The text of a value that is a text. -/
def asStr? : Json → Option String
  | .str s => some s
  | _ => none

/-! ### Reading back what was set -/

theorem Fields.get?_cons (n : String) (v : Json) (rest : Fields) (name : String) :
    Fields.get? ((n, v) :: rest) name = if name = n then some v else Fields.get? rest name := by
  by_cases h : name = n
  · subst h
    simp [Fields.get?]
  · have : (name == n) = false := by simpa using h
    simp [Fields.get?, List.lookup_cons, this, h]

/-- A field that was set has the value given, and every other field is as before. -/
theorem Fields.get?_put (fields : Fields) (name other : String) (value : Json) :
    (fields.put name value).get? other =
      if other = name then some value else fields.get? other := by
  induction fields with
  | nil => rw [Fields.put, Fields.get?_cons]
  | cons field rest ih =>
    obtain ⟨n, v⟩ := field
    by_cases h : n = name
    · subst h
      by_cases ho : other = n <;> simp [Fields.put, Fields.get?_cons, ho]
    · by_cases ho : other = n
      · subst ho
        simp [Fields.put, Fields.get?_cons, h]
      · simp [Fields.put, Fields.get?_cons, h, ho, ih]

/-- A field that was dropped is gone, and every other field is as before. -/
theorem Fields.get?_without (fields : Fields) (name other : String) :
    (fields.without name).get? other = if other = name then none else fields.get? other := by
  induction fields with
  | nil => simp [Fields.without, Fields.get?]
  | cons field rest ih =>
    obtain ⟨n, v⟩ := field
    rw [Fields.without] at ih ⊢
    by_cases h : n = name
    · subst h
      by_cases ho : other = n <;> simp_all [Fields.get?_cons]
    · by_cases ho : other = n
      · subst ho
        simp_all [Fields.get?_cons]
      · simp_all [Fields.get?_cons]

end Json

end ApiOutline
