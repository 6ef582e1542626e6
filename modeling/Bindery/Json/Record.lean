import Bindery.Json.Read

/-!
# Records in JSON

A record is written as an object of named fields or as the array of its fields in order. A field
that the record does not know is skipped unread; a field that it knows stands at most once. An
array may end early where the missing fields may be missing, and may not go on after the last.
-/

namespace Bindery.Json.Raw

/-- Puts the fields of an object into their places in the record. -/
def place (names : List String) : List (List Glyph × Raw) → List (Option Raw) →
    Except Fault (List (Option Raw))
  | [], slots => .ok slots
  | (k, v) :: r, slots => do
    let k ← readString k
    match names.idxOf? k with
    | none => place names r slots
    | some i =>
      match slots[i]? with
      | some (some _) => .error (.repeated k)
      | _ => place names r (slots.set i (some v))

/-- The fields of a record, each as written or absent. -/
def record (names : List String) : Raw → Except Fault (List (Option Raw))
  | .obj fields => place names fields (names.map fun _ => none)
  | .arr items =>
    if names.length < items.length then .error .surplus
    else .ok (items.map some ++ (names.drop items.length).map fun _ => none)
  | _ => .error (.kind "a record")

def string : Raw → Except Fault String
  | .str s => readString s
  | _ => .error (.kind "a string")

def strings : Raw → Except Fault (List String)
  | .arr items => items.mapM string
  | _ => .error (.kind "an array of strings")

/-- A field that may be absent or null. -/
def optional {α : Type} (read : Raw → Except Fault α) : Option Raw → Except Fault (Option α)
  | none | some .null => .ok none
  | some v => (read v).map some

/-- A field that has a value when it is absent. -/
def withDefault {α : Type} (read : Raw → Except Fault α) (value : α) :
    Option Raw → Except Fault α
  | none => .ok value
  | some v => read v

def required {α : Type} (read : Raw → Except Fault α) (name : String) :
    Option Raw → Except Fault α
  | none => .error (.missing name)
  | some v => read v

/-- The entries of an object whose keys are free, as written. -/
def entries : Raw → Except Fault (List (String × Raw))
  | .obj fields => fields.mapM fun (k, v) => return (← readString k, v)
  | _ => .error (.kind "an object")

end Bindery.Json.Raw
