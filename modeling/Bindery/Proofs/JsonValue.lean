import Bindery.Json.Read
import Bindery.Proofs.JsonLayout

/-!
# Values that are read back

The text of a value on one line without blanks is a text of its tree, as in a layout without
spaces, `spells_compress`. `Legible` says of which values the tree is read as the value itself, so
that nothing is lost between writing and reading: `parse_compress`, and `parse_layout` in a layout.
-/

namespace Bindery.Json

open Raw (Spells)

/-- The layout that has no spaces. -/
def tight : Layout := ⟨0, 0, 0, 0⟩

theorem enclose_tight (opening closing : String) (members : List String) :
    tight.enclose opening closing members = opening ++ ",".intercalate members ++ closing := by
  have hspaces : Layout.spaces 0 = "" := rfl
  rcases members with _ | ⟨s, r⟩
  · simp [Layout.enclose]
  · rw [Layout.enclose, if_neg (List.cons_ne_nil s r)]
    simp only [tight, hspaces, String.append_empty]

mutual

theorem inline_tight : ∀ v : Json, tight.inline v = v.compress
  | .arr items => by
    rw [Layout.inline, compress, enclose_tight, inlineItems_tight items]
  | .obj fields => by
    rw [Layout.inline, compress, enclose_tight, inlineFields_tight fields]
  | .null => rfl
  | .bool _ => rfl
  | .num _ => rfl
  | .str _ => rfl

theorem inlineItems_tight : ∀ items : List Json, tight.inlineItems items = compressItems items
  | [] => rfl
  | v :: r => by rw [Layout.inlineItems, compressItems, inline_tight v, inlineItems_tight r]

theorem inlineFields_tight : ∀ fields : List (String × Json),
    tight.inlineFields fields = compressFields fields
  | [] => rfl
  | (k, v) :: r => by
    have hlabel : tight.label k = quote k ++ ":" := by
      have hspaces : Layout.spaces 0 = "" := rfl
      simp only [Layout.label, tight, hspaces, String.append_empty]
    rw [Layout.inlineFields, compressFields, inline_tight v, inlineFields_tight r, hlabel]

end

theorem spells_compress {v : Json} (h : NumbersRead v) : Spells v.compress.toList v.raw := by
  rw [← inline_tight]
  exact spells_inline tight v h

mutual

/-- The value nests at most so many arrays and objects, its objects are sorted, and its numbers are
what their texts are read as. -/
def Legible (depth : Nat) : Json → Prop
  | .num n => Raw.IsNumeral n.text.toList n.numeral ∧ n.numeral.number? = some n
  | .arr items => depth ≠ 0 ∧ LegibleItems (depth - 1) items
  | .obj fields => depth ≠ 0 ∧ Table.Increasing fields ∧ LegibleFields (depth - 1) fields
  | _ => True

def LegibleItems (depth : Nat) : List Json → Prop
  | [] => True
  | v :: r => Legible depth v ∧ LegibleItems depth r

def LegibleFields (depth : Nat) : List (String × Json) → Prop
  | [] => True
  | (_, v) :: r => Legible depth v ∧ LegibleFields depth r

end

mutual

theorem Legible.numbersRead : ∀ {depth : Nat} {v : Json}, Legible depth v → NumbersRead v
  | _, .null, _ => trivial
  | _, .bool _, _ => trivial
  | _, .num _, h => h.1
  | _, .str _, _ => trivial
  | _, .arr _, h => LegibleItems.numbersRead h.2
  | _, .obj _, h => LegibleFields.numbersRead h.2.2

theorem LegibleItems.numbersRead : ∀ {depth : Nat} {items : List Json}, LegibleItems depth items →
    NumbersReadItems items
  | _, [], _ => trivial
  | _, _ :: _, h => ⟨h.1.numbersRead, LegibleItems.numbersRead h.2⟩

theorem LegibleFields.numbersRead : ∀ {depth : Nat} {fields : List (String × Json)},
    LegibleFields depth fields → NumbersReadFields fields
  | _, [], _ => trivial
  | _, (_, _) :: _, h => ⟨h.1.numbersRead, LegibleFields.numbersRead h.2⟩

end

theorem legible_ofStrings {depth : Nat} (h : depth ≠ 0) (texts : List String) :
    Legible depth (ofStrings texts) := by
  refine ⟨h, ?_⟩
  induction texts with
  | nil => trivial
  | cons s r ih => exact ⟨trivial, ih⟩

theorem ofFields_increasing {fields : List (String × Json)} (h : Table.Increasing fields) :
    ofFields fields = .obj fields := by
  have hempty : Table.Increasing ([] ++ fields) := h
  rw [ofFields, Table.foldl_put hempty, List.nil_append]

mutual

theorem read_raw : ∀ {depth : Nat} {v : Json}, Legible depth v → v.raw.read depth = .ok v
  | _, .null, _ => rfl
  | _, .bool _, _ => rfl
  | _, .num n, h => by rw [raw, Raw.read, h.2]
  | _, .str s, _ => by
    rw [raw, Raw.read, readString_glyphsOf]
    rfl
  | _, .arr items, h => by
    rw [raw, Raw.read, if_neg h.1, readItems_raw h.2]
    rfl
  | _, .obj fields, h => by
    rw [raw, Raw.read, if_neg h.1, readFields_raw h.2.2]
    exact congrArg Except.ok (ofFields_increasing h.2.1)

theorem readItems_raw : ∀ {depth : Nat} {items : List Json}, LegibleItems depth items →
    Raw.readItems depth (rawItems items) = .ok items
  | _, [], _ => rfl
  | _, v :: r, h => by
    rw [rawItems, Raw.readItems, read_raw h.1, readItems_raw h.2]
    rfl

theorem readFields_raw : ∀ {depth : Nat} {fields : List (String × Json)},
    LegibleFields depth fields → Raw.readFields depth (rawFields fields) = .ok fields
  | _, [], _ => rfl
  | _, (k, v) :: r, h => by
    rw [rawFields, Raw.readFields, readString_glyphsOf, read_raw h.1, readFields_raw h.2]
    rfl

end

theorem parse_of_spells {v : Json} (h : Legible nestingLimit v) {text : String}
    (ht : Spells text.toList v.raw) : parse text = .ok v := by
  rw [parse, parseNested, Raw.parse_of_spells ht]
  exact read_raw h

/-- The text of a value is read as the value. -/
theorem parse_compress {v : Json} (h : Legible nestingLimit v) : parse v.compress = .ok v :=
  parse_of_spells h (spells_compress h.numbersRead)

/-- The text of a value in any layout is read as the value. -/
theorem parse_layout (l : Layout) {v : Json} (h : Legible nestingLimit v) :
    parse (l.text v) = .ok v :=
  parse_of_spells h (spells_text l v h.numbersRead)

end Bindery.Json
