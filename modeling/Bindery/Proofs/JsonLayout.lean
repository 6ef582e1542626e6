import Bindery.Proofs.JsonText
import Bindery.Proofs.LayoutParts

/-!
# Values in every layout

Texts of trees are put together from texts of their members with blanks between them,
`spells_composes`. So in every layout the text of a value is a text of its tree, and is read as that
tree: `parse_text`.
-/

namespace Bindery.Json

open Raw (Blank Spells SpellsItems SpellsFields)

/-- What the text of a number is read as. -/
def Number.numeral (n : Number) : Numeral :=
  ((Raw.numeral n.text.toList).map (·.1)).getD ⟨false, [], none, none⟩

mutual

/-- The tree that the text of a value is read as. -/
def raw : Json → Raw
  | .null => .null
  | .bool b => .bool b
  | .num n => .num n.numeral
  | .str s => .str (glyphsOf s)
  | .arr items => .arr (rawItems items)
  | .obj fields => .obj (rawFields fields)

def rawItems : List Json → List Raw
  | [] => []
  | v :: r => raw v :: rawItems r

def rawFields : List (String × Json) → List (List Glyph × Raw)
  | [] => []
  | (k, v) :: r => (glyphsOf k, raw v) :: rawFields r

end

theorem rawItems_eq_map (items : List Json) : rawItems items = items.map raw := by
  induction items with
  | nil => rfl
  | cons v r ih => rw [rawItems, ih, List.map_cons]

theorem rawFields_eq_map (fields : List (String × Json)) :
    rawFields fields = fields.map fun f => (glyphsOf f.1, f.2.raw) := by
  induction fields with
  | nil => rfl
  | cons f r ih =>
    obtain ⟨k, v⟩ := f
    rw [rawFields, ih, List.map_cons]

mutual

/-- Every number in the value is read from its text as a numeral. -/
def NumbersRead : Json → Prop
  | .num n => Raw.IsNumeral n.text.toList n.numeral
  | .arr items => NumbersReadItems items
  | .obj fields => NumbersReadFields fields
  | _ => True

def NumbersReadItems : List Json → Prop
  | [] => True
  | v :: r => NumbersRead v ∧ NumbersReadItems r

def NumbersReadFields : List (String × Json) → Prop
  | [] => True
  | (_, v) :: r => NumbersRead v ∧ NumbersReadFields r

end

theorem blank_spaces (n : Nat) : Blank (Layout.spaces n).toList := by
  intro c hc
  rw [Layout.spaces, String.toList_ofList] at hc
  rw [List.eq_of_mem_replicate hc]
  rfl

theorem blank_append {bs ds : List Char} (hb : Blank bs) (hd : Blank ds) : Blank (bs ++ ds) := by
  intro c hc
  rcases List.mem_append.1 hc with hc | hc
  · exact hb c hc
  · exact hd c hc

theorem blank_newline : Blank ['\n'] := by
  intro c hc
  rw [List.mem_singleton.1 hc]
  rfl

theorem spells_blank {v : Raw} : ∀ {bs cs : List Char}, Blank bs → Spells cs v →
    Spells (bs ++ cs) v
  | [], _, _, h => h
  | c :: bs, _, hb, h =>
    .blank (hb c (by simp)) (spells_blank (fun x hx => hb x (List.mem_cons_of_mem _ hx)) h)

theorem spellsItems_blank {bs cs : List Char} {vs : List Raw} (hb : Blank bs)
    (h : SpellsItems cs vs) : SpellsItems (bs ++ cs) vs := by
  cases h with
  | last h hb' =>
    rw [← List.append_assoc, ← List.append_assoc]
    exact .last (spells_blank hb h) hb'
  | more h hb' hr =>
    rw [← List.append_assoc, ← List.append_assoc]
    exact .more (spells_blank hb h) hb' hr

theorem spellsFields_blank {bs cs : List Char} {fs : List (List Glyph × Raw)} (hb : Blank bs)
    (h : SpellsFields cs fs) : SpellsFields (bs ++ cs) fs := by
  cases h with
  | last ha k h hb' =>
    have hlast := SpellsFields.last (blank_append hb ha) k h hb'
    simpa only [List.append_assoc] using hlast
  | more ha k h hb' hr =>
    have hmore := SpellsFields.more (blank_append hb ha) k h hb' hr
    simpa only [List.append_assoc] using hmore

/-- The text of a field of an object and what it is read as. -/
def SpellsField (cs : List Char) (f : List Glyph × Raw) : Prop :=
  ∃ k ds v, cs = '"' :: k.toList.flatMap escape ++ '"' :: ':' :: ds ∧ f = (glyphsOf k, v)
    ∧ Spells ds v

theorem toList_join (sep s : String) {r : List String} (h : r ≠ []) :
    (("," ++ sep).intercalate (s :: r)).toList =
      s.toList ++ ',' :: (sep.toList ++ (("," ++ sep).intercalate r).toList) := by
  rw [String.intercalate_cons_of_ne_nil h]
  simp

theorem spellsItems_join {sep : String} (hsep : Blank sep.toList) {bs : List Char}
    (hb : Blank bs) : ∀ {members : List String} {vs : List Raw}, members ≠ [] →
      List.Forall₂ (fun s v => Spells s.toList v) members vs →
      SpellsItems ((("," ++ sep).intercalate members).toList ++ bs ++ [']']) vs
  | [_], _, _, .cons h .nil => by
    rw [String.intercalate_singleton]
    exact .last h hb
  | s :: t :: r, _, _, .cons h hr => by
    have hrest := spellsItems_blank hsep (spellsItems_join hsep hb (List.cons_ne_nil t r) hr)
    have hnone : Blank [] := by simp [Blank]
    have hmore := SpellsItems.more h hnone hrest
    rw [toList_join sep s (List.cons_ne_nil t r)]
    simpa only [List.append_nil, List.append_assoc, List.cons_append] using hmore

theorem spellsFields_join {sep : String} (hsep : Blank sep.toList) {bs : List Char}
    (hb : Blank bs) : ∀ {members : List String} {fs : List (List Glyph × Raw)}, members ≠ [] →
      List.Forall₂ (fun s f => SpellsField s.toList f) members fs →
      SpellsFields ((("," ++ sep).intercalate members).toList ++ bs ++ ['\x7d']) fs
  | [_], _, _, .cons ⟨k, ds, v, hs, hf, h⟩ .nil => by
    have hnone : Blank [] := by simp [Blank]
    have hlast := SpellsFields.last hnone k h hb
    rw [String.intercalate_singleton, hs, hf]
    simpa only [List.nil_append] using hlast
  | s :: t :: r, _, _, .cons ⟨k, ds, v, hs, hf, h⟩ hr => by
    have hrest := spellsFields_blank hsep (spellsFields_join hsep hb (List.cons_ne_nil t r) hr)
    have hnone : Blank [] := by simp [Blank]
    have hmore := SpellsFields.more hnone k h hnone hrest
    rw [toList_join sep s (List.cons_ne_nil t r), hs, hf]
    simpa only [List.append_nil, List.nil_append, List.append_assoc, List.cons_append] using hmore

section Brackets

variable {front sep back : String} {members : List String} (hfront : Blank front.toList)
  (hsep : Blank sep.toList) (hback : Blank back.toList) (hne : members ≠ [])

include hfront hsep hback hne

theorem spells_array {vs : List Raw}
    (h : List.Forall₂ (fun s v => Spells s.toList v) members vs) :
    Spells ("[" ++ front ++ ("," ++ sep).intercalate members ++ back ++ "]").toList (.arr vs) := by
  have hitems := spellsItems_blank hfront (spellsItems_join hsep hback hne h)
  have hopen : "[".toList = ['['] := rfl
  have hclose : "]".toList = [']'] := rfl
  rw [List.append_assoc] at hitems
  simp only [String.toList_append, hopen, hclose, List.append_assoc, List.singleton_append]
  exact .arr hitems

theorem spells_object {fs : List (List Glyph × Raw)}
    (h : List.Forall₂ (fun s f => SpellsField s.toList f) members fs) :
    Spells ("\x7b" ++ front ++ ("," ++ sep).intercalate members ++ back ++ "\x7d").toList
      (.obj fs) := by
  have hfields := spellsFields_blank hfront (spellsFields_join hsep hback hne h)
  have hopen : "\x7b".toList = ['\x7b'] := rfl
  have hclose : "\x7d".toList = ['\x7d'] := rfl
  rw [List.append_assoc] at hfields
  simp only [String.toList_append, hopen, hclose, List.append_assoc, List.singleton_append]
  exact .obj hfields

end Brackets

theorem spells_emptyArray : Spells "[]".toList (.arr []) := by
  have hnone : Blank [] := by simp [Blank]
  exact .emptyArr hnone

theorem spells_emptyObject : Spells "\x7b\x7d".toList (.obj []) := by
  have hnone : Blank [] := by simp [Blank]
  exact .emptyObj hnone

theorem forall₂_spells {members : List String} {items : List Json}
    (h : List.Forall₂ (fun s v => NumbersRead v → Spells s.toList v.raw) members items)
    (hn : NumbersReadItems items) :
    List.Forall₂ (fun s v => Spells s.toList v) members (rawItems items) := by
  induction h with
  | nil => exact .nil
  | cons hs _ ih => exact .cons (hs hn.1) (ih hn.2)

theorem forall₂_spellsField {members : List String} {fields : List (String × Json)}
    (h : List.Forall₂ (Labelled (Blank ·.toList) fun s v => NumbersRead v → Spells s.toList v.raw)
      members fields) (hn : NumbersReadFields fields) :
    List.Forall₂ (fun s f => SpellsField s.toList f) members (rawFields fields) := by
  induction h with
  | nil => exact .nil
  | @cons _ f _ _ hs _ ih =>
    obtain ⟨k, v⟩ := f
    obtain ⟨gap, body, hgap, hbody, rfl⟩ := hs
    refine .cons ⟨k, gap.toList ++ body.toList, v.raw, ?_, rfl,
      spells_blank hgap (hbody hn.1)⟩ (ih hn.2)
    have hcolon : ":".toList = [':'] := rfl
    simp only [quote, String.toList_append, String.toList_ofList, hcolon, List.cons_append,
      List.append_assoc, List.nil_append]

theorem spells_plain : ∀ {v : Json}, v.hasMembers = false → NumbersRead v →
    Spells v.compress.toList v.raw
  | .null, _, _ => .null
  | .bool true, _, _ => .yes
  | .bool false, _, _ => .no
  | .num _, _, hn => .num hn
  | .str s, _, _ => by
    rw [compress, quote, String.toList_ofList, raw]
    exact .str s
  | .arr [], _, _ => spells_emptyArray
  | .obj [], _, _ => spells_emptyObject

theorem spells_composes :
    Composes (Blank ·.toList) fun s v => NumbersRead v → Spells s.toList v.raw where
  plain := spells_plain
  arr hfront hsep hback _ _ hne h hn := by
    rw [raw]
    exact spells_array hfront hsep hback hne (forall₂_spells h hn)
  obj hfront hsep hback _ _ hne h hn := by
    rw [raw]
    exact spells_object hfront hsep hback hne (forall₂_spellsField h hn)

theorem blank_break (n : Nat) : Blank ("\n" ++ Layout.spaces n).toList := by
  rw [String.toList_append]
  exact blank_append blank_newline (blank_spaces n)

theorem spells_inline (l : Layout) (v : Json) (h : NumbersRead v) :
    Spells (l.inline v).toList v.raw :=
  spells_composes.inline blank_spaces l v h

theorem spells_text (l : Layout) (v : Json) (h : NumbersRead v) : Spells (l.text v).toList v.raw :=
  spells_composes.text blank_spaces blank_break l v h

/-- The text of a value in any layout is read as its tree. -/
theorem parse_text (l : Layout) {v : Json} (h : NumbersRead v) :
    Raw.parse (l.text v) = some v.raw :=
  Raw.parse_of_spells (spells_text l v h)

end Bindery.Json
