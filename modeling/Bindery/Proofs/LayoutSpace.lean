import Bindery.Proofs.JsonValue
import Bindery.Proofs.TextPlaces

/-!
# What layouts leave alone

A layout puts spaces and newlines between the parts of a text, and none into strings: without those
outside its strings the text is the text on one line without blanks, `unspaced_text`. So the texts
of a value in two layouts are the same but for these, and the value is read from each of them:
`text_faithful`.
-/

namespace Bindery.Json

open Place (outside)

def IsSpace (c : Char) : Prop := c = ' ' ∨ c = '\n'

instance : DecidablePred IsSpace := fun _ => inferInstanceAs (Decidable (_ ∨ _))

/-- The text without the spaces and newlines outside its strings. -/
def unspaced (s : String) : String :=
  String.ofList (((outside.placed s.toList).filter fun x => ¬ (x.1 = .outside ∧ IsSpace x.2)).map
    (·.2))

/-- A text that ends outside strings and is another one without its spaces. -/
structure Condenses (s t : String) : Prop where
  after : outside.after s.toList = .outside
  unspaced : unspaced s = t

namespace Condenses

theorem append {s s' t t' : String} (h : Condenses s t) (h' : Condenses s' t') :
    Condenses (s ++ s') (t ++ t') := by
  constructor
  · rw [String.toList_append, Place.after_append, h.after, h'.after]
  · rw [← h.unspaced, ← h'.unspaced]
    simp only [Json.unspaced, String.toList_append, Place.placed_append, h.after,
      List.filter_append, List.map_append, String.ofList_append]

theorem of_spaces {s : String} (h : ∀ c ∈ s.toList, IsSpace c) : Condenses s "" := by
  have hquote : '"' ∉ s.toList := fun hmem => absurd (h _ hmem) (by decide)
  refine ⟨Place.after_unquoted hquote, ?_⟩
  rw [Json.unspaced, Place.placed_unquoted hquote, List.filter_map, List.filter_eq_nil_iff.2]
  · rfl
  · simpa using h

theorem of_solid {s : String} (h : ∀ c ∈ s.toList, c ≠ '"' ∧ ¬ IsSpace c) : Condenses s s := by
  have hquote : '"' ∉ s.toList := fun hmem => (h _ hmem).1 rfl
  refine ⟨Place.after_unquoted hquote, ?_⟩
  have hall : ∀ x ∈ outside.placed s.toList, decide (¬ (x.1 = .outside ∧ IsSpace x.2)) = true := by
    rw [Place.placed_unquoted hquote]
    simpa using fun c hc => (h c hc).2
  rw [Json.unspaced, List.filter_eq_self.2 hall, Place.map_snd_placed, String.ofList_toList]

theorem quote (s : String) : Condenses (quote s) (Json.quote s) := by
  obtain ⟨hafter, rest, hplaced, hrest⟩ := Place.placed_quote s
  refine ⟨hafter, ?_⟩
  have hall : ∀ x ∈ outside.placed (Json.quote s).toList,
      decide (¬ (x.1 = .outside ∧ IsSpace x.2)) = true := by
    rw [hplaced]
    refine List.forall_mem_cons.2 ⟨by decide, fun x hx => ?_⟩
    simp [hrest x hx]
  rw [Json.unspaced, List.filter_eq_self.2 hall, Place.map_snd_placed, String.ofList_toList]

theorem of_number (n : Number) : Condenses n.text n.text := by
  have hsolid : ∀ c, IsNumeric c → c ≠ '"' ∧ ¬ IsSpace c := by
    rintro c hc
    refine ⟨?_, ?_⟩
    · rintro rfl
      exact absurd hc (by simp [IsNumeric])
    · rintro (rfl | rfl) <;> exact absurd hc (by simp [IsNumeric])
  exact of_solid fun c hc => hsolid c (numeric_text n c hc)

theorem plain : ∀ {v : Json}, v.hasMembers = false → Condenses v.compress v.compress
  | .null, _ | .bool true, _ | .bool false, _ => of_solid (by simp [compress, IsSpace])
  | .num n, _ => of_number n
  | .str s, _ => quote s
  | .arr [], _ | .obj [], _ => of_solid (by simp [compress, compressItems, compressFields, IsSpace])

theorem join {sep : String} (hsep : ∀ c ∈ sep.toList, IsSpace c) : ∀ {members texts : List String},
    List.Forall₂ Condenses members texts →
    Condenses (("," ++ sep).intercalate members) (",".intercalate texts)
  | _, _, .nil => of_spaces (by simp)
  | _, _, .cons hs .nil => by simpa using hs
  | s :: s' :: r, t :: t' :: r', .cons hs hr => by
    have hcomma : Condenses ("," ++ sep) ("," ++ "") :=
      (of_solid (by simp [IsSpace])).append (of_spaces hsep)
    rw [String.intercalate_cons_of_ne_nil (List.cons_ne_nil s' r),
      String.intercalate_cons_of_ne_nil (List.cons_ne_nil t' r')]
    exact (hs.append hcomma).append (join hsep hr)

theorem bracket {opening closing front sep back : String} {members texts : List String}
    (hopening : ∀ c ∈ opening.toList, c ≠ '"' ∧ ¬ IsSpace c)
    (hclosing : ∀ c ∈ closing.toList, c ≠ '"' ∧ ¬ IsSpace c)
    (hfront : ∀ c ∈ front.toList, IsSpace c) (hsep : ∀ c ∈ sep.toList, IsSpace c)
    (hback : ∀ c ∈ back.toList, IsSpace c) (h : List.Forall₂ Condenses members texts) :
    Condenses (opening ++ front ++ ("," ++ sep).intercalate members ++ back ++ closing)
      (opening ++ ",".intercalate texts ++ closing) := by
  have hall := ((((of_solid hopening).append (of_spaces hfront)).append (join hsep h)).append
    (of_spaces hback)).append (of_solid hclosing)
  simpa only [String.append_empty] using hall

theorem items {members : List String} {items : List Json}
    (h : List.Forall₂ (fun s v => Condenses s v.compress) members items) :
    List.Forall₂ Condenses members (compressItems items) := by
  induction h with
  | nil => exact .nil
  | cons hs _ ih => exact .cons hs ih

theorem fields {members : List String} {fields : List (String × Json)}
    (h : List.Forall₂ (Labelled (∀ c ∈ ·.toList, IsSpace c) fun s v => Condenses s v.compress)
      members fields) : List.Forall₂ Condenses members (compressFields fields) := by
  induction h with
  | nil => exact .nil
  | @cons _ f _ _ hs _ ih =>
    obtain ⟨k, v⟩ := f
    obtain ⟨gap, body, hgap, hbody, rfl⟩ := hs
    refine .cons ?_ ih
    have hcolon : Condenses ":" ":" := of_solid (by simp [IsSpace])
    simpa only [String.append_empty] using
      (((quote k).append hcolon).append (of_spaces hgap)).append hbody

theorem composes : Composes (∀ c ∈ ·.toList, IsSpace c) fun s v => Condenses s v.compress where
  plain := plain
  arr hfront hsep hback _ _ _ h := by
    rw [compress]
    exact bracket (by simp [IsSpace]) (by simp [IsSpace]) hfront hsep hback (items h)
  obj hfront hsep hback _ _ _ h := by
    rw [compress]
    exact bracket (by simp [IsSpace]) (by simp [IsSpace]) hfront hsep hback (fields h)

end Condenses

theorem isSpace_spaces (n : Nat) : ∀ c ∈ (Layout.spaces n).toList, IsSpace c := by
  intro c hc
  rw [Layout.spaces, String.toList_ofList] at hc
  exact .inl (List.eq_of_mem_replicate hc)

theorem isSpace_break (n : Nat) : ∀ c ∈ ("\n" ++ Layout.spaces n).toList, IsSpace c := by
  rw [String.toList_append]
  exact List.forall_mem_append.2 ⟨by simp [IsSpace], isSpace_spaces n⟩

/-- Without its spaces a text in a layout is the text on one line without blanks. -/
theorem unspaced_text (l : Layout) (v : Json) : unspaced (l.text v) = v.compress :=
  (Condenses.composes.text isSpace_spaces isSpace_break l v).unspaced

mutual

/-- Every number in the value is whole and fits 64 bits. -/
def Whole : Json → Prop
  | .num n => n.Fits
  | .arr items => WholeItems items
  | .obj fields => WholeFields fields
  | _ => True

def WholeItems : List Json → Prop
  | [] => True
  | v :: r => Whole v ∧ WholeItems r

def WholeFields : List (String × Json) → Prop
  | [] => True
  | (_, v) :: r => Whole v ∧ WholeFields r

end

mutual

/-- How many arrays and objects of the value stand in one another. -/
def nesting : Json → Nat
  | .arr items => nestingItems items + 1
  | .obj fields => nestingFields fields + 1
  | _ => 0

def nestingItems : List Json → Nat
  | [] => 0
  | v :: r => max (nesting v) (nestingItems r)

def nestingFields : List (String × Json) → Nat
  | [] => 0
  | (_, v) :: r => max (nesting v) (nestingFields r)

end

mutual

theorem legible_of_whole : ∀ {depth : Nat} {v : Json}, v.Sorted → v.Whole → v.nesting ≤ depth →
    Legible depth v
  | _, .null, _, _, _ => trivial
  | _, .bool _, _, _, _ => trivial
  | _, .num (.whole n), _, hw, _ => ⟨isNumeral_whole n, number?_whole hw⟩
  | _, .str _, _, _, _ => trivial
  | depth, .arr items, hs, hw, hd => by
    rw [nesting] at hd
    exact ⟨by omega, legibleItems_of_whole hs hw (by omega)⟩
  | depth, .obj fields, hs, hw, hd => by
    rw [nesting] at hd
    exact ⟨by omega, hs.1, legibleFields_of_whole hs.2 hw (by omega)⟩

theorem legibleItems_of_whole : ∀ {depth : Nat} {items : List Json}, SortedItems items →
    WholeItems items → nestingItems items ≤ depth → LegibleItems depth items
  | _, [], _, _, _ => trivial
  | _, _ :: _, hs, hw, hd =>
    ⟨legible_of_whole hs.1 hw.1 (Nat.max_le.1 hd).1,
      legibleItems_of_whole hs.2 hw.2 (Nat.max_le.1 hd).2⟩

theorem legibleFields_of_whole : ∀ {depth : Nat} {fields : List (String × Json)},
    SortedFields fields → WholeFields fields → nestingFields fields ≤ depth →
    LegibleFields depth fields
  | _, [], _, _, _ => trivial
  | _, (_, _) :: _, hs, hw, hd =>
    ⟨legible_of_whole hs.1 hw.1 (Nat.max_le.1 hd).1,
      legibleFields_of_whole hs.2 hw.2 (Nat.max_le.1 hd).2⟩

end

/-- A value of whole numbers that is not nested too deep is read from its text in every layout, and
the texts in two layouts differ in spaces and newlines outside strings only. -/
theorem text_faithful {v : Json} (hsorted : v.Sorted) (hwhole : v.Whole) (hdepth : v.nesting ≤ 127)
    (l l' : Layout) :
    parse (l.text v) = .ok v ∧ unspaced (l.text v) = unspaced (l'.text v)
      ∧ unspaced (l.text v) = v.compress := by
  have hlegible : Legible nestingLimit v := legible_of_whole hsorted hwhole hdepth
  exact ⟨parse_layout l hlegible, by rw [unspaced_text, unspaced_text], unspaced_text l v⟩

/-- A value with quotes, a newline and brackets in its strings, and with the least and the greatest
number. -/
def knotted : Json :=
  .obj [("\"k\n", .arr [.num (.whole (-9223372036854775808)), .num (.whole 18446744073709551615)]),
    ("s", .arr [.str "a \\\" [b", .arr [], .obj []])]

/-- The value in a layout that breaks every array and object, and in the common one. -/
theorem text_faithful_knotted :
    knotted.Sorted ∧ knotted.Whole ∧ knotted.nesting ≤ 127
      ∧ parse (Layout.text ⟨2, 0, 3, 0⟩ knotted) = .ok knotted
      ∧ unspaced (Layout.text ⟨2, 0, 3, 0⟩ knotted) = unspaced (Layout.text ⟨1, 1, 1, 80⟩ knotted)
      ∧ unspaced (Layout.text ⟨2, 0, 3, 0⟩ knotted) = knotted.compress := by
  have hsorted : knotted.Sorted := by
    simp only [knotted, Sorted, SortedFields, SortedItems, Table.Increasing, and_true]
    decide
  have hwhole : knotted.Whole := by
    simp [knotted, Whole, WholeFields, WholeItems, Number.Fits]
  exact ⟨hsorted, hwhole, by decide, text_faithful hsorted hwhole (by decide) _ _⟩

end Bindery.Json
