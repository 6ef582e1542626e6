import Bindery.Json.Layout
import Bindery.Json.Record
import Mathlib.Data.List.Basic
import Mathlib.Data.List.TakeWhile

/-!
# Texts of JSON values

`raw` is the tree that the text of a value is read as. `Spells` says which texts, with blanks
wherever the grammar has them, are texts of a tree; such a text is read as that tree,
`parse_of_spells`.
-/

namespace Bindery.Json

/-- How a character is written in a string: a control character without a short escape as its
unit, any other as itself. -/
def glyphOf (c : Char) : Glyph :=
  if c < ' ' ∧ c ∉ ['\x08', '\x0c', '\n', '\r', '\t'] then .unit c.toNat else .char c

def glyphsOf (s : String) : List Glyph := s.toList.map glyphOf

theorem toNat_lt_of_lt_space {c : Char} (h : c < ' ') : c.toNat < 32 := h

theorem hexUnit_control : ∀ n < 32, Raw.hexUnit '0' '0' (hexDigit (n / 16)) (hexDigit (n % 16)) =
    some n := by decide

theorem glyphs_short {x c : Char} (hx : x ≠ 'u') (h : Raw.shortEscape x = some c)
    (r : List Char) :
    Raw.glyphs ('\\' :: x :: r) = (Raw.glyphs r).map fun p => (.char c :: p.1, p.2) := by
  rw [Raw.glyphs]
  · rw [h]
    cases Raw.glyphs r <;> rfl
  · exact fun _ _ _ _ _ hu => absurd hu hx

theorem glyphs_escape (c : Char) (r : List Char) :
    Raw.glyphs (escape c ++ r) = (Raw.glyphs r).map fun p => (glyphOf c :: p.1, p.2) := by
  unfold escape
  split_ifs with h1 h2 h3 h4 h5 h6 h7 h8
  · subst h1; exact glyphs_short (by decide) rfl r
  · subst h2; exact glyphs_short (by decide) rfl r
  · subst h3; exact glyphs_short (by decide) rfl r
  · subst h4; exact glyphs_short (by decide) rfl r
  · subst h5; exact glyphs_short (by decide) rfl r
  · subst h6; exact glyphs_short (by decide) rfl r
  · subst h7; exact glyphs_short (by decide) rfl r
  · have hunit := hexUnit_control c.toNat (toNat_lt_of_lt_space h8)
    have hglyph : glyphOf c = .unit c.toNat := by
      rw [glyphOf, if_pos]
      exact ⟨h8, by simp [h3, h4, h5, h6, h7]⟩
    simp only [List.cons_append, List.nil_append, Raw.glyphs, hunit, hglyph]
    cases Raw.glyphs r <;> rfl
  · have hglyph : glyphOf c = .char c := by
      rw [glyphOf, if_neg fun h => h8 h.1]
    rw [List.singleton_append, Raw.glyphs]
    · rw [if_neg h8, hglyph]
      cases Raw.glyphs r <;> rfl
    · exact h1
    · exact fun _ _ _ _ _ hc => absurd hc h2
    · exact fun _ _ hc => absurd hc h2

theorem glyphs_flatMap_escape (r : List Char) : ∀ cs : List Char,
    Raw.glyphs (cs.flatMap escape ++ '"' :: r) = some (cs.map glyphOf, r)
  | [] => rfl
  | c :: cs => by
    rw [List.flatMap_cons, List.append_assoc, glyphs_escape, glyphs_flatMap_escape r cs]
    rfl

theorem glyphs_quote (s : String) (r : List Char) :
    Raw.glyphs (s.toList.flatMap escape ++ '"' :: r) = some (glyphsOf s, r) :=
  glyphs_flatMap_escape r s.toList

theorem chars_map_glyphOf : ∀ cs : List Char, chars (cs.map glyphOf) = some cs
  | [] => rfl
  | c :: cs => by
    have ih := chars_map_glyphOf cs
    rw [List.map_cons]
    by_cases h : c < ' ' ∧ c ∉ ['\x08', '\x0c', '\n', '\r', '\t']
    · have hlt := toNat_lt_of_lt_space h.1
      have hhigh : isHighSurrogate c.toNat = false := by
        simp only [isHighSurrogate, Bool.and_eq_false_iff, decide_eq_false_iff_not]
        omega
      have hlow : isLowSurrogate c.toNat = false := by
        simp only [isLowSurrogate, Bool.and_eq_false_iff, decide_eq_false_iff_not]
        omega
      rw [glyphOf, if_pos h, chars.eq_def]
      split
      · simp_all
      · simp_all
      · rename_i n m r heq
        obtain ⟨hn, hr⟩ := List.cons.inj heq
        cases hn
        rw [← hr, ih, hhigh, hlow]
        simp
      · rename_i n r _ heq
        obtain ⟨hn, hr⟩ := List.cons.inj heq
        cases hn
        rw [← hr, ih, hhigh, hlow]
        simp
    · rw [glyphOf, if_neg h, chars, ih]
      rfl

theorem readString_glyphsOf (s : String) : readString (glyphsOf s) = .ok s := by
  rw [readString, glyphsOf, chars_map_glyphOf]
  simp

namespace Raw

/-- What may follow a numeral that it does not go on with. -/
def Ends (r : List Char) : Prop :=
  ∀ c t, r = c :: t → digitValue c = none ∧ c ≠ '.' ∧ c ≠ 'e' ∧ c ≠ 'E'

/-- A text that is read as a numeral, whatever comes after it that the numeral does not go on
with. -/
structure IsNumeral (cs : List Char) (n : Numeral) : Prop where
  first : ∃ c t, cs = c :: t ∧ (c = '-' ∨ (digitValue c).isSome = true)
  read : ∀ r, Ends r → numeral (cs ++ r) = some (n, r)

def Blank (cs : List Char) : Prop := ∀ c ∈ cs, isBlank c = true

mutual

/-- The texts of a tree. Blanks may come first, and stand around what is inside brackets. -/
inductive Spells : List Char → Raw → Prop where
  | blank {c : Char} {cs : List Char} {v : Raw} (hc : isBlank c = true) (h : Spells cs v) :
      Spells (c :: cs) v
  | null : Spells ['n', 'u', 'l', 'l'] .null
  | yes : Spells ['t', 'r', 'u', 'e'] (.bool true)
  | no : Spells ['f', 'a', 'l', 's', 'e'] (.bool false)
  | num {cs : List Char} {n : Numeral} (h : IsNumeral cs n) : Spells cs (.num n)
  | str (s : String) : Spells ('"' :: s.toList.flatMap escape ++ ['"']) (.str (glyphsOf s))
  | emptyArr {bs : List Char} (hb : Blank bs) : Spells ('[' :: bs ++ [']']) (.arr [])
  | arr {cs : List Char} {vs : List Raw} (h : SpellsItems cs vs) : Spells ('[' :: cs) (.arr vs)
  | emptyObj {bs : List Char} (hb : Blank bs) : Spells ('\x7b' :: bs ++ ['\x7d']) (.obj [])
  | obj {cs : List Char} {fs : List (List Glyph × Raw)} (h : SpellsFields cs fs) :
      Spells ('\x7b' :: cs) (.obj fs)

/-- The texts of the items of an array, with the closing bracket. -/
inductive SpellsItems : List Char → List Raw → Prop where
  | last {cs bs : List Char} {v : Raw} (h : Spells cs v) (hb : Blank bs) :
      SpellsItems (cs ++ bs ++ [']']) [v]
  | more {cs bs ds : List Char} {v : Raw} {vs : List Raw} (h : Spells cs v) (hb : Blank bs)
      (hr : SpellsItems ds vs) : SpellsItems (cs ++ bs ++ ',' :: ds) (v :: vs)

/-- The texts of the fields of an object, with the closing brace. -/
inductive SpellsFields : List Char → List (List Glyph × Raw) → Prop where
  | last {as cs bs : List Char} {v : Raw} (ha : Blank as) (k : String) (h : Spells cs v)
      (hb : Blank bs) :
      SpellsFields (as ++ '"' :: k.toList.flatMap escape ++ '"' :: ':' :: cs ++ bs ++ ['\x7d'])
        [(glyphsOf k, v)]
  | more {as cs bs ds : List Char} {v : Raw} {fs : List (List Glyph × Raw)} (ha : Blank as)
      (k : String) (h : Spells cs v) (hb : Blank bs) (hr : SpellsFields ds fs) :
      SpellsFields (as ++ '"' :: k.toList.flatMap escape ++ '"' :: ':' :: cs ++ bs ++ ',' :: ds)
        ((glyphsOf k, v) :: fs)

end

theorem skip_blank {bs : List Char} (hb : Blank bs) (r : List Char) :
    skip (bs ++ r) = skip r := by
  rw [skip, List.dropWhile_append_of_pos hb]
  rfl

theorem skip_cons {c : Char} (hc : isBlank c = false) (r : List Char) :
    skip (c :: r) = c :: r := by
  rw [skip, List.dropWhile_cons_of_neg (by simp [hc])]

theorem skip_blank_cons {bs : List Char} (hb : Blank bs) {c : Char} (hc : isBlank c = false)
    (r : List Char) : skip (bs ++ c :: r) = c :: r := by
  rw [skip_blank hb, skip_cons hc]

theorem skip_skip : ∀ cs : List Char, skip (skip cs) = skip cs
  | [] => rfl
  | c :: r => by
    by_cases hc : isBlank c = true
    · have hskip : skip (c :: r) = skip r := by rw [skip, List.dropWhile_cons_of_pos hc]; rfl
      rw [hskip, skip_skip r]
    · rw [Bool.not_eq_true] at hc
      rw [skip_cons hc, skip_cons hc]

theorem value_skip (n : Nat) (cs : List Char) : value n (skip cs) = value n cs := by
  cases n with
  | zero => rfl
  | succ n => simp only [value, skip_skip]

theorem items_skip (n : Nat) (cs : List Char) : items n (skip cs) = items n cs := by
  cases n with
  | zero => rfl
  | succ n => simp only [items, value_skip]

theorem fields_skip (n : Nat) (cs : List Char) : fields n (skip cs) = fields n cs := by
  cases n with
  | zero => rfl
  | succ n => simp only [fields, skip_skip]

theorem ends_nil : Ends [] := fun _ _ h => by cases h

theorem ends_blank {bs r : List Char} (hb : Blank bs) (hr : Ends r) : Ends (bs ++ r) := by
  rcases bs with _ | ⟨c, t⟩
  · exact hr
  · intro c' t' h
    obtain ⟨rfl, -⟩ := List.cons.inj h
    have hc : isBlank c = true := hb c (by simp)
    simp only [isBlank, Bool.or_eq_true, decide_eq_true_eq] at hc
    rcases hc with ((rfl | rfl) | rfl) | rfl <;> decide

theorem ends_cons {c : Char} (hd : digitValue c = none) (hc : c ≠ '.' ∧ c ≠ 'e' ∧ c ≠ 'E')
    (r : List Char) : Ends (c :: r) := by
  intro c' t h
  obtain ⟨rfl, -⟩ := List.cons.inj h
  exact ⟨hd, hc⟩

theorem ne_of_digit {c x : Char} (hc : c = '-' ∨ (digitValue c).isSome = true)
    (hx : x ≠ '-' ∧ digitValue x = none) : c ≠ x := by
  rintro rfl
  rcases hc with hc | hc
  · exact hx.1 hc
  · rw [hx.2] at hc
    cases hc

theorem isBlank_of_digit {c : Char} (hc : c = '-' ∨ (digitValue c).isSome = true) :
    isBlank c = false := by
  have hall : ∀ x ∈ [' ', '\n', '\t', '\r'], c ≠ x := by
    intro x hx
    have hall : ∀ y ∈ [' ', '\n', '\t', '\r'], y ≠ '-' ∧ digitValue y = none := by
      simp [digitValue]
    exact ne_of_digit hc (hall x hx)
  simpa [isBlank, and_assoc] using hall

/-- The text of a tree starts, after blanks, with a character that closes no array. -/
theorem Spells.first : ∀ {cs : List Char} {v : Raw}, Spells cs v →
    ∃ bs c r, cs = bs ++ c :: r ∧ Blank bs ∧ isBlank c = false ∧ c ≠ ']'
  | _, _, .blank (c := c) hc h => by
    obtain ⟨bs, x, r, rfl, hb, hx⟩ := h.first
    refine ⟨c :: bs, x, r, rfl, fun y hy => ?_, hx⟩
    rcases List.mem_cons.1 hy with rfl | hy
    · exact hc
    · exact hb y hy
  | _, _, .num h => by
    obtain ⟨c, t, rfl, hc⟩ := h.first
    exact ⟨[], c, t, rfl, by simp [Blank], isBlank_of_digit hc, ne_of_digit hc (by decide)⟩
  | _, _, .null => ⟨[], _, _, rfl, by simp [Blank], rfl, by decide⟩
  | _, _, .yes => ⟨[], _, _, rfl, by simp [Blank], rfl, by decide⟩
  | _, _, .no => ⟨[], _, _, rfl, by simp [Blank], rfl, by decide⟩
  | _, _, .str _ => ⟨[], _, _, rfl, by simp [Blank], rfl, by decide⟩
  | _, _, .emptyArr _ => ⟨[], _, _, rfl, by simp [Blank], rfl, by decide⟩
  | _, _, .arr _ => ⟨[], _, _, rfl, by simp [Blank], rfl, by decide⟩
  | _, _, .emptyObj _ => ⟨[], _, _, rfl, by simp [Blank], rfl, by decide⟩
  | _, _, .obj _ => ⟨[], _, _, rfl, by simp [Blank], rfl, by decide⟩

theorem Spells.length_pos {cs : List Char} {v : Raw} (h : Spells cs v) : 0 < cs.length := by
  obtain ⟨bs, c, r, rfl, -⟩ := h.first
  simp only [List.length_append, List.length_cons]
  omega

theorem SpellsItems.first {cs : List Char} {vs : List Raw} (h : SpellsItems cs vs) :
    ∃ bs c r, cs = bs ++ c :: r ∧ Blank bs ∧ isBlank c = false ∧ c ≠ ']' := by
  cases h with
  | last h hb =>
    obtain ⟨bs, c, r, rfl, hfirst⟩ := h.first
    exact ⟨bs, c, _, by simp only [List.append_assoc, List.cons_append]; rfl, hfirst⟩
  | more h hb hr =>
    obtain ⟨bs, c, r, rfl, hfirst⟩ := h.first
    exact ⟨bs, c, _, by simp only [List.append_assoc, List.cons_append]; rfl, hfirst⟩

theorem SpellsFields.first {cs : List Char} {fs : List (List Glyph × Raw)}
    (h : SpellsFields cs fs) : ∃ bs r, cs = bs ++ '"' :: r ∧ Blank bs := by
  cases h with
  | last ha k h hb =>
    exact ⟨_, _, by simp only [List.append_assoc, List.cons_append]; rfl, ha⟩
  | more ha k h hb hr =>
    exact ⟨_, _, by simp only [List.append_assoc, List.cons_append]; rfl, ha⟩

theorem value_numeral {c : Char} (hc : c = '-' ∨ (digitValue c).isSome = true) (n : Nat)
    (r : List Char) :
    value (n + 1) (c :: r) = (numeral (c :: r)).map fun p => (.num p.1, p.2) := by
  have hn : c ≠ 'n' := ne_of_digit hc (by decide)
  have ht : c ≠ 't' := ne_of_digit hc (by decide)
  have hf : c ≠ 'f' := ne_of_digit hc (by decide)
  have hq : c ≠ '"' := ne_of_digit hc (by decide)
  have ha : c ≠ '[' := ne_of_digit hc (by decide)
  have ho : c ≠ '\x7b' := ne_of_digit hc (by decide)
  rw [value, skip_cons (isBlank_of_digit hc)]
  split <;> simp_all

theorem value_array (n : Nat) {bs r : List Char} {c : Char} (hb : Blank bs)
    (hc : isBlank c = false) (hne : c ≠ ']') :
    value (n + 1) ('[' :: (bs ++ c :: r)) =
      (items n (bs ++ c :: r)).map fun p => (.arr p.1, p.2) := by
  have hskip := skip_blank_cons hb hc r
  have hitems : items n (bs ++ c :: r) = items n (c :: r) := by rw [← items_skip, hskip]
  rw [value, skip_cons (by rfl), hitems]
  simp only [hskip]
  split
  · rename_i heq
    exact absurd (List.cons.inj heq).1 hne
  · rfl

theorem value_object (n : Nat) {bs r : List Char} (hb : Blank bs) :
    value (n + 1) ('\x7b' :: (bs ++ '"' :: r)) =
      (fields n (bs ++ '"' :: r)).map fun p => (.obj p.1, p.2) := by
  have hskip : skip (bs ++ '"' :: r) = '"' :: r := skip_blank_cons hb rfl r
  have hfields : fields n (bs ++ '"' :: r) = fields n ('"' :: r) := by rw [← fields_skip, hskip]
  rw [value, skip_cons (by rfl), hfields]
  simp only [hskip]
  rfl

mutual

/-- What is spelled is read, given two levels for each character. -/
theorem value_of_spells : ∀ {cs : List Char} {v : Raw}, Spells cs v → ∀ (n : Nat) (r : List Char),
    2 * cs.length ≤ n + 1 → Ends r → value (n + 1) (cs ++ r) = some (v, r)
  | _, _, @Spells.blank c cs _ hc h, n, r, hn, hr => by
    have ih := value_of_spells h n r (by simp only [List.length_cons] at hn; omega) hr
    have hskip : skip ([c] ++ (cs ++ r)) = skip (cs ++ r) :=
      skip_blank (by simpa [Blank] using hc) (cs ++ r)
    rw [List.cons_append, ← List.singleton_append, ← value_skip, hskip, value_skip, ih]
  | _, _, .null, n, r, _, _ => by simp [value, skip, isBlank]
  | _, _, .yes, n, r, _, _ => by simp [value, skip, isBlank]
  | _, _, .no, n, r, _, _ => by simp [value, skip, isBlank]
  | _, _, .num h, n, r, _, hr => by
    have hread := h.read r hr
    obtain ⟨c, t, rfl, hc⟩ := h.first
    rw [List.cons_append] at hread ⊢
    rw [value_numeral hc, hread]
    rfl
  | _, _, .str s, n, r, _, _ => by
    have hglyphs := glyphs_quote s r
    simp only [List.cons_append, List.append_assoc, List.nil_append]
    rw [value, skip_cons (by rfl)]
    simp only [hglyphs, Option.map_some]
  | _, _, .emptyArr hb, n, r, _, _ => by
    simp only [List.cons_append, List.append_assoc, List.nil_append]
    rw [value, skip_cons (by rfl)]
    simp only [skip_blank_cons hb (show isBlank ']' = false by rfl)]
  | _, _, .arr h, n, r, hn, hr => by
    simp only [List.length_cons] at hn
    obtain ⟨k, rfl⟩ : ∃ k, n = k + 1 := ⟨n - 1, by omega⟩
    have ih := items_of_spells h k r (by omega)
    obtain ⟨bs, c, t, rfl, hb, hc, hne⟩ := h.first
    simp only [List.cons_append, List.append_assoc] at ih ⊢
    rw [value_array _ hb hc hne, ih]
    rfl
  | _, _, .emptyObj hb, n, r, _, _ => by
    simp only [List.cons_append, List.append_assoc, List.nil_append]
    rw [value, skip_cons (by rfl)]
    simp only [skip_blank_cons hb (show isBlank '\x7d' = false by rfl)]
  | _, _, .obj h, n, r, hn, hr => by
    simp only [List.length_cons] at hn
    obtain ⟨k, rfl⟩ : ∃ k, n = k + 1 := ⟨n - 1, by omega⟩
    have ih := fields_of_spells h k r (by omega)
    obtain ⟨bs, t, rfl, hb⟩ := h.first
    simp only [List.cons_append, List.append_assoc] at ih ⊢
    rw [value_object _ hb, ih]
    rfl

theorem items_of_spells : ∀ {cs : List Char} {vs : List Raw}, SpellsItems cs vs →
    ∀ (n : Nat) (r : List Char), 2 * cs.length ≤ n → items (n + 1) (cs ++ r) = some (vs, r)
  | _, _, @SpellsItems.last _ bs _ h hb, n, r, hn => by
    have hpos := h.length_pos
    simp only [List.length_append, List.length_cons, List.length_nil] at hn
    obtain ⟨k, rfl⟩ : ∃ k, n = k + 1 := ⟨n - 1, by omega⟩
    have hends : Ends (bs ++ ']' :: r) := ends_blank hb (ends_cons (by rfl) (by decide) r)
    have ih := value_of_spells h k (bs ++ ']' :: r) (by omega) hends
    have hskip : skip (bs ++ ']' :: r) = ']' :: r := skip_blank_cons hb rfl r
    simp only [List.append_assoc, List.cons_append, List.nil_append]
    rw [items, ih]
    simp only [bind, Option.bind, hskip, pure]
  | _, _, @SpellsItems.more _ bs ds _ _ h hb hr, n, r, hn => by
    have hpos := h.length_pos
    simp only [List.length_append, List.length_cons] at hn
    obtain ⟨k, rfl⟩ : ∃ k, n = k + 1 := ⟨n - 1, by omega⟩
    have hends : Ends (bs ++ ',' :: (ds ++ r)) :=
      ends_blank hb (ends_cons (by rfl) (by decide) (ds ++ r))
    have ih := value_of_spells h k (bs ++ ',' :: (ds ++ r)) (by omega) hends
    have ihr := items_of_spells hr k r (by omega)
    have hskip : skip (bs ++ ',' :: (ds ++ r)) = ',' :: (ds ++ r) := skip_blank_cons hb rfl (ds ++ r)
    simp only [List.append_assoc, List.cons_append]
    rw [items, ih]
    simp only [bind, Option.bind, hskip, pure, ihr]

theorem fields_of_spells : ∀ {cs : List Char} {fs : List (List Glyph × Raw)}, SpellsFields cs fs →
    ∀ (n : Nat) (r : List Char), 2 * cs.length ≤ n → fields (n + 1) (cs ++ r) = some (fs, r)
  | _, _, @SpellsFields.last _ cs bs _ ha k h hb, n, r, hn => by
    simp only [List.length_append, List.length_cons, List.length_nil] at hn
    obtain ⟨m, rfl⟩ : ∃ m, n = m + 1 := ⟨n - 1, by omega⟩
    have hends : Ends (bs ++ '\x7d' :: r) := ends_blank hb (ends_cons (by rfl) (by decide) r)
    have ih := value_of_spells h m (bs ++ '\x7d' :: r) (by omega) hends
    have hskip : skip (bs ++ '\x7d' :: r) = '\x7d' :: r := skip_blank_cons hb rfl r
    have hkey := glyphs_quote k (':' :: (cs ++ (bs ++ '\x7d' :: r)))
    simp only [List.append_assoc, List.cons_append, List.nil_append]
    rw [fields, skip_blank_cons ha rfl]
    simp only [bind, Option.bind, hkey, skip_cons (show isBlank ':' = false by rfl), ih, hskip,
      pure]
  | _, _, @SpellsFields.more _ cs bs ds _ _ ha k h hb hr, n, r, hn => by
    simp only [List.length_append, List.length_cons] at hn
    obtain ⟨m, rfl⟩ : ∃ m, n = m + 1 := ⟨n - 1, by omega⟩
    have hends : Ends (bs ++ ',' :: (ds ++ r)) :=
      ends_blank hb (ends_cons (by rfl) (by decide) (ds ++ r))
    have ih := value_of_spells h m (bs ++ ',' :: (ds ++ r)) (by omega) hends
    have ihr := fields_of_spells hr m r (by omega)
    have hskip : skip (bs ++ ',' :: (ds ++ r)) = ',' :: (ds ++ r) := skip_blank_cons hb rfl (ds ++ r)
    have hkey := glyphs_quote k (':' :: (cs ++ (bs ++ ',' :: (ds ++ r))))
    simp only [List.append_assoc, List.cons_append]
    rw [fields, skip_blank_cons ha rfl]
    simp only [bind, Option.bind, hkey, skip_cons (show isBlank ':' = false by rfl), ih, hskip,
      pure, ihr]

end

/-- A text of a tree is read as the tree. -/
theorem parse_of_spells {text : String} {v : Raw} (h : Spells text.toList v) :
    parse text = some v := by
  have hread := value_of_spells h (2 * text.toList.length + 1) [] (by omega) ends_nil
  rw [List.append_nil] at hread
  simp only [parse, hread]
  rfl

end Raw

end Bindery.Json
