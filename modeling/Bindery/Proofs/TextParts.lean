import Bindery.Text.Blank
import Bindery.Text.Split
import Mathlib.Data.List.Basic
import Mathlib.Data.List.TakeWhile

/-!
# Parts of texts

Parts that are put together with a separator between them are its pieces again:
`pieces_intercalate`. The first part of a text that is not empty stands behind separators and ends before one or at the
end: `find?_splitOnP_eq_some`. The words of a text are parts in this way: the first is the one that
the text starts with, `head?_words_eq_some`, white space at the start does not matter,
`words_append_of_white`, and a word before white space is the first one, `words_of_word`.
-/

namespace Bindery.Text

/-- Parts in which a separator does not occur are the pieces of the text that they make up. -/
theorem pieces_intercalate {sep : Char} {between : String} (hsep : between.toList = [sep])
    {parts : List String} (h : ∀ part ∈ parts, sep ∉ part.toList) (hne : parts ≠ []) :
    pieces sep (between.intercalate parts) = parts := by
  have hparts : ∀ cs ∈ parts.map String.toList, sep ∉ cs := by
    intro cs hcs
    obtain ⟨part, hpart, rfl⟩ := List.mem_map.1 hcs
    exact h part hpart
  rw [pieces, String.toList_intercalate, hsep,
    List.splitOn_intercalate sep hparts (by simpa using hne), List.map_map]
  simp

section Part

variable {p : Char → Bool}

theorem find?_splitOnP_separators {front : List Char} (h : ∀ c ∈ front, p c = true) :
    (front.splitOnP p).find? (· ≠ []) = none := by
  induction front with
  | nil => simp
  | cons c r ih =>
    obtain ⟨hc, hr⟩ := List.forall_mem_cons.1 h
    rw [List.splitOnP_cons_eq_if_modifyHead, if_pos hc, List.find?_cons_of_neg (by simp), ih hr]

theorem find?_splitOnP_part {front part rest : List Char} (hfront : ∀ c ∈ front, p c = true)
    (hne : part ≠ []) (hpart : ∀ c ∈ part, p c = false) (hrest : ∀ c ∈ rest.head?, p c = true) :
    ((front ++ part ++ rest).splitOnP p).find? (· ≠ []) = some part := by
  induction front with
  | nil =>
    have hone : part.splitOnP p = [part] := List.splitOnP_eq_singleton hpart
    rw [List.nil_append]
    rcases rest with _ | ⟨c, r⟩
    · rw [List.append_nil, hone, List.find?_cons_of_pos (by simpa using hne)]
    · rw [List.splitOnP_append_cons _ _ (hrest c rfl), hone, List.singleton_append,
        List.find?_cons_of_pos (by simpa using hne)]
  | cons c r ih =>
    obtain ⟨hc, hr⟩ := List.forall_mem_cons.1 hfront
    rw [List.cons_append, List.cons_append, List.splitOnP_cons_eq_if_modifyHead, if_pos hc,
      List.find?_cons_of_neg (by simp), ih hr]

/-- A text is nothing but separators, or a part stands behind those at its start. -/
theorem exists_part (p : Char → Bool) : ∀ cs : List Char,
    (∀ c ∈ cs, p c = true) ∨ ∃ front part rest, cs = front ++ part ++ rest
      ∧ (∀ c ∈ front, p c = true) ∧ part ≠ [] ∧ (∀ c ∈ part, p c = false)
      ∧ ∀ c ∈ rest.head?, p c = true
  | [] => .inl (by simp)
  | c :: r => by
    by_cases hc : p c = true
    · rcases exists_part p r with hr | ⟨front, part, rest, hr, hfront, h⟩
      · exact .inl (List.forall_mem_cons.2 ⟨hc, hr⟩)
      · exact .inr ⟨c :: front, part, rest, by rw [hr]; rfl, List.forall_mem_cons.2 ⟨hc, hfront⟩, h⟩
    · refine .inr ⟨[], (c :: r).takeWhile (!p ·), (c :: r).dropWhile (!p ·), ?_, by simp, ?_, ?_,
        ?_⟩
      · rw [List.nil_append, List.takeWhile_append_dropWhile]
      · rw [List.takeWhile_cons_of_pos (by simpa using hc)]
        exact List.cons_ne_nil _ _
      · intro x hx
        simpa using List.mem_takeWhile_imp hx
      · intro x hx
        have hnot := List.head?_dropWhile_not (!p ·) (c :: r)
        rw [Option.mem_def.1 hx] at hnot
        simpa using hnot

theorem find?_splitOnP_eq_some {cs part : List Char} :
    (cs.splitOnP p).find? (· ≠ []) = some part ↔ part ≠ [] ∧ (∀ c ∈ part, p c = false)
      ∧ ∃ front rest, cs = front ++ part ++ rest ∧ (∀ c ∈ front, p c = true)
        ∧ ∀ c ∈ rest.head?, p c = true := by
  constructor
  · intro h
    rcases exists_part p cs with hcs | ⟨front, part', rest, rfl, hfront, hne, hpart, hrest⟩
    · rw [find?_splitOnP_separators hcs] at h
      cases h
    · rw [find?_splitOnP_part hfront hne hpart hrest] at h
      cases h
      exact ⟨hne, hpart, front, rest, rfl, hfront, hrest⟩
  · rintro ⟨hne, hpart, front, rest, rfl, hfront, hrest⟩
    exact find?_splitOnP_part hfront hne hpart hrest

end Part

theorem trim_eq_self {p : Char → Bool} {cs : List Char} (h : ∀ c ∈ cs, p c = false) :
    trim p cs = cs := by
  have hstart : cs.dropWhile p = cs :=
    List.dropWhile_eq_self_iff.2 fun hl => Bool.eq_false_iff.1 (h _ (List.getElem_mem hl))
  have hend : cs.reverse.dropWhile p = cs.reverse :=
    List.dropWhile_eq_self_iff.2 fun hl =>
      Bool.eq_false_iff.1 (h _ (List.mem_reverse.1 (List.getElem_mem hl)))
  rw [trim, trimEnd, hstart, hend, List.reverse_reverse]

/-- A text starts with a word, perhaps behind white space. -/
def Leads (word cs : List Char) : Prop :=
  ∃ front rest, cs = front ++ word ++ rest ∧ (∀ c ∈ front, isWhite c = true)
    ∧ ∀ c ∈ rest.head?, isWhite c = true

theorem head?_words_eq_some {cs word : List Char} : (words cs).head? = some word ↔
    word ≠ [] ∧ (∀ c ∈ word, isWhite c = false) ∧ Leads word cs := by
  rw [words, List.head?_filter, find?_splitOnP_eq_some, Leads]

theorem words_append_cons {c : Char} (h : isWhite c = true) (front rest : List Char) :
    words (front ++ c :: rest) = words front ++ words rest := by
  rw [words, words, words, List.splitOnP_append_cons _ _ h, List.filter_append]

theorem words_append_of_white {front : List Char} (h : ∀ c ∈ front, isWhite c = true)
    (rest : List Char) : words (front ++ rest) = words rest := by
  induction front with
  | nil => rfl
  | cons c r ih =>
    obtain ⟨hc, hr⟩ := List.forall_mem_cons.1 h
    rw [List.cons_append, ← List.nil_append (c :: (r ++ rest)), words_append_cons hc, ih hr]
    rfl

theorem words_eq_nil {cs : List Char} (h : ∀ c ∈ cs, isWhite c = true) : words cs = [] := by
  rw [← List.append_nil cs, words_append_of_white h]
  rfl

theorem words_word {word : List Char} (hne : word ≠ []) (h : ∀ c ∈ word, isWhite c = false) :
    words word = [word] := by
  rw [words, List.splitOnP_eq_singleton h, List.filter_cons_of_pos (by simpa using hne),
    List.filter_nil]

theorem words_of_word {word blank : List Char} (hne : word ≠ [])
    (h : ∀ c ∈ word, isWhite c = false) (hblank : blank ≠ [])
    (hwhite : ∀ c ∈ blank, isWhite c = true) (rest : List Char) :
    words (word ++ blank ++ rest) = word :: words rest := by
  obtain ⟨c, r, rfl⟩ := List.exists_cons_of_ne_nil hblank
  obtain ⟨hc, hr⟩ := List.forall_mem_cons.1 hwhite
  rw [List.append_assoc, List.cons_append, words_append_cons hc, words_append_of_white hr,
    words_word hne h, List.singleton_append]

end Bindery.Text
