import Bindery.Proofs.NumberText

/-!
# Inside and outside strings

Each character of a JSON text stands outside the strings of the text or in one of them. A string
that is written in quotes starts outside and ends outside, and no character of it but the first
quote stands outside, `placed_quote`; other texts without quotes stand outside, `placed_unquoted`.
-/

namespace Bindery.Json

/-- Where a character of a text stands: outside strings, in a string, or in one after a
backslash. -/
inductive Place where
  | outside
  | inside
  | escaped
  deriving DecidableEq, Repr

namespace Place

/-- The place after a character. -/
def next : Place → Char → Place
  | .outside, c => if c = '"' then .inside else .outside
  | .inside, c => if c = '"' then .outside else if c = '\\' then .escaped else .inside
  | .escaped, _ => .inside

/-- The place after some characters. -/
def after (p : Place) (cs : List Char) : Place := cs.foldl next p

/-- Some characters with the places where they stand. -/
def placed : Place → List Char → List (Place × Char)
  | _, [] => []
  | p, c :: r => (p, c) :: placed (p.next c) r

@[simp] theorem after_append (p : Place) (cs ds : List Char) :
    p.after (cs ++ ds) = (p.after cs).after ds :=
  List.foldl_append

@[simp] theorem placed_append : ∀ (p : Place) (cs ds : List Char),
    p.placed (cs ++ ds) = p.placed cs ++ (p.after cs).placed ds
  | _, [], _ => rfl
  | p, c :: r, ds => congrArg ((p, c) :: ·) (placed_append (p.next c) r ds)

theorem map_snd_placed : ∀ (p : Place) (cs : List Char), (p.placed cs).map (·.2) = cs
  | _, [] => rfl
  | p, c :: r => congrArg (c :: ·) (map_snd_placed (p.next c) r)

theorem after_unquoted : ∀ {cs : List Char}, '"' ∉ cs → outside.after cs = .outside
  | [], _ => rfl
  | c :: r, h => by
    rw [List.mem_cons, not_or] at h
    have hnext : outside.next c = .outside := if_neg (Ne.symm h.1)
    rw [after, List.foldl_cons, hnext]
    exact after_unquoted h.2

theorem placed_unquoted : ∀ {cs : List Char}, '"' ∉ cs →
    outside.placed cs = cs.map fun c => (.outside, c)
  | [], _ => rfl
  | c :: r, h => by
    rw [List.mem_cons, not_or] at h
    have hnext : outside.next c = .outside := if_neg (Ne.symm h.1)
    rw [placed, hnext, placed_unquoted h.2, List.map_cons]

theorem hexDigit_ne : ∀ n < 16, hexDigit n ≠ '"' ∧ hexDigit n ≠ '\\' := by decide

/-- A character that is written in a string leaves the string open, and stands in it. -/
theorem placed_escape (c : Char) :
    inside.after (escape c) = .inside ∧ ∀ x ∈ inside.placed (escape c), x.1 ≠ .outside := by
  unfold escape
  split_ifs with h1 h2 h3 h4 h5 h6 h7 h8
  on_goal 9 => simp [after, placed, next, h1, h2]
  on_goal 8 =>
    have hlt := toNat_lt_of_lt_space h8
    have hhigh := hexDigit_ne (c.toNat / 16) (by omega)
    have hlow := hexDigit_ne (c.toNat % 16) (by omega)
    simp [after, placed, next, hhigh, hlow]
  all_goals simp [after, placed, next]

theorem placed_flatMap_escape : ∀ cs : List Char, inside.after (cs.flatMap escape) = .inside
    ∧ ∀ x ∈ inside.placed (cs.flatMap escape), x.1 ≠ .outside
  | [] => ⟨rfl, by simp [placed]⟩
  | c :: r => by
    obtain ⟨hafter, hplaced⟩ := placed_escape c
    obtain ⟨ihafter, ihplaced⟩ := placed_flatMap_escape r
    rw [List.flatMap_cons, after_append, placed_append, hafter]
    exact ⟨ihafter, List.forall_mem_append.2 ⟨hplaced, ihplaced⟩⟩

/-- A string in quotes ends outside, and only its first quote stands outside. -/
theorem placed_quote (s : String) : outside.after (quote s).toList = .outside
    ∧ ∃ rest, outside.placed (quote s).toList = (.outside, '"') :: rest
      ∧ ∀ x ∈ rest, x.1 ≠ .outside := by
  obtain ⟨hafter, hplaced⟩ := placed_flatMap_escape s.toList
  have hopen : outside.next '"' = .inside := rfl
  rw [quote, String.toList_ofList, List.cons_append]
  refine ⟨?_, _, rfl, ?_⟩
  · rw [after, List.foldl_cons, hopen]
    exact (after_append inside _ _).trans (by rw [hafter]; rfl)
  · rw [hopen, placed_append, hafter]
    exact List.forall_mem_append.2 ⟨hplaced, by simp [placed]⟩

end Place

end Bindery.Json
