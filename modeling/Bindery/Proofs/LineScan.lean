import Bindery.Proofs.BytePosition
import Bindery.Proofs.ManifestName
import Mathlib.Data.Prod.Lex

/-!
# A pass over the lines before an offset

The position of an offset is also found by a pass that goes from one newline to the next as long as
they are before the offset, counts them, and takes the bytes of each line off what the offset is
beyond its start. `reaches_ofBytes` says that the pass comes to an end, after as many turns as there
are newlines before the offset, without cutting the text inside a character or taking off more than
there is, and at the position that the bytes tell. So positions are in the order of their offsets:
`ofOffset_lines`.
-/

namespace Bindery.Position

/-- Where a pass over the lines of a text stands: where a line starts, how many are before it, and
how far the offset is beyond its start. -/
structure Cursor where
  start : Nat
  line : Nat
  column : Nat

/-- The byte at which the first newline stands. -/
def newline? : List Char → Option Nat
  | [] => none
  | c :: r => if c = '\n' then some 0 else (newline? r).map (c.utf8Size + ·)

/-- A difference, if it is not below zero. -/
def minus? (a b : Nat) : Option Nat := if b ≤ a then some (a - b) else none

inductive Turn where
  | ends
  | goesOn (next : Cursor)

/-- One turn of the pass: it ends if no newline follows before the offset, else it goes on behind
that newline. There is no such turn where the text would be cut inside a character or a difference
be below zero. -/
def Cursor.turn? (source : String) (offset : Nat) (c : Cursor) : Option Turn := do
  let rest ← FileName.dropBytes c.start source.toList
  match newline? rest with
  | none => return .ends
  | some i =>
    let eol := c.start + i
    if offset ≤ eol then return .ends
    let size ← minus? eol c.start
    let column ← minus? c.column (size + 1)
    return .goesOn ⟨eol + 1, c.line + 1, column⟩

/-- The pass comes from a cursor to its end, at a position, after so many turns that go on. -/
inductive Cursor.Reaches (source : String) (offset : Nat) : Cursor → Nat → Position → Prop where
  | ends {c : Cursor} : c.turn? source offset = some .ends →
      Reaches source offset c 0 ⟨c.line, c.column⟩
  | goesOn {c next : Cursor} {n : Nat} {p : Position} :
      c.turn? source offset = some (.goesOn next) → Reaches source offset next n p →
      Reaches source offset c (n + 1) p

theorem utf8Len_eq (cs : List Char) : String.utf8Len cs = (encoded cs).length := by
  rw [length_encoded, String.utf8ByteSize_ofList]

theorem newline?_eq_none : ∀ {cs : List Char}, '\n' ∉ cs → newline? cs = none
  | [], _ => rfl
  | c :: r, h => by
    rw [List.mem_cons, not_or] at h
    rw [newline?, if_neg (Ne.symm h.1), newline?_eq_none h.2, Option.map_none]

theorem newline?_line : ∀ {line : List Char} (rest : List Char), '\n' ∉ line →
    newline? (line ++ '\n' :: rest) = some (encoded line).length
  | [], _, _ => rfl
  | c :: r, rest, h => by
    rw [List.mem_cons, not_or] at h
    have hsize : (encoded (c :: r)).length = c.utf8Size + (encoded r).length := by
      simp [encoded]
    rw [List.cons_append, newline?, if_neg (Ne.symm h.1), newline?_line rest h.2, Option.map_some,
      hsize]

section Turns

variable {source : String} {offset : Nat} {c : Cursor} {front rest : List Char}

/-- The cursor stands between two parts of the text, and its column is what the offset is beyond the
first of them. -/
structure Cursor.Between (c : Cursor) (source : String) (offset : Nat) (front rest : List Char) :
    Prop where
  text : source.toList = front ++ rest
  start : c.start = (encoded front).length
  column : c.start + c.column = offset

theorem Cursor.Between.dropBytes (h : c.Between source offset front rest) :
    FileName.dropBytes c.start source.toList = some rest :=
  FileName.dropBytes_eq_some_iff.2 ⟨front, h.text, by rw [utf8Len_eq, h.start]⟩

theorem Cursor.Between.turn?_last (h : c.Between source offset front rest) (hrest : '\n' ∉ rest) :
    c.turn? source offset = some .ends := by
  rw [turn?, h.dropBytes]
  simp [newline?_eq_none hrest]

variable {line : List Char}

theorem Cursor.Between.turn?_within (h : c.Between source offset front (line ++ '\n' :: rest))
    (hline : '\n' ∉ line) (hle : c.column ≤ (encoded line).length) :
    c.turn? source offset = some .ends := by
  have hoffset : offset ≤ c.start + (encoded line).length := by have := h.column; omega
  rw [turn?, h.dropBytes]
  simp [newline?_line rest hline, hoffset]

theorem Cursor.Between.turn?_beyond (h : c.Between source offset front (line ++ '\n' :: rest))
    (hline : '\n' ∉ line) {more : Nat} (hmore : c.column = (encoded line).length + 1 + more) :
    c.turn? source offset =
      some (.goesOn ⟨c.start + (encoded line).length + 1, c.line + 1, more⟩) := by
  have hoffset : ¬ offset ≤ c.start + (encoded line).length := by have := h.column; omega
  have hsize : minus? (c.start + (encoded line).length) c.start = some (encoded line).length := by
    rw [minus?, if_pos (by omega), Nat.add_sub_cancel_left]
  have hcolumn : minus? c.column ((encoded line).length + 1) = some more := by
    rw [minus?, if_pos (by omega), hmore, Nat.add_sub_cancel_left]
  rw [turn?, h.dropBytes]
  simp [newline?_line rest hline, hoffset, hsize, hcolumn]

theorem Cursor.Between.next (h : c.Between source offset front (line ++ '\n' :: rest)) {more : Nat}
    (hmore : c.column = (encoded line).length + 1 + more) :
    Cursor.Between ⟨c.start + (encoded line).length + 1, c.line + 1, more⟩ source offset
      (front ++ line ++ ['\n']) rest where
  text := by rw [h.text]; simp
  start := by
    have hbytes : (encoded ['\n']).length = 1 := rfl
    rw [encoded_append, encoded_append, List.length_append, List.length_append, hbytes, h.start]
  column := by
    have := h.column
    show c.start + (encoded line).length + 1 + more = offset
    omega

end Turns

/-- The pass ends, after a turn for each newline before the offset in the bytes that are left. -/
theorem reaches_ofBytes {source : String} {offset : Nat} {c : Cursor} {front rest : List Char}
    (h : c.Between source offset front rest) :
    Cursor.Reaches source offset c (ofBytes (encoded rest) c.column).line
      ⟨c.line + (ofBytes (encoded rest) c.column).line,
        (ofBytes (encoded rest) c.column).column⟩ := by
  by_cases hmem : '\n' ∈ rest
  · obtain ⟨line, later, rfl, hline⟩ := List.eq_append_cons_of_mem hmem
    have hbytes := newline_not_mem_encoded hline
    rw [encoded_line]
    rcases Nat.lt_or_ge (encoded line).length c.column with hlt | hle
    · obtain ⟨more, hmore⟩ := Nat.exists_eq_add_of_le hlt
      have hlater := reaches_ofBytes (h.next hmore)
      have hnumber : c.line + ((ofBytes (encoded later) more).line + 1) =
          c.line + 1 + (ofBytes (encoded later) more).line := by omega
      rw [hmore, ofBytes_beyond hbytes]
      simp only [hnumber]
      exact .goesOn (h.turn?_beyond hline hmore) hlater
    · rw [ofBytes_within hbytes hle]
      exact .ends (h.turn?_within hline hle)
  · have hfirst : newline ∉ (encoded rest).take c.column :=
      fun hbyte => newline_not_mem_encoded hmem (List.mem_of_mem_take hbyte)
    rw [ofBytes_first hfirst]
    exact .ends (h.turn?_last hmem)
termination_by rest.length

/-- The pass over a text starts before its first line. -/
theorem reaches_ofOffset (source : String) (offset : Nat) :
    Cursor.Reaches source offset ⟨0, 0, offset⟩ (ofOffset source offset).line
      (ofOffset source offset) := by
  have hstart : Cursor.Between ⟨0, 0, offset⟩ source offset [] source.toList :=
    ⟨rfl, rfl, Nat.zero_add offset⟩
  have hpass := reaches_ofBytes hstart
  rw [encoded_toList, ← ofOffset_eq_ofBytes] at hpass
  simpa using hpass

theorem lineStart_le (bytes : List UInt8) : lineStart bytes ≤ bytes.length := by
  have hle := (List.dropWhile_sublist (l := bytes.reverse) (decide <| · ≠ newline)).length_le
  rwa [List.length_reverse] at hle

/-- The last line starts behind the last newline. -/
theorem lineStart_spec (bytes : List UInt8) :
    (lineStart bytes = 0 ∨ bytes[lineStart bytes - 1]? = some newline)
      ∧ newline ∉ bytes.drop (lineStart bytes) := by
  by_cases hmem : newline ∈ bytes
  · obtain ⟨back, front, hsplit, hback⟩ := List.eq_append_cons_of_mem (List.mem_reverse.2 hmem)
    obtain rfl : bytes = front.reverse ++ newline :: back.reverse := by
      rw [← List.reverse_reverse bytes, hsplit]
      simp
    have hnone : newline ∉ back.reverse := fun hbyte => hback (List.mem_reverse.1 hbyte)
    rw [lineStart_append, lineStart_line hnone, Nat.add_zero]
    refine ⟨.inr (by simp), ?_⟩
    rwa [List.append_cons, List.drop_left' (by simp)]
  · rw [lineStart_line hmem]
    exact ⟨.inl rfl, hmem⟩

theorem monotone_ofBytes (bytes : List UInt8) :
    Monotone fun offset => toLex ((ofBytes bytes offset).line, (ofBytes bytes offset).column) := by
  intro offset offset' hle
  obtain ⟨more, hmore⟩ := List.take_prefix_take_left (l := bytes) hle
  rw [Prod.Lex.toLex_le_toLex]
  by_cases hmem : newline ∈ more
  · left
    have hpos := List.count_pos_iff.2 hmem
    simp only [ofBytes, ← hmore, List.count_append]
    omega
  · right
    simp only [ofBytes, ← hmore, List.count_append, List.count_eq_zero.2 hmem,
      lineStart_append_line hmem]
    exact ⟨rfl, Nat.sub_le_sub_right hle _⟩

/-- The line of an offset is the number of newlines before it and its column what it is beyond the
start of that line, as the pass over the lines finds; and positions are in the order of their
offsets. -/
theorem ofOffset_lines (source : String) :
    (∀ offset, Cursor.Reaches source offset ⟨0, 0, offset⟩ (ofOffset source offset).line
        (ofOffset source offset)
      ∧ (ofOffset source offset).line = (source.toUTF8.data.toList.take offset).count newline
      ∧ ∃ start, start + (ofOffset source offset).column = offset
        ∧ (start = 0 ∨ source.toUTF8.data.toList[start - 1]? = some newline)
        ∧ newline ∉ (source.toUTF8.data.toList.take offset).drop start)
      ∧ Monotone fun offset =>
        toLex ((ofOffset source offset).line, (ofOffset source offset).column) := by
  constructor
  · intro offset
    refine ⟨reaches_ofOffset source offset, ?_⟩
    rw [ofOffset_eq_ofBytes]
    generalize source.toUTF8.data.toList = bytes
    have hle : lineStart (bytes.take offset) ≤ offset :=
      (lineStart_le _).trans (List.length_take_le offset bytes)
    obtain ⟨hbehind, hnone⟩ := lineStart_spec (bytes.take offset)
    refine ⟨rfl, lineStart (bytes.take offset), Nat.add_sub_of_le hle, ?_, hnone⟩
    refine hbehind.imp_right fun hbyte => ?_
    rw [List.getElem?_take] at hbyte
    split_ifs at hbyte
    exact hbyte
  · simp only [ofOffset_eq_ofBytes]
    exact monotone_ofBytes _

end Bindery.Position
