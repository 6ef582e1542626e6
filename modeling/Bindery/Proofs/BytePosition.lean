import Bindery.Build.Position
import Bindery.Proofs.PathText

/-!
# Positions in bytes

The line of an offset is the number of newlines before it, and its column is what it is beyond the
last of them, both told from bytes alone: `Position.ofBytes`. The position of an offset in a text is
that in its bytes, `ofOffset_eq_ofBytes`, since no other character has a byte of a newline in it.
-/

namespace Bindery.Position

def newline : UInt8 := 10

/-- Where the last line of some bytes starts: after their last newline. -/
def lineStart (bytes : List UInt8) : Nat := (bytes.reverse.dropWhile (· ≠ newline)).length

/-- The line and column of an offset in some bytes. -/
def ofBytes (bytes : List UInt8) (offset : Nat) : Position where
  line := (bytes.take offset).count newline
  column := offset - lineStart (bytes.take offset)

section Lines

variable {line rest : List UInt8} {offset : Nat}

/-- Bytes without a newline belong to the line that they come after. -/
theorem lineStart_append_line (h : newline ∉ line) : lineStart (rest ++ line) = lineStart rest := by
  have hall : ∀ b ∈ line.reverse, decide (b ≠ newline) = true := by
    intro b hb
    rw [decide_eq_true_eq]
    rintro rfl
    exact h (List.mem_reverse.1 hb)
  rw [lineStart, List.reverse_append, List.dropWhile_append_of_pos hall, lineStart]

theorem lineStart_line (h : newline ∉ line) : lineStart line = 0 := by
  have hnil : lineStart ([] ++ line) = lineStart [] := lineStart_append_line h
  exact hnil

/-- A newline moves what follows it by itself and what is before it. -/
theorem lineStart_append :
    lineStart (line ++ newline :: rest) = line.length + 1 + lineStart rest := by
  rw [lineStart, lineStart, List.reverse_append, List.reverse_cons, List.append_assoc,
    List.dropWhile_append]
  split
  · rename_i hnone
    rw [List.isEmpty_iff] at hnone
    rw [hnone, List.singleton_append, List.dropWhile_cons_of_neg (by simp)]
    simp
  · simp only [List.length_append, List.length_reverse, List.length_singleton]
    omega

theorem ofBytes_first (h : newline ∉ rest.take offset) : ofBytes rest offset = ⟨0, offset⟩ := by
  rw [ofBytes, List.count_eq_zero.2 h, lineStart_line h]
  rfl

theorem ofBytes_within (h : newline ∉ line) (hle : offset ≤ line.length) :
    ofBytes (line ++ rest) offset = ⟨0, offset⟩ := by
  refine ofBytes_first fun hmem => ?_
  rw [List.take_append_of_le_length hle] at hmem
  exact h (List.mem_of_mem_take hmem)

theorem ofBytes_beyond (h : newline ∉ line) (more : Nat) :
    ofBytes (line ++ newline :: rest) (line.length + 1 + more) =
      ⟨(ofBytes rest more).line + 1, (ofBytes rest more).column⟩ := by
  have htake : (line ++ newline :: rest).take (line.length + 1 + more) =
      line ++ newline :: rest.take more := by
    rw [Nat.add_assoc, List.take_length_add_append, Nat.add_comm 1, List.take_succ_cons]
  rw [ofBytes, htake, lineStart_append, List.count_append, List.count_cons_self,
    List.count_eq_zero.2 h, Nat.add_sub_add_left, Nat.zero_add]
  rfl

/-- The position in lines of some sizes is that in the bytes of such lines. -/
theorem inLines_eq_ofBytes : ∀ {lines : List (List UInt8)} {offset : Nat},
    (∀ l ∈ lines, newline ∉ l) →
    inLines (lines.map List.length) offset = ofBytes ([newline].intercalate lines) offset
  | [], offset, _ => (ofBytes_first (by simp)).symm
  | [l], offset, h => by
    have hmem : newline ∉ ([newline].intercalate [l]).take offset := by
      rw [List.intercalate_singleton]
      exact fun hmem => h l List.mem_cons_self (List.mem_of_mem_take hmem)
    exact (ofBytes_first hmem).symm
  | l :: l' :: r, offset, h => by
    obtain ⟨hl, hr⟩ := List.forall_mem_cons.1 h
    have hbytes : [newline].intercalate (l :: l' :: r) =
        l ++ newline :: [newline].intercalate (l' :: r) := by
      simp [List.intercalate]
    rw [hbytes, List.map_cons, List.map_cons, inLines]
    split
    · rename_i hle
      exact (ofBytes_within hl hle).symm
    · obtain ⟨more, rfl⟩ : ∃ more, offset = l.length + 1 + more := ⟨offset - l.length - 1, by omega⟩
      have hmore : l.length + 1 + more - l.length - 1 = more := by omega
      have ih : inLines (l'.length :: r.map List.length) more =
          ofBytes ([newline].intercalate (l' :: r)) more := inLines_eq_ofBytes hr
      simp only [hmore, ih, ofBytes_beyond hl]

end Lines

def encoded (cs : List Char) : List UInt8 := cs.flatMap String.utf8EncodeChar

theorem encoded_toList (source : String) : encoded source.toList = source.toUTF8.data.toList := by
  have hbytes : source.toUTF8 = source.toList.utf8Encode := String.utf8Encode_toList.symm
  rw [hbytes, List.utf8Encode, List.toList_data_toByteArray]
  rfl

theorem length_encoded (cs : List Char) :
    (encoded cs).length = (String.ofList cs).utf8ByteSize := by
  rw [← String.size_toByteArray, String.toByteArray_ofList, List.utf8Encode]
  simp [encoded]

/-- The bytes of a character that takes more than one are beyond those of newlines. -/
theorem newline_mem_utf8EncodeChar {c : Char} : newline ∈ String.utf8EncodeChar c ↔ c = '\n' := by
  constructor
  · intro h
    have hbyte (n : Nat) : newline = UInt8.ofNat n ↔ n % 256 = 10 := by
      rw [← UInt8.toNat_inj, UInt8.toNat_ofNat', eq_comm]
      rfl
    simp only [String.utf8EncodeChar] at h
    split_ifs at h <;> simp only [List.mem_cons, List.not_mem_nil, or_false, hbyte] at h
    · have hval : c.val.toNat = 10 := by omega
      exact Char.toNat_inj.1 hval
    all_goals omega
  · rintro rfl
    decide

theorem newline_not_mem_encoded {cs : List Char} (h : '\n' ∉ cs) : newline ∉ encoded cs := by
  intro hmem
  obtain ⟨c, hc, hbyte⟩ := List.mem_flatMap.1 hmem
  exact h (newline_mem_utf8EncodeChar.1 hbyte ▸ hc)

theorem encoded_append (cs ds : List Char) : encoded (cs ++ ds) = encoded cs ++ encoded ds :=
  List.flatMap_append

theorem encoded_line (line rest : List Char) :
    encoded (line ++ '\n' :: rest) = encoded line ++ newline :: encoded rest := by
  rw [encoded_append]
  rfl

theorem encoded_intercalate : ∀ lines : List (List Char),
    encoded (['\n'].intercalate lines) = [newline].intercalate (lines.map encoded)
  | [] => rfl
  | [l] => by simp
  | l :: l' :: r => by
    have hchars : ['\n'].intercalate (l :: l' :: r) =
        l ++ '\n' :: ['\n'].intercalate (l' :: r) := by
      simp [List.intercalate]
    have hbytes : [newline].intercalate ((l :: l' :: r).map encoded) =
        encoded l ++ newline :: [newline].intercalate ((l' :: r).map encoded) := by
      simp [List.intercalate]
    rw [hchars, hbytes, ← encoded_intercalate (l' :: r), encoded_line]

/-- The position of an offset in a text is that in its bytes, also beyond the end. -/
theorem ofOffset_eq_ofBytes (source : String) (offset : Nat) :
    ofOffset source offset = ofBytes source.toUTF8.data.toList offset := by
  have hlines : ∀ l ∈ (source.toList.splitOn '\n').map encoded, newline ∉ l := by
    intro l hl
    obtain ⟨line, hline, rfl⟩ := List.mem_map.1 hl
    exact newline_not_mem_encoded (Text.not_mem_of_mem_splitOn hline)
  have hsizes : (source.toList.splitOn '\n').map (fun l => (String.ofList l).utf8ByteSize) =
      ((source.toList.splitOn '\n').map encoded).map List.length := by
    rw [List.map_map]
    exact List.map_congr_left fun l _ => (length_encoded l).symm
  calc ofOffset source offset
    _ = ofBytes ([newline].intercalate ((source.toList.splitOn '\n').map encoded)) offset := by
      rw [ofOffset, hsizes, inLines_eq_ofBytes hlines]
    _ = ofBytes source.toUTF8.data.toList offset := by
      rw [← encoded_intercalate, List.intercalate_splitOn, encoded_toList]

end Bindery.Position
