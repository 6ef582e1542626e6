import Bindery.Message.Frame
import Mathlib.Data.List.Forall2

/-!
# Streams of frames

`IsFrame` says which bytes are a whole frame, and what value they carry. A stream is read as a
value and a rest exactly if it is a frame of the value and the rest, `read_append` and `read_inv`.
So reading a stream to its end without an error tells that it is whole frames, but for less than
four bytes after them, which are taken for its end: `readAll_end_iff`.
-/

namespace Bindery.Frame

/-- A whole frame and the value that it carries. -/
inductive IsFrame : List UInt8 → Json → Prop where
  | mk {a b c d : UInt8} {body : List UInt8} {v : Json} : lengthValue a b c d = body.length →
      body.length ≤ limit → parseBytes body = .ok v → IsFrame (a :: b :: c :: d :: body) v

theorem read_append {f : List UInt8} {v : Json} (h : IsFrame f v) (rest : List UInt8) :
    read (f ++ rest) = .message v rest := by
  obtain @⟨a, b, c, d, body, _, hlength, hlimit, hparse⟩ := h
  have hread : ¬ limit < body.length := by omega
  have hbody : ¬ (body ++ rest).length < body.length := by simp
  simp only [List.cons_append, read, hlength, if_neg hread, if_neg hbody, List.take_left,
    List.drop_left, hparse]

theorem read_inv {bs rest : List UInt8} {v : Json} (h : read bs = .message v rest) :
    ∃ f, IsFrame f v ∧ bs = f ++ rest := by
  unfold read at h
  split at h
  · rename_i a b c d r
    simp only [] at h
    split_ifs at h with hlimit hshort
    split at h
    · rename_i w hparse
      simp only [Reading.message.injEq] at h
      obtain ⟨rfl, rfl⟩ := h
      have hlength : (r.take (lengthValue a b c d)).length = lengthValue a b c d := by
        rw [List.length_take]
        omega
      refine ⟨a :: b :: c :: d :: r.take (lengthValue a b c d), .mk hlength.symm ?_ hparse, ?_⟩
      · omega
      · simp
    · cases h
  · cases h

theorem read_short {tail : List UInt8} (h : tail.length < 4) : read tail = .noLength := by
  rcases tail with _ | ⟨a, _ | ⟨b, _ | ⟨c, _ | ⟨d, tail⟩⟩⟩⟩
  all_goals first | rfl | (simp only [List.length_cons] at h; omega)

theorem length_of_noLength {bs : List UInt8} (h : read bs = .noLength) : bs.length < 4 := by
  unfold read at h
  split at h
  · simp only [] at h
    split_ifs at h
    split at h <;> cases h
  · rename_i hne
    rcases bs with _ | ⟨a, _ | ⟨b, _ | ⟨c, _ | ⟨d, tail⟩⟩⟩⟩
    all_goals first | exact absurd rfl (hne a b c d tail) | simp

theorem lengthValue_lengthBytes {n : ℕ} (h : n < Nat.pow 2 32) :
    lengthValue (.ofNat n) (.ofNat (n / 256)) (.ofNat (n / 65536)) (.ofNat (n / 16777216)) = n := by
  simp only [Nat.pow_eq, Nat.reducePow] at h
  simp only [lengthValue, UInt8.toNat_ofNat', Nat.reducePow]
  omega

theorem parseBytes_textBytes (s : String) : parseBytes (textBytes s) = Json.parse s := by
  have htext : String.fromUTF8? ⟨(textBytes s).toArray⟩ = some s := dif_pos s.isValidUTF8
  rw [parseBytes, htext]

theorem encode_ok {v : Json} (h : (textBytes v.compress).length ≤ limit) :
    encode v = .ok (lengthBytes (textBytes v.compress).length ++ textBytes v.compress) := by
  have hfits : limit < Nat.pow 2 32 := by decide
  exact if_pos (by omega)

/-- What is written is a frame, if its text is read as the value. -/
theorem isFrame_encode {v : Json} {f : List UInt8} (h : (textBytes v.compress).length ≤ limit)
    (hf : encode v = .ok f) (hread : Json.parse v.compress = .ok v) : IsFrame f v := by
  rw [encode_ok h] at hf
  cases hf
  have hfits : limit < Nat.pow 2 32 := by decide
  exact .mk (lengthValue_lengthBytes (by omega)) h ((parseBytes_textBytes _).trans hread)

section Steps

variable {bs rest : List UInt8} {v : Json} {e : Error}

theorem readAll_message (h : read bs = .message v rest) :
    readAll bs = (v :: (readAll rest).1, (readAll rest).2) := by
  rw [readAll]
  split <;> rename_i he <;> rw [h] at he <;> cases he
  rfl

theorem readAll_refused (h : read bs = .refused e rest) : readAll bs = ([], some e) := by
  rw [readAll]
  split <;> rename_i he <;> rw [h] at he <;> cases he
  rfl

theorem readAll_noLength (h : read bs = .noLength) : readAll bs = ([], none) := by
  rw [readAll]
  split <;> rename_i he <;> rw [h] at he <;> cases he

theorem readAll_shortBody (h : read bs = .shortBody) :
    readAll bs = ([], some (.storage .unexpectedEnd)) := by
  rw [readAll]
  split <;> rename_i he <;> rw [h] at he <;> cases he

end Steps

theorem readAll_frames {fs : List (List UInt8)} {vs : List Json} (h : List.Forall₂ IsFrame fs vs)
    (rest : List UInt8) :
    readAll (fs.flatten ++ rest) = (vs ++ (readAll rest).1, (readAll rest).2) := by
  induction h with
  | nil => rfl
  | cons hf _ ih =>
    rw [List.flatten_cons, List.append_assoc, readAll_message (read_append hf _), ih,
      List.cons_append]

theorem readAll_flatten {fs : List (List UInt8)} {vs : List Json} (h : List.Forall₂ IsFrame fs vs) :
    readAll fs.flatten = (vs, none) := by
  have hread := readAll_frames h []
  have hend : readAll [] = ([], none) := readAll_noLength rfl
  rwa [hend, List.append_nil, List.append_nil] at hread

/-- What is said of a frame that ends before its length: one that is too long is refused without
waiting for its end. -/
def cutFault (length : Nat) : Error :=
  if limit < length then .message (.frameTooLarge length) else .storage .unexpectedEnd

theorem readAll_cut {a b c d : UInt8} {body : List UInt8}
    (h : body.length < lengthValue a b c d) :
    readAll (a :: b :: c :: d :: body) = ([], some (cutFault (lengthValue a b c d))) := by
  rw [cutFault]
  split_ifs with hlimit
  · have hread : read (a :: b :: c :: d :: body)
        = .refused (.message (.frameTooLarge (lengthValue a b c d))) body := by
      simp only [read, if_pos hlimit]
    exact readAll_refused hread
  · exact readAll_shortBody (by simp only [read, if_neg hlimit, if_pos h])

theorem readAll_inv (bs : List UInt8) : (readAll bs).2 = none →
    ∃ fs tail, bs = fs.flatten ++ tail ∧ List.Forall₂ IsFrame fs (readAll bs).1
      ∧ tail.length < 4 := by
  induction bs using readAll.induct with
  | case1 bs v rest hread ih =>
    intro hend
    rw [readAll_message hread] at hend ⊢
    obtain ⟨f, hf, rfl⟩ := read_inv hread
    obtain ⟨fs, tail, rfl, hfs, htail⟩ := ih hend
    exact ⟨f :: fs, tail, by simp, .cons hf hfs, htail⟩
  | case2 bs e rest hread =>
    intro hend
    rw [readAll_refused hread] at hend
    cases hend
  | case3 bs hread =>
    intro _
    rw [readAll_noLength hread]
    exact ⟨[], bs, rfl, .nil, length_of_noLength hread⟩
  | case4 bs hread =>
    intro hend
    rw [readAll_shortBody hread] at hend
    cases hend

/-- Reading comes to an end without an error exactly after whole frames and less than four bytes
more; a frame that is cut inside its body ends in an error. -/
theorem readAll_end_iff (vs : List Json) :
    (∀ bs, readAll bs = (vs, none) ↔
      ∃ fs tail, bs = fs.flatten ++ tail ∧ List.Forall₂ IsFrame fs vs ∧ tail.length < 4)
    ∧ ∀ (fs : List (List UInt8)) (a b c d : UInt8) (body : List UInt8),
      List.Forall₂ IsFrame fs vs → body.length < lengthValue a b c d →
      readAll (fs.flatten ++ a :: b :: c :: d :: body)
        = (vs, some (cutFault (lengthValue a b c d))) := by
  refine ⟨fun bs => ⟨fun h => ?_, ?_⟩, fun fs a b c d body hfs hbody => ?_⟩
  · have hinv := readAll_inv bs
    rw [h] at hinv
    exact hinv rfl
  · rintro ⟨fs, tail, rfl, hfs, htail⟩
    rw [readAll_frames hfs, readAll_noLength (read_short htail), List.append_nil]
  · rw [readAll_frames hfs, readAll_cut hbody, List.append_nil]

/-- The frame of `null`. -/
def nullFrame : List UInt8 := [4, 0, 0, 0, 110, 117, 108, 108]

theorem isFrame_nullFrame : IsFrame nullFrame .null :=
  .mk (by decide +kernel) (by decide +kernel) (by decide +kernel)

/-- A frame, and another one up to its second letter. -/
theorem readAll_end_iff_null :
    List.Forall₂ IsFrame [nullFrame] [.null] ∧ [110, 117].length < lengthValue 4 0 0 0
      ∧ readAll (nullFrame ++ nullFrame.take 6) = ([.null], some (.storage .unexpectedEnd)) := by
  have hfs : List.Forall₂ IsFrame [nullFrame] [.null] := .cons isFrame_nullFrame .nil
  have hbody : [110, 117].length < lengthValue 4 0 0 0 := by decide
  exact ⟨hfs, hbody, (readAll_end_iff [.null]).2 [nullFrame] 4 0 0 0 [110, 117] hfs hbody⟩

/-- A stream that ends inside the length of a frame is no sequence of whole frames and ends without
an error all the same. -/
theorem readAll_cut_length :
    IsFrame nullFrame .null ∧ readAll (nullFrame ++ nullFrame.take 2) = ([.null], none)
      ∧ ¬ ∃ fs, nullFrame ++ nullFrame.take 2 = fs.flatten ∧ List.Forall₂ IsFrame fs [.null] := by
  have hend : readAll (nullFrame ++ nullFrame.take 2) = ([.null], none) := by
    have hfs : List.Forall₂ IsFrame [nullFrame] [.null] := .cons isFrame_nullFrame .nil
    have hshort : (nullFrame.take 2).length < 4 := by decide
    have hread := readAll_frames hfs (nullFrame.take 2)
    rwa [readAll_noLength (read_short hshort)] at hread
  refine ⟨isFrame_nullFrame, hend, ?_⟩
  rintro ⟨fs, hflat, hfs⟩
  -- Ten bytes are no whole frame: the length that they start with is four.
  cases hfs with
  | cons hf hnil =>
    cases hnil
    rw [List.flatten_cons, List.flatten_nil, List.append_nil] at hflat
    subst hflat
    cases hf with
    | mk hlength => revert hlength; decide

end Bindery.Frame
