import Bindery.Proofs.CommandStream

/-!
# The two limits of a frame

A frame is written if the length of its text fits four bytes, `widest`, and is read only if that
length is at most `limit`. So a text between the two is written and then refused, `refused_iff`. Of
commands that are sent those are read that stand before the first of such a text,
`sends_read_until`. The text of a command that stages a source has four bytes for each three of the
source, `size_put`.
-/

namespace Bindery

open Json (quote escape)

namespace Base64

theorem length_encode (bs : List UInt8) : (encode bs).length = 4 * ((bs.length + 2) / 3) := by
  induction bs using encode.induct with
  | case1 a b c r ih =>
    simp only [encode, List.length_cons, ih]
    omega
  | case2 a b => simp [encode]
  | case3 a => simp [encode]
  | case4 => rfl

/-- A string holds the character as itself, in one byte. -/
def IsPlain (c : Char) : Prop := escape c = [c] ∧ c.utf8Size = 1

instance (c : Char) : Decidable (IsPlain c) := inferInstanceAs (Decidable (_ ∧ _))

theorem isPlain_digit (n : ℕ) : IsPlain (digit n) := by
  have hall : ∀ i : Fin 64, IsPlain (alphabet.getD i '=') := by decide +kernel
  exact hall ⟨n % 64, Nat.mod_lt n (by omega)⟩

theorem isPlain_encode (bs : List UInt8) : ∀ c ∈ encode bs, IsPlain c := by
  have hfill : IsPlain '=' := by decide
  induction bs using encode.induct with
  | case1 a b c r ih => simpa [encode, isPlain_digit] using ih
  | case2 a b => simp [encode, isPlain_digit, hfill]
  | case3 a => simp [encode, isPlain_digit, hfill]
  | case4 => simp [encode]

theorem utf8ByteSize_plain : ∀ {cs : List Char}, (∀ c ∈ cs, IsPlain c) →
    (String.ofList (cs.flatMap escape)).utf8ByteSize = cs.length
  | [], _ => rfl
  | c :: r, h => by
    obtain ⟨hc, hr⟩ := List.forall_mem_cons.1 h
    have hsplit : String.ofList ((c :: r).flatMap escape)
        = String.singleton c ++ String.ofList (r.flatMap escape) := by
      rw [← String.toList_inj]
      simp [hc.1]
    rw [hsplit, String.utf8ByteSize_append, String.utf8ByteSize_singleton, hc.2,
      utf8ByteSize_plain hr, List.length_cons, Nat.add_comm]

end Base64

theorem Json.utf8ByteSize_quote (s : String) :
    (quote s).utf8ByteSize = (String.ofList (s.toList.flatMap escape)).utf8ByteSize + 2 := by
  have hquote : quote s = "\x22" ++ String.ofList (s.toList.flatMap escape) ++ "\x22" := by
    rw [← String.toList_inj]
    simp [quote]
  have hmark : "\x22".utf8ByteSize = 1 := by decide
  rw [hquote, String.utf8ByteSize_append, String.utf8ByteSize_append, hmark]
  omega

theorem Wire.utf8ByteSize_ofBytes (content : ByteArray) :
    (ofBytes content).compress.utf8ByteSize = 4 * ((content.size + 2) / 3) + 2 := by
  rw [ofBytes, Json.compress, Json.utf8ByteSize_quote, String.toList_ofList,
    Base64.utf8ByteSize_plain (Base64.isPlain_encode _), Base64.length_encode]
  rfl

namespace Frame

/-- How many bytes the text of a message has. -/
def size (v : Json) : ℕ := v.compress.utf8ByteSize

/-- The longest text that is written. -/
def widest : ℕ := Nat.pow 2 32 - 1

theorem le_widest {n : ℕ} : n ≤ widest ↔ n < Nat.pow 2 32 := Nat.le_sub_one_iff_lt (by decide)

theorem length_textBytes (v : Json) : (textBytes v.compress).length = size v := by
  rw [size, ← String.size_toByteArray]
  rfl

theorem encode_within {v : Json} (h : size v ≤ widest) :
    encode v = .ok (lengthBytes (size v) ++ textBytes v.compress) := by
  simp only [encode, length_textBytes, if_pos (le_widest.1 h)]

theorem encode_beyond {v : Json} (h : widest < size v) :
    encode v = .error (.message (.frameTooLarge (size v))) := by
  have hbeyond : ¬ size v < Nat.pow 2 32 := fun hlt => Nat.not_lt.2 (le_widest.2 hlt) h
  simp only [encode, length_textBytes, if_neg hbeyond]

/-- What is written is refused if it is longer than what is read. -/
theorem read_beyond {v : Json} (h : size v ≤ widest) (hlimit : limit < size v) (rest : List UInt8) :
    read (lengthBytes (size v) ++ textBytes v.compress ++ rest) =
      .refused (.message (.frameTooLarge (size v))) (textBytes v.compress ++ rest) := by
  simp only [lengthBytes, List.cons_append, List.nil_append, read,
    lengthValue_lengthBytes (le_widest.1 h), if_pos hlimit]

/-- What a frame with so much after it is read as, if all of its text is read. -/
def parsed (rest : List UInt8) : Except Json.Fault Json → Reading
  | .ok v => .message v rest
  | .error fault => .refused (.json fault) rest

theorem read_within {v : Json} (hlimit : size v ≤ limit) (rest : List UInt8) :
    read (lengthBytes (size v) ++ textBytes v.compress ++ rest) =
      parsed rest (Json.parse v.compress) := by
  have hwidest : limit ≤ widest := by decide
  have hshort : ¬ (textBytes v.compress ++ rest).length < size v := by
    rw [List.length_append, length_textBytes]
    omega
  simp only [lengthBytes, List.cons_append, List.nil_append, read,
    lengthValue_lengthBytes (le_widest.1 (hlimit.trans hwidest)), if_neg (Nat.not_lt.2 hlimit),
    if_neg hshort]
  rw [← length_textBytes, List.take_left, List.drop_left, parseBytes_textBytes]
  rcases Json.parse v.compress with fault | w <;> rfl

theorem refused_iff (v : Json) (rest : List UInt8) :
    (∃ f, encode v = .ok f
        ∧ ∃ n r, read (f ++ rest) = .refused (.message (.frameTooLarge n)) r) ↔
      limit < size v ∧ size v ≤ widest := by
  by_cases hwidest : size v ≤ widest
  · by_cases hlimit : limit < size v
    · exact iff_of_true ⟨_, encode_within hwidest, _, _, read_beyond hwidest hlimit rest⟩
        ⟨hlimit, hwidest⟩
    · refine iff_of_false ?_ fun h => hlimit h.1
      rintro ⟨f, hf, n, r, hread⟩
      cases (encode_within hwidest).symm.trans hf
      rw [read_within (Nat.not_lt.1 hlimit)] at hread
      rcases hparse : Json.parse v.compress with fault | w <;>
        rw [hparse, parsed] at hread <;> cases hread
  · refine iff_of_false ?_ fun h => hwidest h.2
    rintro ⟨f, hf, -⟩
    cases (encode_beyond (Nat.not_le.1 hwidest)).symm.trans hf

theorem size_put (path : String) (content : ByteArray) :
    size (Command.put path content).toJson =
      (quote path).utf8ByteSize + 4 * ((content.size + 2) / 3) + 11 := by
  have htext : (Command.put path content).toJson.compress = "[" ++ ("\x22Put\x22," ++
      (quote path ++ ("," ++ ((Wire.ofBytes content).compress ++ "]")))) := by
    have htag : quote "Put" = "\x22Put\x22" := by decide
    simp [Command.toJson, Command.tagText, Command.args, Json.compress, Json.compressItems, htag,
      String.intercalate_cons_cons, String.append_assoc]
  have hopen : "[".utf8ByteSize = 1 := by decide
  have htag : "\x22Put\x22,".utf8ByteSize = 6 := by decide
  have hcomma : ",".utf8ByteSize = 1 := by decide
  have hclose : "]".utf8ByteSize = 1 := by decide
  simp only [size, htext, String.utf8ByteSize_append, hopen, htag, hcomma, hclose,
    Wire.utf8ByteSize_ofBytes]
  omega

theorem read_command {c : Command} (h : size c.toJson ≤ limit) (rest : List UInt8) :
    read (lengthBytes (size c.toJson) ++ textBytes c.toJson.compress ++ rest) =
      .message c.toJson rest := by
  rw [read_within h, c.parse_toJson, parsed]

/-- Why the first of some commands whose text is longer than so many bytes is not admitted. -/
def refusal (n : ℕ) (cs : List Command) : Option Error :=
  (cs.find? fun c => n < size c.toJson).map fun c => .message (.frameTooLarge (size c.toJson))

/-- The commands before the first whose text is longer than so many bytes. -/
def admitted (n : ℕ) (cs : List Command) : List Command := cs.takeWhile fun c => size c.toJson ≤ n

section

variable {n : ℕ} {c : Command} (r : List Command)

theorem admitted_within (h : size c.toJson ≤ n) : admitted n (c :: r) = c :: admitted n r := by
  rw [admitted, List.takeWhile_cons_of_pos (by simpa using h), ← admitted]

theorem refusal_within (h : size c.toJson ≤ n) : refusal n (c :: r) = refusal n r := by
  rw [refusal, List.find?_cons_of_neg (by simpa using h), ← refusal]

theorem admitted_beyond (h : n < size c.toJson) : admitted n (c :: r) = [] := by
  rw [admitted, List.takeWhile_cons_of_neg (by simpa using h)]

theorem refusal_beyond (h : n < size c.toJson) :
    refusal n (c :: r) = some (.message (.frameTooLarge (size c.toJson))) := by
  rw [refusal, List.find?_cons_of_pos (by simpa using h), Option.map_some]

end

end Frame

namespace Peer

open Bindery.Frame

theorem keeper_send_error {c : Command} {e : Error} (h : encode c.toJson = .error e)
    (s : Site (Duplex (List UInt8))) : keeper.transport.send c s = (s, .error e) := by
  show keeper.send c s = _
  rw [send, h]

/-- Commands are sent up to the first that is not written, and of those that are sent the ones up
to the first beyond the limit are read. -/
theorem sends_read_until : ∀ (cs : List Command) (s : Site (List UInt8)) (input : List UInt8)
    (ended : Bool), ∃ bytes,
      keeper.transport.perform (cs.map .send) (s.reading input ended) =
        ({ s with remote := s.remote ++ bytes }.reading input ended,
          (refusal widest cs).elim (.ok []) fun e => .error (.failed e))
      ∧ readAll bytes = ((admitted limit (admitted widest cs)).map (·.toJson),
        refusal limit (admitted widest cs))
  | [], s, input, ended => by
    refine ⟨[], ?_, readAll_noLength rfl⟩
    simp [Transport.perform, refusal]
  | c :: r, s, input, ended => by
    rw [List.map_cons, Transport.perform]
    by_cases hwidest : size c.toJson ≤ widest
    · -- The rest is sent to a peer that has kept the frame already.
      obtain ⟨bytes, hsend, hread⟩ := sends_read_until r
        { s with remote := s.remote ++ (lengthBytes (size c.toJson)
          ++ textBytes c.toJson.compress) } input ended
      refine ⟨lengthBytes (size c.toJson) ++ textBytes c.toJson.compress ++ bytes, ?_, ?_⟩
      · rw [keeper_send (encode_within hwidest), refusal_within r hwidest]
        simp only [hsend, List.append_assoc]
      · rw [admitted_within r hwidest]
        by_cases hlimit : size c.toJson ≤ limit
        · rw [readAll_message (read_command hlimit bytes), hread, admitted_within _ hlimit,
            refusal_within _ hlimit, List.map_cons]
        · have hbeyond := Nat.not_le.1 hlimit
          rw [readAll_refused (read_beyond hwidest hbeyond bytes), admitted_beyond _ hbeyond,
            refusal_beyond _ hbeyond, List.map_nil]
    · have hbeyond := Nat.not_le.1 hwidest
      refine ⟨[], ?_, ?_⟩
      · rw [keeper_send_error (encode_beyond hbeyond), refusal_beyond r hbeyond, List.append_nil]
        rfl
      · rw [admitted_beyond r hbeyond]
        exact readAll_noLength rfl

/-- What is written is refused for its length just if it is beyond the limit of what is read, though
within that of what is written. So of the commands that are sent only those are read that stand
before the first such one; how long the text of a command that stages a source is follows from its
path and the size of the source. -/
theorem written_refused_iff (v : Json) (rest : List UInt8) :
    ((∃ f, encode v = .ok f
          ∧ ∃ n r, read (f ++ rest) = .refused (.message (.frameTooLarge n)) r) ↔
        limit < size v ∧ size v ≤ widest)
      ∧ (∀ (cs : List Command) (s : Site (List UInt8)) (input : List UInt8) (ended : Bool),
          ∃ bytes, keeper.transport.perform (cs.map .send) (s.reading input ended) =
              ({ s with remote := s.remote ++ bytes }.reading input ended,
                (refusal widest cs).elim (.ok []) fun e => .error (.failed e))
            ∧ readAll bytes = ((admitted limit (admitted widest cs)).map (·.toJson),
              refusal limit (admitted widest cs)))
      ∧ ∀ (path : String) (content : ByteArray), size (Command.put path content).toJson =
          (quote path).utf8ByteSize + 4 * ((content.size + 2) / 3) + 11 :=
  ⟨refused_iff v rest, sends_read_until, size_put⟩

/-- The command that stages a source of 75 megabytes, all of them zero. -/
def wideCommand : Command := .put "/A.v" ⟨Array.replicate 78643200 0⟩

theorem size_wideCommand : size wideCommand.toJson = 104857617 := by
  have hpath : (quote "/A.v").utf8ByteSize = 6 := by decide
  have hcontent : (⟨Array.replicate 78643200 0⟩ : ByteArray).size = 78643200 :=
    Array.size_replicate
  rw [wideCommand, size_put, hpath, hcontent]

/-- A command that is written and then refused for its length. -/
theorem written_refused_wide : ∃ f, encode wideCommand.toJson = .ok f
    ∧ ∃ r, read f = .refused (.message (.frameTooLarge 104857617)) r := by
  have hwidest : size wideCommand.toJson ≤ widest := by
    rw [size_wideCommand]
    decide
  have hlimit : limit < size wideCommand.toJson := by
    rw [size_wideCommand]
    decide
  have hread := read_beyond hwidest hlimit []
  rw [List.append_nil, List.append_nil] at hread
  exact ⟨_, encode_within hwidest, _, by rw [hread, size_wideCommand]⟩

end Peer

end Bindery
