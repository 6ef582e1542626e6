import Bindery.Message.Wire
import Bindery.Proofs.JsonValue

/-!
# Commands that are read back

Bytes are what their text in base64 stands for, `decode?_encode`, and a command is what its JSON is
read as, `ofJson_toJson`, whatever its paths, names and contents are.
-/

namespace Bindery

namespace Base64

theorem value?_digit (n : Nat) : value? (digit n) = some (n % 64) := by
  have hall : ∀ i : Fin 64, value? (alphabet.getD i '=') = some i.val := by decide +kernel
  exact hall ⟨n % 64, Nat.mod_lt n (by omega)⟩

theorem digit_ne (n : Nat) : digit n ≠ '=' := by
  intro h
  have hvalue := value?_digit n
  have hfill : value? '=' = none := by decide +kernel
  rw [h, hfill] at hvalue
  cases hvalue

theorem decode?_group (k l m n : Nat) (r : List Char) :
    decode? (digit k :: digit l :: digit m :: digit n :: r) = (decode? r).map fun bs =>
      let group := ((k % 64 * 64 + l % 64) * 64 + m % 64) * 64 + n % 64
      .ofNat (group / 65536) :: .ofNat (group / 256) :: .ofNat group :: bs := by
  rw [decode?]
  · simp only [value?_digit, Option.bind_eq_bind, Option.bind_some, Option.pure_def]
    rcases decode? r with _ | bs <;> rfl
  · intro _ h _
    exact digit_ne n h
  · intro h _
    exact digit_ne n h

theorem decode?_two (k l m : Nat) :
    decode? [digit k, digit l, digit m, '='] =
      let group := (k % 64 * 64 + l % 64) * 64 + m % 64
      if group % 4 = 0 then some [.ofNat (group / 1024), .ofNat (group / 4)] else none := by
  rw [decode?]
  · simp only [value?_digit, Option.bind_eq_bind, Option.bind_some]
  · exact digit_ne m

theorem decode?_one (k l : Nat) :
    decode? [digit k, digit l, '=', '='] =
      let group := k % 64 * 64 + l % 64
      if group % 16 = 0 then some [.ofNat (group / 16)] else none := by
  rw [decode?]
  simp only [value?_digit, Option.bind_eq_bind, Option.bind_some]

theorem ofNat_eq {n : Nat} {a : UInt8} (h : n % 256 = a.toNat) : UInt8.ofNat n = a := by
  apply UInt8.toNat_inj.1
  rw [UInt8.toNat_ofNat', ← h]

theorem decode?_encode (bs : List UInt8) : decode? (encode bs) = some bs := by
  induction bs using encode.induct with
  | case1 a b c r ih =>
    have ha := a.toNat_lt
    have hb := b.toNat_lt
    have hc := c.toNat_lt
    rw [encode, decode?_group, ih, Option.map_some]
    simp only [Option.some.injEq, List.cons.injEq, and_true]
    exact ⟨ofNat_eq (by omega), ofNat_eq (by omega), ofNat_eq (by omega)⟩
  | case2 a b =>
    have ha := a.toNat_lt
    have hb := b.toNat_lt
    rw [encode, decode?_two]
    simp only []
    rw [if_pos (by omega)]
    simp only [Option.some.injEq, List.cons.injEq, and_true]
    exact ⟨ofNat_eq (by omega), ofNat_eq (by omega)⟩
  | case3 a =>
    have ha := a.toNat_lt
    rw [encode, decode?_one]
    simp only []
    rw [if_pos (by omega)]
    simp only [Option.some.injEq, List.cons.injEq, and_true]
    exact ofNat_eq (by omega)
  | case4 => rfl

end Base64

namespace Wire

theorem text_str {v : Json} {args : List Json} {i : Nat} {s : String}
    (h : args[i]? = some (.str s)) : text v args i = .ok s := by
  rw [text, h]

theorem bytes_ofBytes {v : Json} {args : List Json} {i : Nat} {content : ByteArray}
    (h : args[i]? = some (ofBytes content)) : bytes v args i = .ok content := by
  have htext : text v args i = .ok (String.ofList (Base64.encode content.data.toList)) :=
    text_str h
  have hdecode : Base64.decode? (String.ofList (Base64.encode content.data.toList)).toList
      = some content.data.toList := by rw [String.toList_ofList, Base64.decode?_encode]
  simp only [bytes, htext, bind, Except.bind, hdecode]
  rfl

end Wire

namespace Command

theorem names?_ofStrings (names : List String) : names? (some (.ofStrings names)) = some names := by
  have hpure : (names.map Json.str).mapM Json.str? = names.mapM fun s => (pure s : Option String) :=
    List.mapM_map
  exact hpure.trans (List.mapM_pure.trans (congrArg some (List.map_id names)))

/-- A command is read back from its JSON. -/
theorem ofJson_toJson (c : Command) : ofJson c.toJson = .ok c := by
  cases c with
  | init top => rfl
  | put path content =>
    have hbytes : Wire.bytes (toJson (.put path content)) [.str path, Wire.ofBytes content] 1
        = .ok content := Wire.bytes_ofBytes rfl
    have hread : ofJson (toJson (.put path content))
        = (Wire.bytes (toJson (.put path content)) [.str path, Wire.ofBytes content] 1).map
          (Command.put path) := rfl
    rw [hread, hbytes]
    rfl
  | load path => rfl
  | compile path => rfl
  | get path => rfl
  | loadPackages names =>
    have hsplit : Wire.split (toJson (.loadPackages names))
        = .ok ("LoadPkg", [.ofStrings names]) := rfl
    simp only [ofJson, hsplit, bind, Except.bind, List.head?_cons, names?_ofStrings]
    rfl

open Json in
theorem legible_toJson (c : Command) : Legible nestingLimit c.toJson := by
  have hdepth : ∀ k < 5, nestingLimit - k ≠ 0 := by decide
  refine ⟨hdepth 0 (by omega), trivial, ?_⟩
  cases c with
  | init top =>
    refine ⟨⟨hdepth 1 (by omega), ?_, trivial, trivial⟩, trivial⟩
    simp [Table.Increasing]
  | put path content => exact ⟨trivial, trivial, trivial⟩
  | load path => exact ⟨trivial, trivial⟩
  | compile path => exact ⟨trivial, trivial⟩
  | get path => exact ⟨trivial, trivial⟩
  | loadPackages names => exact ⟨legible_ofStrings (hdepth 1 (by omega)) names, trivial⟩

/-- A command is read back from its text. -/
theorem parse_toJson (c : Command) : Json.parse c.toJson.compress = .ok c.toJson :=
  Json.parse_compress c.legible_toJson

end Command

end Bindery
