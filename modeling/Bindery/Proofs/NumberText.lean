import Bindery.Proofs.JsonLayout
import Mathlib.Data.Nat.Notation

/-!
# Texts of numbers

A whole number is written by its digits, after a sign if it is negative. The text is read as a
numeral of these digits, `isNumeral_whole`, and the numeral is worth the number if it fits 64 bits,
`number?_whole`. The text of any number has no characters but those of numerals, `numeric_text`.
-/

namespace Bindery.Json

def digitsOf (n : Nat) : List Nat := (Nat.toDigits 10 n).map fun c => c.toNat - '0'.toNat

theorem toList_toString (n : Nat) : (toString n).toList = Nat.toDigits 10 n := by
  rw [Nat.toString_eq_ofList_toDigits, String.toList_ofList]

theorem isDigit_of_mem {n : Nat} {c : Char} (h : c ∈ Nat.toDigits 10 n) : c.isDigit = true :=
  Nat.isDigit_of_mem_toDigits (by decide) (by decide) h

theorem digitValue_of_isDigit {c : Char} (h : c.isDigit = true) :
    Raw.digitValue c = some (c.toNat - '0'.toNat) := by
  simp only [Char.isDigit, Bool.and_eq_true, decide_eq_true_eq] at h
  exact if_pos h

/-- A number that is not zero does not start with the digit zero. -/
theorem head?_toDigits {n : Nat} (h : 0 < n) : (Nat.toDigits 10 n).head? ≠ some '0' := by
  induction n using Nat.strongRecOn with
  | ind n ih =>
    rw [Nat.toDigits_eq_if (by decide)]
    split
    · rename_i hlt
      have hall : ∀ d : Fin 10, d.val ≠ 0 → d.val.digitChar ≠ '0' := by decide
      simpa using hall ⟨n, hlt⟩ (by simpa using h.ne')
    · rename_i hge
      have hdiv : 0 < n / 10 := Nat.div_pos (by omega) (by decide)
      rw [List.head?_append_of_ne_nil _ Nat.toDigits_ne_nil]
      exact ih (n / 10) (Nat.div_lt_self h (by decide)) hdiv

/-- The digits of a number have no zero in front of others. -/
theorem head?_digitsOf {n : Nat} (h : (digitsOf n).head? = some 0) : (digitsOf n).length = 1 := by
  rcases Nat.eq_zero_or_pos n with rfl | hn
  · rfl
  · refine absurd ?_ (head?_toDigits hn)
    rw [digitsOf, List.head?_map, Option.map_eq_some_iff] at h
    obtain ⟨c, hc, hzero⟩ := h
    have hdigit := isDigit_of_mem (List.mem_of_mem_head? hc)
    have hge : '0'.toNat ≤ c.toNat := by
      simp only [Char.isDigit, Bool.and_eq_true, decide_eq_true_eq] at hdigit
      exact hdigit.1
    rw [hc, Option.some.injEq]
    exact Char.toNat_inj.1 (by omega)

namespace Raw

theorem digits_append {r : List Char} (hr : Ends r) : ∀ {cs : List Char},
    (∀ c ∈ cs, c.isDigit = true) → digits (cs ++ r) = (cs.map fun c => c.toNat - '0'.toNat, r)
  | [], _ => by
    rcases r with _ | ⟨c, t⟩
    · rfl
    · rw [List.nil_append, digits, (hr c t rfl).1, List.map_nil]
  | c :: cs, h => by
    obtain ⟨hc, hcs⟩ := List.forall_mem_cons.1 h
    rw [List.cons_append, digits, digitValue_of_isDigit hc, digits_append hr hcs, List.map_cons]

theorem wholePart_append {r : List Char} (hr : Ends r) (n : Nat) :
    wholePart (Nat.toDigits 10 n ++ r) = some (digitsOf n, r) := by
  have hdigits : digits (Nat.toDigits 10 n ++ r) = (digitsOf n, r) :=
    digits_append hr fun c hc => isDigit_of_mem hc
  have hne : digitsOf n ≠ [] := by simp [digitsOf, Nat.toDigits_ne_nil]
  have hdigits1 : digits1 (Nat.toDigits 10 n ++ r) = some (digitsOf n, r) := by
    obtain ⟨d, ds, hd⟩ := List.exists_cons_of_ne_nil hne
    rw [digits1, hdigits, hd]
  have hzero : ¬ ((digitsOf n).head? = some 0 ∧ (digitsOf n).length ≠ 1) :=
    fun h => h.2 (head?_digitsOf h.1)
  simp only [wholePart, hdigits1, bind, Option.bind, if_neg hzero, pure]

theorem unsigned_append {r : List Char} (hr : Ends r) (negative : Bool) (n : Nat) :
    unsigned negative (Nat.toDigits 10 n ++ r) = some (⟨negative, digitsOf n, none, none⟩, r) := by
  have hfraction : fractionPart r = some (none, r) := by
    unfold fractionPart
    split
    · exact absurd rfl (hr _ _ rfl).2.1
    · rfl
  have hexponent : exponentPart r = some (none, r) := by
    unfold exponentPart
    split
    · exact absurd rfl (hr _ _ rfl).2.2.1
    · exact absurd rfl (hr _ _ rfl).2.2.2
    · rfl
  simp only [unsigned, wholePart_append hr, bind, Option.bind, hfraction, hexponent, pure]

end Raw

def wholeNumeral (n : Int) : Numeral := ⟨decide (n < 0), digitsOf n.natAbs, none, none⟩

theorem toList_toString_int (n : Int) :
    (toString n).toList = (if n < 0 then ['-'] else []) ++ Nat.toDigits 10 n.natAbs := by
  rw [Int.toString_eq_repr, Int.repr_eq_if]
  by_cases h : n < 0
  · have habs : (-n).toNat = n.natAbs := by omega
    rw [if_neg (by omega), if_pos h, habs, String.toList_append, Nat.toList_repr]
    rfl
  · have habs : n.toNat = n.natAbs := by omega
    rw [if_pos (by omega), if_neg h, habs, Nat.toList_repr, List.nil_append]

theorem exists_toDigits (n : Nat) : ∃ c t, Nat.toDigits 10 n = c :: t ∧ c.isDigit = true := by
  rcases h : Nat.toDigits 10 n with _ | ⟨c, t⟩
  · exact absurd h Nat.toDigits_ne_nil
  · exact ⟨c, t, rfl, isDigit_of_mem (by rw [h]; exact List.mem_cons_self)⟩

theorem isNumeral_toString (n : Int) : Raw.IsNumeral (toString n).toList (wholeNumeral n) := by
  obtain ⟨c, t, hdigits, hc⟩ := exists_toDigits n.natAbs
  rw [toList_toString_int]
  by_cases h : n < 0
  · rw [if_pos h]
    refine ⟨⟨'-', _, rfl, .inl rfl⟩, fun r hr => ?_⟩
    rw [List.singleton_append, List.cons_append, Raw.numeral, Raw.unsigned_append hr, wholeNumeral,
      decide_eq_true h]
  · rw [if_neg h, List.nil_append]
    refine ⟨⟨c, t, hdigits, .inr (by rw [digitValue_of_isDigit hc]; rfl)⟩, fun r hr => ?_⟩
    have hunsigned := Raw.unsigned_append hr false n.natAbs
    rw [hdigits] at hunsigned ⊢
    rw [List.cons_append, Raw.numeral, ← List.cons_append, hunsigned, wholeNumeral,
      decide_eq_false h]
    rintro _ hminus
    rw [(List.cons.inj hminus).1] at hc
    exact absurd hc (by decide)

theorem numeral_whole (n : Int) : (Number.whole n).numeral = wholeNumeral n := by
  have hread := (isNumeral_toString n).read [] Raw.ends_nil
  rw [List.append_nil] at hread
  rw [Number.numeral, Number.text, hread]
  rfl

theorem isNumeral_whole (n : Int) :
    Raw.IsNumeral (Number.whole n).text.toList (Number.whole n).numeral := by
  rw [numeral_whole]
  exact isNumeral_toString n

theorem le_ofDigitChars : ∀ (cs : List Char) (n : Nat), n ≤ Nat.ofDigitChars 10 cs n
  | [], _ => le_refl _
  | c :: cs, n => by
    rw [Nat.ofDigitChars_cons]
    have ih := le_ofDigitChars cs (10 * n + (c.toNat - '0'.toNat))
    omega

/-- Digits are taken into a significand one by one if the whole of them fits 64 bits. -/
theorem significand_map : ∀ {cs : List Char} {n : Nat}, Nat.ofDigitChars 10 cs n < Nat.pow 2 64 →
    significand n (cs.map fun c => c.toNat - '0'.toNat) = (Nat.ofDigitChars 10 cs n, [])
  | [], n, _ => rfl
  | c :: cs, n, h => by
    rw [Nat.ofDigitChars_cons] at h ⊢
    have hle := le_ofDigitChars cs (10 * n + (c.toNat - '0'.toNat))
    rw [List.map_cons, significand, Nat.mul_comm n 10, if_pos (Nat.lt_of_le_of_lt hle h),
      significand_map h]

theorem significand_digitsOf {n : Nat} (h : n < Nat.pow 2 64) :
    significand 0 (digitsOf n) = (n, []) := by
  have hvalue : Nat.ofDigitChars 10 (Nat.toDigits 10 n) 0 = n := Nat.ofDigitChars_ten_toDigits
  rw [digitsOf, significand_map (by rwa [hvalue]), hvalue]

/-- The number is whole and fits 64 bits, with a sign if it is negative. -/
def Number.Fits : Number → Prop
  | .whole n => -(Nat.pow 2 63 : Int) ≤ n ∧ n < (Nat.pow 2 64 : Int)
  | .double _ => False

theorem number?_whole {n : Int} (h : (Number.whole n).Fits) :
    (Number.whole n).numeral.number? = some (.whole n) := by
  obtain ⟨hlow, hhigh⟩ := h
  have hpow : Nat.pow 2 64 = 18446744073709551616 ∧ Nat.pow 2 63 = 9223372036854775808 :=
    ⟨rfl, rfl⟩
  have hlt : n.natAbs < Nat.pow 2 64 := by omega
  have hs := significand_digitsOf hlt
  rw [numeral_whole]
  simp only [Numeral.number?, wholeNumeral, hs]
  by_cases hn : n < 0
  · have hbound : ¬ (n.natAbs = 0 ∨ Nat.pow 2 63 < n.natAbs) := by omega
    have habs : -(n.natAbs : Int) = n := by omega
    simp only [hn, decide_true, if_true, if_neg hbound, habs]
  · have habs : (n.natAbs : Int) = n := by omega
    simp only [hn, decide_false, Bool.false_eq_true, if_false, habs]

def IsNumeric (c : Char) : Prop := c.isDigit = true ∨ c ∈ ['-', '+', '.', 'e']

def Numeric (cs : List Char) : Prop := ∀ c ∈ cs, IsNumeric c

theorem Numeric.append {cs ds : List Char} (hc : Numeric cs) (hd : Numeric ds) :
    Numeric (cs ++ ds) :=
  List.forall_mem_append.2 ⟨hc, hd⟩

theorem numeric_toDigits (n : Nat) : Numeric (Nat.toDigits 10 n) :=
  fun _ hc => .inl (isDigit_of_mem hc)

theorem numeric_toString_int (n : Int) : Numeric (toString n).toList := by
  rw [toList_toString_int]
  refine .append ?_ (numeric_toDigits _)
  split <;> simp [Numeric, IsNumeric]

theorem numeric_zeros (n : Nat) : Numeric (Double.zeros n).toList := by
  intro c hc
  rw [Double.zeros, String.toList_ofList] at hc
  rw [List.eq_of_mem_replicate hc]
  exact .inl rfl

theorem numeric_decimal (d : Double.Decimal) : Numeric d.text.toList := by
  have hdigits : Numeric (toString d.digits).toList := by
    rw [toList_toString]
    exact numeric_toDigits _
  have htake (n : Nat) : Numeric ((toString d.digits).toList.take n) :=
    fun c hc => hdigits c (List.mem_of_mem_take hc)
  have hdrop (n : Nat) : Numeric ((toString d.digits).toList.drop n) :=
    fun c hc => hdigits c (List.mem_of_mem_drop hc)
  have hmarks : ∀ s ∈ ["", ".", ".0", "0.", "e", "e+"], Numeric s.toList := by
    simp [Numeric, IsNumeric]
  simp only [List.forall_mem_cons] at hmarks
  obtain ⟨hnone, hpoint, hzero, hbelow, he, hplus, -⟩ := hmarks
  simp only [Double.Decimal.text]
  split_ifs <;> simp only [String.toList_append, String.toList_ofList]
  · exact (hdigits.append (numeric_zeros _)).append hzero
  · exact ((htake _).append hpoint).append (hdrop _)
  · exact (hbelow.append (numeric_zeros _)).append hdigits
  · exact (((htake _).append hnone).append hplus).append (numeric_toString_int _)
  · exact (((htake _).append hnone).append he).append (numeric_toString_int _)
  · exact (((htake _).append (hpoint.append (hdrop _))).append hplus).append
      (numeric_toString_int _)
  · exact (((htake _).append (hpoint.append (hdrop _))).append he).append (numeric_toString_int _)

theorem numeric_text : ∀ n : Number, Numeric n.text.toList
  | .whole n => numeric_toString_int n
  | .double d => by
    rw [Number.text, Double.text, String.toList_append]
    refine .append ?_ ?_
    · split <;> simp [Numeric, IsNumeric]
    · split
      · simp [Numeric, IsNumeric]
      · exact numeric_decimal _

end Bindery.Json
