/-!
# Blank characters

`isWhite` is the Unicode property White_Space; `isPlainWhite` is its part that ends a sentence:
space, tab, line feed, form feed and carriage return.
-/

namespace Bindery.Text

/-- The ranges of the characters with the property White_Space. -/
def whiteRanges : List (Nat × Nat) :=
  [(0x09, 0x0D), (0x20, 0x20), (0x85, 0x85), (0xA0, 0xA0), (0x1680, 0x1680), (0x2000, 0x200A),
    (0x2028, 0x2029), (0x202F, 0x202F), (0x205F, 0x205F), (0x3000, 0x3000)]

def isWhite (c : Char) : Bool := whiteRanges.any fun r => r.1 ≤ c.toNat && c.toNat ≤ r.2

def isPlainWhite (c : Char) : Bool :=
  c = ' ' || c = '\t' || c = '\n' || c = '\x0c' || c = '\r'

theorem isWhite_of_isPlainWhite {c : Char} (h : isPlainWhite c = true) : isWhite c = true := by
  simp only [isPlainWhite, Bool.or_eq_true, decide_eq_true_eq] at h
  rcases h with (((rfl | rfl) | rfl) | rfl) | rfl <;> decide

/-- The words of a text: its longest parts without white space. -/
def words (cs : List Char) : List (List Char) := (cs.splitOnP isWhite).filter (· ≠ [])

end Bindery.Text
