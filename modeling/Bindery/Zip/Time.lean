/-!
# Times in archives

An archive keeps the time of a member as a date and a time of 16 bits each, from 1980 to 2107 and in
steps of two seconds.
-/

namespace Bindery.Zip

structure Time where
  year : Nat
  month : Nat
  day : Nat
  hour : Nat
  minute : Nat
  second : Nat
  deriving DecidableEq, Repr

namespace Time

def isLeap (year : Nat) : Bool := year % 4 = 0 && (year % 100 ≠ 0 || year % 400 = 0)

def daysIn (year month : Nat) : Nat :=
  if month = 2 then (if isLeap year then 29 else 28)
  else if month ∈ [4, 6, 9, 11] then 30
  else 31

/-- Whether the time can be kept: a day of the calendar in the range of years, a leap second
allowed. -/
def IsValid (t : Time) : Prop :=
  1980 ≤ t.year ∧ t.year ≤ 2107 ∧ 1 ≤ t.month ∧ t.month ≤ 12 ∧ 1 ≤ t.day ∧
    t.day ≤ daysIn t.year t.month ∧ t.hour ≤ 23 ∧ t.minute ≤ 59 ∧ t.second ≤ 60

instance (t : Time) : Decidable t.IsValid := by unfold IsValid; infer_instance

/-- The date as a number of 16 bits. -/
def dateField (t : Time) : Nat := (t.year - 1980) * 512 + t.month * 32 + t.day

/-- The time of day as a number of 16 bits. The last seconds of a minute are not told apart. -/
def clockField (t : Time) : Nat := t.hour * 2048 + t.minute * 32 + min t.second 58 / 2

def ofFields (date clock : Nat) : Time where
  year := 1980 + date / 512
  month := date / 32 % 16
  day := date % 32
  hour := clock / 2048
  minute := clock / 32 % 64
  second := clock % 32 * 2

/-- What reading gives back of a time that was written. -/
def kept (t : Time) : Time := { t with second := min t.second 58 / 2 * 2 }

theorem ofFields_fields {t : Time} (h : t.IsValid) : ofFields t.dateField t.clockField = t.kept := by
  obtain ⟨h1, h2, h3, h4, h5, h6, h7, h8, h9⟩ := h
  have hd : t.day ≤ 31 := by
    unfold daysIn at h6
    split at h6
    · split at h6 <;> omega
    · split at h6 <;> omega
  simp only [ofFields, dateField, clockField, kept, mk.injEq]
  refine ⟨?_, ?_, ?_, ?_, ?_, ?_⟩ <;> omega

/-- The text by which an error names a time. -/
def text (t : Time) : String :=
  "PinnedTime \x7b year: " ++ toString t.year ++ ", month: " ++ toString t.month ++ ", day: "
    ++ toString t.day ++ ", hour: " ++ toString t.hour ++ ", minute: " ++ toString t.minute
    ++ ", second: " ++ toString t.second ++ " \x7d"

end Time

end Bindery.Zip
