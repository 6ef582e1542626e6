/-!
# Double precision numbers

A double is kept as a whole number times a power of two, so that rounding and printing are exact
arithmetic on naturals. `round` takes a fraction to the nearest double, a tie going to the even
significand; `scale` reads a decimal significand with a power of ten, rounding once for the
significand, once for the power and once for their product or quotient; `text` prints the fewest
digits that read back.
-/

namespace Bindery.Json

/-- The number `± mantissa * 2 ^ exponent`. Either the mantissa has 53 bits or the exponent is
the least one, -1074. -/
structure Double where
  negative : Bool
  mantissa : Nat
  exponent : Int
  deriving DecidableEq, Repr, Inhabited

namespace Double

def leastExponent : Int := -1074

def greatestExponent : Int := 971

def zero (negative : Bool) : Double := ⟨negative, 0, leastExponent⟩

/-- `n * 2 ^ e` as a fraction of naturals. -/
def binaryFraction (n : Nat) (e : Int) : Nat × Nat := (n * Nat.pow 2 e.toNat, Nat.pow 2 (-e).toNat)

/-- The whole number nearest to a fraction, a tie going to the even one. -/
def nearest (num den : Nat) : Nat :=
  let q := num / den
  let r := num % den
  if 2 * r < den then q else if den < 2 * r then q + 1 else q + q % 2

/-- The double nearest to `num / den`, or none if that is beyond the greatest one. -/
def round (negative : Bool) (num den : Nat) : Option Double :=
  if num = 0 then some (zero negative) else
  let magnitude : Int := (Nat.log2 num : Int) - Nat.log2 den
  let shifted (e : Int) : Nat × Nat := (num * Nat.pow 2 (-e).toNat, den * Nat.pow 2 e.toNat)
  let low := max (magnitude - 53) leastExponent
  let e := if Nat.pow 2 53 ≤ (shifted low).1 / (shifted low).2 then low + 1 else low
  let m := nearest (shifted e).1 (shifted e).2
  let (m, e) := if m = Nat.pow 2 53 then (Nat.pow 2 52, e + 1) else (m, e)
  if greatestExponent < e then none else some ⟨negative, m, e⟩

/-- The double nearest to `10 ^ k`. -/
def powerOfTen (k : Nat) : Double := (round false (Nat.pow 10 k) 1).getD (zero false)

def mul (a b : Double) : Option Double :=
  let (num, den) := binaryFraction (a.mantissa * b.mantissa) (a.exponent + b.exponent)
  round a.negative num den

def div (a b : Double) : Option Double :=
  let (num, den) := binaryFraction a.mantissa (a.exponent - b.exponent)
  round a.negative num (den * b.mantissa)

/-- The greatest power of ten that is a double. -/
def greatestPower : Nat := 308

/-- `a * 10 ^ e`. Powers of ten below the least are divided out in steps of the greatest one;
a number that grows beyond the greatest double has no value. -/
def scale (a : Double) (e : Int) : Option Double :=
  if e.natAbs ≤ greatestPower then
    if 0 ≤ e then a.mul (powerOfTen e.natAbs) else a.div (powerOfTen e.natAbs)
  else if a.mantissa = 0 then some a
  else if 0 ≤ e then none
  else
    match a.div (powerOfTen greatestPower) with
    | none => none
    | some b => scale b (e + greatestPower)
termination_by e.natAbs
decreasing_by simp only [greatestPower] at *; omega

/-- A decimal significand and exponent: `digits * 10 ^ exponent`. -/
structure Decimal where
  digits : Nat
  exponent : Int
  deriving DecidableEq, Repr

/-- The numbers that round to a double: its neighbours' midpoints, in quarters of its unit. The
lower midpoint is nearer below a power of two. -/
structure Interval where
  low : Nat
  high : Nat
  closed : Bool

def interval (a : Double) : Interval :=
  let near := a.mantissa = Nat.pow 2 52 ∧ leastExponent < a.exponent
  ⟨4 * a.mantissa - (if near then 1 else 2), 4 * a.mantissa + 2, a.mantissa % 2 = 0⟩

/-- Whether `num / den` quarters of the unit lie in the interval. -/
def Interval.contains (i : Interval) (num den : Nat) : Bool :=
  if i.closed then i.low * den ≤ num && num ≤ i.high * den
  else i.low * den < num && num < i.high * den

/-- A point of the decimal grid with unit `10 ^ j` in quarters of the double's unit. -/
def gridPoint (a : Double) (d : Nat) (j : Int) : Nat × Nat :=
  let e := a.exponent - 2
  (d * Nat.pow 10 j.toNat * Nat.pow 2 (-e).toNat, Nat.pow 10 (-j).toNat * Nat.pow 2 e.toNat)

/-- The number of digits before the point: the least `k` with the number below `10 ^ k`. It is
looked for from a guess not above it. -/
def magnitude (a : Double) : Int :=
  let guess : Int := ((Nat.log2 a.mantissa : Int) + a.exponent) * 1233 / 4096 - 1
  let below (k : Int) : Bool :=
    let (num, den) := a.gridPoint 1 k
    4 * a.mantissa * den < num
  if below guess then guess
  else if below (guess + 1) then guess + 1
  else if below (guess + 2) then guess + 2
  else guess + 3

/-- The number in units of `10 ^ j`: quotient, remainder and divisor. -/
def inUnits (a : Double) (j : Int) : Nat × Nat × Nat :=
  let (num, den) := a.gridPoint 1 j
  let value := 4 * a.mantissa * den
  (value / num, value % num, num)

/-- The decimal of `count` digits that reads back as the number, if there is one; of two the
nearer, of two as near the even one. -/
def withDigits? (a : Double) (count : Nat) : Option Decimal :=
  let j := a.magnitude - count
  let (d, r, u) := a.inUnits j
  let hit (d : Nat) : Bool :=
    let (num, den) := a.gridPoint d j
    a.interval.contains num den
  match hit d, hit (d + 1) with
  | false, false => none
  | true, false => some ⟨d, j⟩
  | false, true => some ⟨d + 1, j⟩
  | true, true => some ⟨if 2 * r < u then d else if u < 2 * r then d + 1 else d + d % 2, j⟩

/-- The fewest digits that read back; seventeen always do. -/
def shortest (a : Double) : Decimal :=
  match (List.range 17).findSome? fun n => a.withDigits? (n + 1) with
  | some d => if d.digits % 10 = 0 then ⟨d.digits / 10, d.exponent + 1⟩ else d
  | none => ⟨0, 0⟩

def zeros (n : Nat) : String := String.ofList (List.replicate n '0')

/-- The text of a positive decimal: with a point from `1e-5` up to below `1e16`, else with a
signed exponent; there is always a fraction or an exponent. -/
def Decimal.text (d : Decimal) : String :=
  let ds := toString d.digits
  let len : Int := ds.length
  let point := len + d.exponent
  if 0 ≤ d.exponent ∧ point ≤ 16 then ds ++ zeros d.exponent.toNat ++ ".0"
  else if 0 < point ∧ point ≤ 16 then
    String.ofList (ds.toList.take point.toNat) ++ "." ++ String.ofList (ds.toList.drop point.toNat)
  else if -5 < point ∧ point ≤ 0 then "0." ++ zeros (-point).toNat ++ ds
  else
    let fraction := String.ofList (ds.toList.drop 1)
    String.ofList (ds.toList.take 1) ++ (if fraction = "" then "" else "." ++ fraction)
      ++ (if 0 < point then "e+" else "e") ++ toString (point - 1)

def text (a : Double) : String :=
  (if a.negative then "-" else "") ++ (if a.mantissa = 0 then "0.0" else a.shortest.text)

end Double

end Bindery.Json
