/-!
# JSON text as written

The grammar of JSON: a text is read into a tree that keeps what the text says and judges none of
it. Numbers stay digits, escapes stay escapes, and an object keeps repeated keys in their order.
-/

namespace Bindery.Json

/-- A part of a string: a character, or the 16-bit unit of a `\u` escape. -/
inductive Glyph where
  | char (c : Char)
  | unit (n : Nat)
  deriving DecidableEq, Repr

/-- A number as written: its digits, and after an exponent mark the sign and digits of it. -/
structure Numeral where
  negative : Bool
  whole : List Nat
  fraction : Option (List Nat)
  exponent : Option (Bool × List Nat)
  deriving DecidableEq, Repr

inductive Raw where
  | null
  | bool (b : Bool)
  | num (n : Numeral)
  | str (s : List Glyph)
  | arr (items : List Raw)
  | obj (fields : List (List Glyph × Raw))
  deriving Repr, Inhabited

namespace Raw

def isBlank (c : Char) : Bool := c = ' ' || c = '\n' || c = '\t' || c = '\r'

def skip (cs : List Char) : List Char := cs.dropWhile isBlank

def hexValue (c : Char) : Option Nat :=
  if '0' ≤ c ∧ c ≤ '9' then some (c.toNat - '0'.toNat)
  else if 'a' ≤ c ∧ c ≤ 'f' then some (c.toNat - 'a'.toNat + 10)
  else if 'A' ≤ c ∧ c ≤ 'F' then some (c.toNat - 'A'.toNat + 10)
  else none

def hexUnit (a b c d : Char) : Option Nat := do
  return ((((← hexValue a) * 16 + (← hexValue b)) * 16 + (← hexValue c)) * 16 + (← hexValue d))

/-- The character that a backslash and this letter stand for. -/
def shortEscape (c : Char) : Option Char :=
  if c = '"' ∨ c = '\\' ∨ c = '/' then some c
  else if c = 'b' then some '\x08'
  else if c = 'f' then some '\x0c'
  else if c = 'n' then some '\n'
  else if c = 'r' then some '\r'
  else if c = 't' then some '\t'
  else none

/-- A string after its opening quote, up to its closing one. -/
def glyphs : List Char → Option (List Glyph × List Char)
  | [] => none
  | '"' :: r => some ([], r)
  | '\\' :: 'u' :: a :: b :: c :: d :: r => do
    let n ← hexUnit a b c d
    let (gs, r) ← glyphs r
    return (.unit n :: gs, r)
  | '\\' :: c :: r => do
    let e ← shortEscape c
    let (gs, r) ← glyphs r
    return (.char e :: gs, r)
  | c :: r => do
    if c < ' ' then none else
    let (gs, r) ← glyphs r
    return (.char c :: gs, r)

def digitValue (c : Char) : Option Nat :=
  if '0' ≤ c ∧ c ≤ '9' then some (c.toNat - '0'.toNat) else none

/-- The digits that a text starts with. -/
def digits : List Char → List Nat × List Char
  | [] => ([], [])
  | c :: r =>
    match digitValue c with
    | some d => let (ds, r) := digits r; (d :: ds, r)
    | none => ([], c :: r)

/-- One digit or more. -/
def digits1 (cs : List Char) : Option (List Nat × List Char) :=
  match digits cs with
  | ([], _) => none
  | (ds, r) => some (ds, r)

/-- A whole part is `0` alone or starts with another digit. -/
def wholePart (cs : List Char) : Option (List Nat × List Char) := do
  let (ds, r) ← digits1 cs
  if ds.head? = some 0 ∧ ds.length ≠ 1 then none else return (ds, r)

def fractionPart : List Char → Option (Option (List Nat) × List Char)
  | '.' :: r => do let (ds, r) ← digits1 r; return (some ds, r)
  | r => some (none, r)

/-- The sign of an exponent; true is minus. -/
def exponentSign : List Char → Bool × List Char
  | '-' :: r => (true, r)
  | '+' :: r => (false, r)
  | r => (false, r)

def exponentPart : List Char → Option (Option (Bool × List Nat) × List Char)
  | 'e' :: r | 'E' :: r => do
    let (negative, r) := exponentSign r
    let (ds, r) ← digits1 r
    return (some (negative, ds), r)
  | r => some (none, r)

def unsigned (negative : Bool) (cs : List Char) : Option (Numeral × List Char) := do
  let (whole, r) ← wholePart cs
  let (fraction, r) ← fractionPart r
  let (exponent, r) ← exponentPart r
  return (⟨negative, whole, fraction, exponent⟩, r)

def numeral : List Char → Option (Numeral × List Char)
  | '-' :: r => unsigned true r
  | r => unsigned false r

mutual

/-- A value, its nesting bounded by the first argument. -/
def value : Nat → List Char → Option (Raw × List Char)
  | 0, _ => none
  | n + 1, cs =>
    match skip cs with
    | 'n' :: 'u' :: 'l' :: 'l' :: r => some (.null, r)
    | 't' :: 'r' :: 'u' :: 'e' :: r => some (.bool true, r)
    | 'f' :: 'a' :: 'l' :: 's' :: 'e' :: r => some (.bool false, r)
    | '"' :: r => (glyphs r).map fun (s, r) => (.str s, r)
    | '[' :: r =>
      match skip r with
      | ']' :: r => some (.arr [], r)
      | r => (items n r).map fun (vs, r) => (.arr vs, r)
    | '\x7b' :: r =>
      match skip r with
      | '\x7d' :: r => some (.obj [], r)
      | r => (fields n r).map fun (fs, r) => (.obj fs, r)
    | r => (numeral r).map fun (m, r) => (.num m, r)

/-- The items of an array after its opening bracket, up to the closing one. -/
def items : Nat → List Char → Option (List Raw × List Char)
  | 0, _ => none
  | n + 1, cs => do
    let (v, r) ← value n cs
    match skip r with
    | ',' :: r => do let (vs, r) ← items n r; return (v :: vs, r)
    | ']' :: r => return ([v], r)
    | _ => none

/-- The fields of an object after its opening brace, up to the closing one. -/
def fields : Nat → List Char → Option (List (List Glyph × Raw) × List Char)
  | 0, _ => none
  | n + 1, cs =>
    match skip cs with
    | '"' :: r => do
      let (k, r) ← glyphs r
      match skip r with
      | ':' :: r => do
        let (v, r) ← value n r
        match skip r with
        | ',' :: r => do let (fs, r) ← fields n r; return ((k, v) :: fs, r)
        | '\x7d' :: r => return ([(k, v)], r)
        | _ => none
      | _ => none
    | _ => none

end

/-- The one value a text holds. A value and its first item or field start at one character, so
twice the length bounds the nesting. -/
def parse (text : String) : Option Raw :=
  let cs := text.toList
  match value (2 * cs.length + 2) cs with
  | some (v, r) => if skip r = [] then some v else none
  | none => none

end Raw

end Bindery.Json
