import Bindery.Json.Basic
import Bindery.Json.Raw

/-!
# Reading JSON values

A tree as written becomes a value: numbers are evaluated, the two halves of a surrogate pair are
joined, repeated keys are reduced to their last, and the nesting is limited. A whole number keeps
the digits that fit 64 bits as its significand; further digits before the point raise the power of
ten, further digits after it are dropped.
-/

namespace Bindery.Json

/-- Why a text or a tree is not what is asked for. -/
inductive Fault where
  | grammar
  | surrogate
  | range
  | depth
  | kind (expected : String)
  | missing (field : String)
  | repeated (field : String)
  | surplus
  deriving DecidableEq, Repr

def Fault.message : Fault → String
  | .grammar => "not a JSON text"
  | .surrogate => "unpaired surrogate escape"
  | .range => "number out of range"
  | .depth => "nesting too deep"
  | .kind expected => "expected " ++ expected
  | .missing field => "missing field '" ++ field ++ "'"
  | .repeated field => "repeated field '" ++ field ++ "'"
  | .surplus => "too many elements"

/-- The deepest nesting of arrays and objects that is read. -/
def nestingLimit : Nat := 127

def isHighSurrogate (n : Nat) : Bool := 0xD800 ≤ n && n < 0xDC00

def isLowSurrogate (n : Nat) : Bool := 0xDC00 ≤ n && n < 0xE000

/-- The characters of a string; none if half of a surrogate pair stands alone. -/
def chars : List Glyph → Option (List Char)
  | [] => some []
  | .char c :: r => (chars r).map (c :: ·)
  | .unit n :: .unit m :: r =>
    if isHighSurrogate n then
      if isLowSurrogate m then
        (chars r).map (Char.ofNat (0x10000 + (n - 0xD800) * 0x400 + (m - 0xDC00)) :: ·)
      else none
    else if isLowSurrogate n then none
    else (chars (.unit m :: r)).map (Char.ofNat n :: ·)
  | .unit n :: r =>
    if isHighSurrogate n ∨ isLowSurrogate n then none else (chars r).map (Char.ofNat n :: ·)

def readString (s : List Glyph) : Except Fault String :=
  match chars s with
  | some cs => .ok (String.ofList cs)
  | none => .error .surrogate

/-- Takes digits into a significand while it fits 64 bits; the digits left over come second. -/
def significand (n : Nat) : List Nat → Nat × List Nat
  | [] => (n, [])
  | d :: ds => if n * 10 + d < Nat.pow 2 64 then significand (n * 10 + d) ds else (n, d :: ds)

/-- The value of a numeral; none if it lies beyond the greatest double. -/
def Numeral.number? (n : Numeral) : Option Number :=
  let (s, left) := significand 0 n.whole
  match n.fraction, n.exponent, left with
  | none, none, [] =>
    if n.negative then
      if s = 0 ∨ Nat.pow 2 63 < s then (Double.round true s 1).map .double else some (.whole (-s))
    else some (.whole s)
  | fraction, exponent, left =>
    let fraction := fraction.getD []
    let (s, dropped) := significand s fraction
    let power : Int := match exponent with
      | some (true, ds) => -(ds.foldl (fun n d => n * 10 + d) 0 : Nat)
      | some (false, ds) => (ds.foldl (fun n d => n * 10 + d) 0 : Nat)
      | none => 0
    let e : Int := (left.length : Int) - (fraction.length - dropped.length : Nat) + power
    ((Double.round n.negative s 1).bind (·.scale e)).map .double

mutual

/-- The value of a tree that nests at most so many arrays and objects. -/
def Raw.read (depth : Nat) : Raw → Except Fault Json
  | .null => .ok .null
  | .bool b => .ok (.bool b)
  | .num n =>
    match n.number? with
    | some v => .ok (.num v)
    | none => .error .range
  | .str s => (readString s).map .str
  | .arr items =>
    if depth = 0 then .error .depth else (Raw.readItems (depth - 1) items).map .arr
  | .obj fields =>
    if depth = 0 then .error .depth else (Raw.readFields (depth - 1) fields).map ofFields

def Raw.readItems (depth : Nat) : List Raw → Except Fault (List Json)
  | [] => .ok []
  | v :: r => do
    let v ← Raw.read depth v
    return v :: (← Raw.readItems depth r)

def Raw.readFields (depth : Nat) : List (List Glyph × Raw) → Except Fault (List (String × Json))
  | [] => .ok []
  | (k, v) :: r => do
    let k ← readString k
    let v ← Raw.read depth v
    return (k, v) :: (← Raw.readFields depth r)

end

def parseNested (depth : Nat) (text : String) : Except Fault Json :=
  match Raw.parse text with
  | some r => r.read depth
  | none => .error .grammar

/-- The value a text holds. -/
def parse (text : String) : Except Fault Json := parseNested nestingLimit text

end Bindery.Json
