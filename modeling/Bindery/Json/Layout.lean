import Bindery.Json.Print

/-!
# JSON text over several lines

An array or object stays on the line on which it starts if it ends within the wrap column there,
counted in bytes and without a comma after it; otherwise each of its members has a line of its own,
indented by two more spaces. `lines` gives the text line by line.
-/

namespace Bindery.Json

/-- Spaces inside brackets, after colons and after commas, and the column to stay within. -/
structure Layout where
  padding : Nat := 1
  afterColon : Nat := 1
  afterComma : Nat := 1
  wrap : Nat := 80
  deriving DecidableEq, Repr, Inhabited

namespace Layout

def spaces (n : Nat) : String := String.ofList (List.replicate n ' ')

def indent (depth : Nat) : String := spaces (2 * depth)

/-- A key with its colon and the spaces after it. -/
def label (l : Layout) (key : String) : String := quote key ++ ":" ++ spaces l.afterColon

def enclose (l : Layout) (opening closing : String) (members : List String) : String :=
  if members = [] then opening ++ closing
  else opening ++ spaces l.padding ++ ("," ++ spaces l.afterComma).intercalate members
    ++ spaces l.padding ++ closing

mutual

/-- The text of a value on one line. -/
def inline (l : Layout) : Json → String
  | .arr items => l.enclose "[" "]" (inlineItems l items)
  | .obj fields => l.enclose "\x7b" "\x7d" (inlineFields l fields)
  | v => v.compress

def inlineItems (l : Layout) : List Json → List String
  | [] => []
  | v :: r => inline l v :: inlineItems l r

def inlineFields (l : Layout) : List (String × Json) → List String
  | [] => []
  | (k, v) :: r => (l.label k ++ inline l v) :: inlineFields l r

end

/-- Whether a text ends within the wrap column when it follows another on its line. -/
def fits (l : Layout) (lead text : String) : Bool :=
  lead.utf8ByteSize + text.utf8ByteSize ≤ l.wrap

mutual

/-- The lines of a value that follows `lead` on its first line and is followed by `trail`. -/
def lines (l : Layout) (depth : Nat) (lead trail : String) : Json → List String
  | .arr items =>
    if items = [] ∨ l.fits lead (l.inline (.arr items)) then
      [lead ++ l.inline (.arr items) ++ trail]
    else (lead ++ "[") :: itemLines l (depth + 1) items ++ [indent depth ++ "]" ++ trail]
  | .obj fields =>
    if fields = [] ∨ l.fits lead (l.inline (.obj fields)) then
      [lead ++ l.inline (.obj fields) ++ trail]
    else (lead ++ "\x7b") :: fieldLines l (depth + 1) fields ++ [indent depth ++ "\x7d" ++ trail]
  | v => [lead ++ l.inline v ++ trail]

def itemLines (l : Layout) (depth : Nat) : List Json → List String
  | [] => []
  | v :: r =>
    lines l depth (indent depth) (if r = [] then "" else ",") v ++ itemLines l depth r

def fieldLines (l : Layout) (depth : Nat) : List (String × Json) → List String
  | [] => []
  | (k, v) :: r =>
    lines l depth (indent depth ++ l.label k) (if r = [] then "" else ",") v
      ++ fieldLines l depth r

end

/-- The text of a value, its lines joined by newlines. -/
def text (l : Layout) (v : Json) : String := "\n".intercalate (l.lines 0 "" "" v)

end Layout

end Bindery.Json
