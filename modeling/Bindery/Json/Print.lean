import Bindery.Json.Basic

/-!
# JSON text on one line

Strings escape the quote, the backslash and the control characters; numbers are digits or the
shortest text of a double.
-/

namespace Bindery.Json

def hexDigit (n : Nat) : Char := "0123456789abcdef".toList.getD n '0'

/-- A character inside a JSON string. -/
def escape (c : Char) : List Char :=
  if c = '"' then ['\\', '"']
  else if c = '\\' then ['\\', '\\']
  else if c = '\x08' then ['\\', 'b']
  else if c = '\x0c' then ['\\', 'f']
  else if c = '\n' then ['\\', 'n']
  else if c = '\r' then ['\\', 'r']
  else if c = '\t' then ['\\', 't']
  else if c < ' ' then ['\\', 'u', '0', '0', hexDigit (c.toNat / 16), hexDigit (c.toNat % 16)]
  else [c]

def quote (s : String) : String := String.ofList ('"' :: s.toList.flatMap escape ++ ['"'])

def Number.text : Number → String
  | .whole n => toString n
  | .double d => d.text

mutual

/-- The text of a value without blanks. -/
def compress : Json → String
  | .null => "null"
  | .bool b => if b then "true" else "false"
  | .num n => n.text
  | .str s => quote s
  | .arr items => "[" ++ ",".intercalate (compressItems items) ++ "]"
  | .obj fields => "\x7b" ++ ",".intercalate (compressFields fields) ++ "\x7d"

def compressItems : List Json → List String
  | [] => []
  | v :: r => compress v :: compressItems r

def compressFields : List (String × Json) → List String
  | [] => []
  | (k, v) :: r => (quote k ++ ":" ++ compress v) :: compressFields r

end

end Bindery.Json
