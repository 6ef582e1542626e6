/-!
# Lines and columns

A position in a text is given in bytes, or as a line and a column, both from zero and the column
in bytes. A position beyond the end lies on the last line.
-/

namespace Bindery

structure Position where
  line : Nat
  column : Nat
  deriving DecidableEq, Repr

namespace Position

/-- The position in lines of these sizes, a newline after each but the last. -/
def inLines : List Nat → Nat → Position
  | size :: next :: rest, offset =>
    if offset ≤ size then ⟨0, offset⟩
    else
      let p := inLines (next :: rest) (offset - size - 1)
      ⟨p.line + 1, p.column⟩
  | _, offset => ⟨0, offset⟩

/-- The line and column of a byte offset. -/
def ofOffset (source : String) (offset : Nat) : Position :=
  inLines ((source.toList.splitOn '\n').map fun l => (String.ofList l).utf8ByteSize) offset

end Position

end Bindery
