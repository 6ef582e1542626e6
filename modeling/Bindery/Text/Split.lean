/-!
# Cutting texts

A text is cut at every separator, or once at the last one, and loses a given beginning or end.
-/

namespace Bindery.Text

/-- The pieces of a text between separators; one more than there are separators. -/
def pieces (sep : Char) (s : String) : List String := (s.toList.splitOn sep).map String.ofList

/-- What stands before and after the last separator. -/
def splitLast? (sep : Char) (cs : List Char) : Option (List Char × List Char) :=
  match cs.reverse.span (· ≠ sep) with
  | (after, _ :: before) => some (before.reverse, after.reverse)
  | (_, []) => none

/-- The text without the characters at its end that satisfy a test. -/
def trimEnd (p : Char → Bool) (cs : List Char) : List Char := (cs.reverse.dropWhile p).reverse

/-- The text without the characters at either end that satisfy a test. -/
def trim (p : Char → Bool) (cs : List Char) : List Char := trimEnd p (cs.dropWhile p)

/-- What follows a given beginning. -/
def after? (start s : String) : Option String :=
  (start.toList.isPrefixOf? s.toList).map String.ofList

/-- What precedes a given end. -/
def before? (ending s : String) : Option String :=
  (ending.toList.isSuffixOf? s.toList).map String.ofList

end Bindery.Text
