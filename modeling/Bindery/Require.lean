import Bindery.Name
import Bindery.Text.Blank

/-!
# What a source requires

`Require A B.`, with an optional `From P` before it and an optional `Import` or `Export` after
`Require`, names modules. Comments stand between `(*` and `*)`, nest, and count as a space; one
that is not closed runs to the end. A sentence ends at a dot before white space or at the end of
the text, so the dots inside a name do not end it.
-/

namespace Bindery

/-- A module that a source requires: its name, perhaps not in full, and where to look for it. -/
structure Requirement where
  origin : Logical
  name : Logical
  deriving DecidableEq, Repr

namespace Requirement

/-- The text outside of comments, inside so many of which it starts. -/
def stripComments : Nat → List Char → List Char
  | depth, '(' :: '*' :: r => stripComments (depth + 1) r
  | depth + 1, '*' :: ')' :: r => ' ' :: stripComments depth r
  | 0, c :: r => c :: stripComments 0 r
  | depth + 1, _ :: r => stripComments (depth + 1) r
  | _, [] => []

/-- The texts between the dots that end sentences; what follows the last is one of them. -/
def sentences : List Char → List (List Char)
  | [] => [[]]
  | c :: r =>
    if c = '.' ∧ r.head?.all Text.isPlainWhite then [] :: sentences r
    else (sentences r).modifyHead (c :: ·)

/-- The name that a word of a sentence gives, without parentheses around it. -/
def nameOfWord (word : String) : Logical :=
  .ofDotted (String.ofList (Text.trim (fun c => c = '(' ∨ c = ')') word.toList))

def ofNames (origin : Logical) (words : List String) : List Requirement :=
  (words.map nameOfWord).filter (· ≠ []) |>.map (⟨origin, ·⟩)

/-- The requirements of a sentence after its origin. -/
def afterOrigin (origin : Logical) : List String → List Requirement
  | "Require" :: "Import" :: r | "Require" :: "Export" :: r => ofNames origin r
  | "Require" :: r => ofNames origin r
  | _ => []

/-- The requirements that the words of a sentence state. -/
def ofWords : List String → List Requirement
  | ["From"] => []
  | "From" :: origin :: r => afterOrigin (.ofDotted origin) r
  | r => afterOrigin [] r

/-- The requirements of a source, in their order. -/
def parse (source : String) : List Requirement :=
  (sentences (stripComments 0 source.toList)).flatMap fun s =>
    ofWords ((Text.words s).map String.ofList)

def dotted (r : Requirement) : String := Logical.dotted (r.origin ++ r.name)

end Requirement

end Bindery
