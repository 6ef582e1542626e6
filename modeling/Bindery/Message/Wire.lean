import Bindery.Json.Print
import Bindery.Message.Basic
import Bindery.Text.Base64
import Bindery.Text.Split

/-!
# Messages in JSON

A message is an array that starts with its tag; bytes are written in base64. Arguments after those
that a message needs are ignored, and a tag that no reply has is read as other traffic.
-/

namespace Bindery

/-- Why a message is not accepted. -/
inductive MessageFault where
  | undecodable (value : Json)
  | payload
  | frameTooLarge (size : Nat)
  deriving DecidableEq

namespace MessageFault

/-- The longest start of a text that has at most so many bytes. -/
def takeBytes : Nat → List Char → List Char
  | _, [] => []
  | n, c :: r => if c.utf8Size ≤ n then c :: takeBytes (n - c.utf8Size) r else []

/-- The longest text of a value that is quoted in full. -/
def excerptLimit : Nat := 200

/-- The text of a value, cut short if it is long. -/
def excerpt (v : Json) : String :=
  let text := v.compress
  if text.utf8ByteSize ≤ excerptLimit then text
  else String.ofList (takeBytes excerptLimit text.toList) ++ "..."

def message : MessageFault → String
  | .undecodable v => excerpt v
  | .payload => "invalid byte payload: not base64"
  | .frameTooLarge size => "frame too large: " ++ toString size ++ " bytes"

end MessageFault

namespace Wire

def ofBytes (content : ByteArray) : Json := .str (String.ofList (Base64.encode content.data.toList))

/-- The tag of a message and its arguments. -/
def split (v : Json) : Except MessageFault (String × List Json) :=
  match v with
  | .arr (.str tag :: args) => .ok (tag, args)
  | _ => .error (.undecodable v)

/-- An argument that is a string. -/
def text (v : Json) (args : List Json) (i : Nat) : Except MessageFault String :=
  match args[i]? with
  | some (.str s) => .ok s
  | _ => .error (.undecodable v)

/-- An argument that is a string of base64. -/
def bytes (v : Json) (args : List Json) (i : Nat) : Except MessageFault ByteArray := do
  match Base64.decode? (← text v args i).toList with
  | some bs => return ⟨bs.toArray⟩
  | none => throw .payload

end Wire

namespace Command

def tagText : Command → String
  | .init _ => "Init"
  | .put _ _ => "Put"
  | .load _ => "Load"
  | .compile _ => "Compile"
  | .get _ => "Get"
  | .loadPackages _ => "LoadPkg"

def args : Command → List Json
  | .init top => [.obj [("top_name", .str top)]]
  | .put path content => [.str path, Wire.ofBytes content]
  | .load path | .compile path | .get path => [.str path]
  | .loadPackages names => [.ofStrings names]

def toJson (c : Command) : Json := .arr (.str c.tagText :: c.args)

/-- The name of the module that an argument sets. -/
def topName? (arg : Option Json) : Option String :=
  ((arg.bind (·.field? "top_name")).bind (·.str?))

/-- The strings of an argument that is an array of strings. -/
def names? (arg : Option Json) : Option (List String) := do
  (← (← arg).arr?).mapM Json.str?

def ofJson (v : Json) : Except MessageFault Command := do
  let (tag, args) ← Wire.split v
  match tag with
  | "Init" =>
    match topName? args.head? with
    | some top => return .init top
    | none => throw (.undecodable v)
  | "Put" => return .put (← Wire.text v args 0) (← Wire.bytes v args 1)
  | "Load" => return .load (← Wire.text v args 0)
  | "Compile" => return .compile (← Wire.text v args 0)
  | "Get" => return .get (← Wire.text v args 0)
  | "LoadPkg" =>
    match names? args.head? with
    | some names => return .loadPackages names
    | none => throw (.undecodable v)
  | _ => throw (.undecodable v)

end Command

namespace Span

/-- The file of a place: a string, or the second element of an array. -/
def file? : Json → Option String
  | .str s => some s
  | .arr items => items[1]?.bind Json.str?
  | _ => none

def ofJson? (v : Json) : Option Span := do
  let file ← file? (← v.field? "fname")
  let start ← (← v.field? "bp").nat?
  let stop ← (← v.field? "ep").nat?
  return ⟨file, start, stop⟩

def toJson (s : Span) : Json :=
  .obj [("bp", .ofNat s.start), ("ep", .ofNat s.stop),
    ("fname", .arr [.str "InFile", .str s.file])]

end Span

namespace Reply

mutual

/-- The text in a pretty-printing tree: its strings but for the names of its nodes. -/
def flatten : Json → String
  | .str s => if (Text.after? "Pp_" s).isSome then "" else s
  | .arr items => flattenItems items
  | _ => ""

def flattenItems : List Json → String
  | [] => ""
  | v :: r => flatten v ++ flattenItems r

end

/-- The failure with this place and text. -/
def ofFailure (span : Option Span) (message : String) : Reply :=
  .compilerFailure ⟨span, message,
    .arr [.str "CoqExn", (span.map Span.toJson).getD .null, .null,
      .arr [.str "Pp_string", .str message]]⟩

def toJson : Reply → Json
  | .loaded path => .arr [.str "Loaded", .str path]
  | .compiled path => .arr [.str "Compiled", .str path]
  | .got path content => .arr [.str "Got", .str path, Wire.ofBytes content]
  | .packagesLoaded => .arr [.str "LoadedPkg"]
  | .jsonFailure payload => .arr [.str "JsonExn", payload]
  | .compilerFailure failure => failure.raw
  | .other tag args => .arr (.str tag :: args)

def ofJson (v : Json) : Except MessageFault Reply := do
  let (tag, args) ← Wire.split v
  match tag with
  | "Loaded" => return .loaded (← Wire.text v args 0)
  | "Compiled" => return .compiled (← Wire.text v args 0)
  | "Got" => return .got (← Wire.text v args 0) (← Wire.bytes v args 1)
  | "LoadedPkg" => return .packagesLoaded
  | "JsonExn" => return .jsonFailure (args.head?.getD .null)
  | "CoqExn" =>
    return .compilerFailure ⟨args.head?.bind Span.ofJson?, (args[2]?.map flatten).getD "", v⟩
  | _ => return .other tag args

/-- A message that is no reply, kept as other traffic. -/
def untyped : Json → Reply
  | .arr (tag :: args) => .other (tag.str?.getD "") args
  | v => .other "" [v]

/-- What a remote has sent: a reply, or else other traffic. -/
def receive (v : Json) : Reply :=
  match ofJson v with
  | .ok r => r
  | .error _ => untyped v

def Tag.name : Tag → String
  | .loaded => "Loaded"
  | .compiled => "Compiled"
  | .got => "Got"
  | .packagesLoaded => "LoadedPkg"
  | .jsonFailure => "JsonExn"
  | .compilerFailure => "CoqExn"
  | .other => "Other"

def Tag.all : List Tag :=
  [.loaded, .compiled, .got, .packagesLoaded, .jsonFailure, .compilerFailure, .other]

def Tag.ofName? (name : String) : Option Tag := Tag.all.find? (·.name = name)

def describe : Reply → String
  | .compilerFailure ⟨some span, message, _⟩ => "CoqExn at " ++ span.file ++ ": " ++ message
  | .compilerFailure ⟨none, message, _⟩ => "CoqExn: " ++ message
  | .jsonFailure payload => "JsonExn: " ++ payload.compress
  | r => r.tag.name

end Reply

end Bindery
