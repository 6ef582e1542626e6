import Bindery.Proofs.MessageText
import Bindery.Proofs.PathText

/-!
# Messages that are read again

What is read from a message is read from its own JSON just so, whatever more the message carried:
`Reply.ofJson_again`. A reply that is read keeps the message of a failure, which says all that is
read of it, and other traffic has a tag that no other reply has: `Reply.IsRead`.

The text of a failure is put together of the strings in its tree but for those that start like the
name of a node, `Reply.flatten_eq_textOf`. So a failure that is made of a place and a text is read
with its place, and with its text just if the text does not start so: `Reply.ofJson_ofFailure_iff`.
-/

namespace Bindery

theorem Wire.split_eq_ok {v : Json} {tag : String} {args : List Json}
    (h : split v = .ok (tag, args)) : v = .arr (.str tag :: args) := by
  unfold split at h
  split at h
  · cases h
    rfl
  · cases h

namespace Reply

/-- The tags of the messages that are more than other traffic. -/
def ownTags : List String := (Tag.all.filter (· ≠ .other)).map Tag.name

/-- The reply is one that some message is read as. -/
def IsRead : Reply → Prop
  | .compilerFailure failure => ∃ args : List Json, failure =
    ⟨args.head?.bind Span.ofJson?, (args[2]?.map flatten).getD "", .arr (.str "CoqExn" :: args)⟩
  | .other tag _ => tag ∉ ownTags
  | _ => True

theorem ofJson_other {tag : String} (h : tag ∉ ownTags) (args : List Json) :
    ofJson (.arr (.str tag :: args)) = .ok (.other tag args) := by
  have hsplit : Wire.split (.arr (.str tag :: args)) = .ok (tag, args) := rfl
  simp only [ofJson, hsplit, bind, Except.bind]
  split
  case h_7 => rfl
  all_goals exact absurd (by decide) h

theorem ofJson_toJson {r : Reply} (h : r.IsRead) : ofJson r.toJson = .ok r := by
  cases r with
  | loaded path => rfl
  | compiled path => rfl
  | got path content =>
    have hbytes : Wire.bytes (toJson (.got path content)) [.str path, Wire.ofBytes content] 1
        = .ok content := Wire.bytes_ofBytes rfl
    have hread : ofJson (toJson (.got path content))
        = (Wire.bytes (toJson (.got path content)) [.str path, Wire.ofBytes content] 1).map
          (Reply.got path) := rfl
    rw [hread, hbytes]
    rfl
  | packagesLoaded => rfl
  | jsonFailure payload => rfl
  | compilerFailure failure =>
    obtain ⟨args, rfl⟩ := h
    rfl
  | other tag args => exact ofJson_other h args

theorem isRead_of_bind {α : Type} {x : Except MessageFault α}
    {f : α → Except MessageFault Reply} {r : Reply} (h : x >>= f = .ok r)
    (hf : ∀ a, x = .ok a → f a = .ok r → r.IsRead) : r.IsRead := by
  rcases x with e | a
  · cases h
  · exact hf a rfl h

theorem isRead_of_ofJson {v : Json} {r : Reply} (h : ofJson v = .ok r) : r.IsRead := by
  refine isRead_of_bind h ?_
  rintro ⟨tag, args⟩ hsplit hr
  dsimp only at hr
  split at hr
  -- A case for each tag that is looked for, in order, and the last for other traffic.
  case h_1 | h_2 =>
    refine isRead_of_bind hr fun path _ hpath => ?_
    cases hpath
    trivial
  case h_3 =>
    refine isRead_of_bind hr fun path _ hpath => isRead_of_bind hpath fun content _ hcontent => ?_
    cases hcontent
    trivial
  case h_4 | h_5 =>
    cases hr
    trivial
  case h_6 =>
    cases hr
    refine ⟨args, ?_⟩
    rw [Wire.split_eq_ok hsplit]
  case h_7 hloaded hcompiled hgot hpackages hjson hfailure =>
    cases hr
    have htags : ownTags = ["Loaded", "Compiled", "Got", "LoadedPkg", "JsonExn", "CoqExn"] := rfl
    simp only [IsRead, htags, List.mem_cons, List.not_mem_nil, or_false, not_or]
    exact ⟨hloaded, hcompiled, hgot, hpackages, hjson, hfailure⟩

/-- What is read from a message, as a reply or as a command, is read again from its own JSON. -/
theorem ofJson_again (v : Json) :
    (∀ r, Reply.ofJson v = .ok r → Reply.ofJson r.toJson = .ok r)
      ∧ ∀ c, Command.ofJson v = .ok c → Command.ofJson c.toJson = .ok c :=
  ⟨fun _ h => ofJson_toJson (isRead_of_ofJson h), fun c _ => c.ofJson_toJson⟩

/-- A failure at a place that does not start anywhere, with an argument too many. -/
def oddFailure : Json :=
  .arr [.str "CoqExn",
    .obj [("bp", .num (.whole (-1))), ("ep", .ofNat 2), ("fname", .str "/lib/A.v")],
    .bool true, .arr [.str "Pp_string", .arr [.str "oops", .null]], .str "more"]

/-- A command with an argument too many. -/
def longCommand : Json := .arr [.str "Put", .str "/lib/A.v", .str "AP8=", .arr [.null]]

theorem ofJson_again_odd :
    Reply.ofJson oddFailure = .ok (.compilerFailure ⟨none, "oops", oddFailure⟩)
      ∧ Reply.ofJson (toJson (.compilerFailure ⟨none, "oops", oddFailure⟩))
        = .ok (.compilerFailure ⟨none, "oops", oddFailure⟩)
      ∧ Command.ofJson longCommand = .ok (.put "/lib/A.v" ⟨#[0, 255]⟩)
      ∧ Command.ofJson (Command.put "/lib/A.v" ⟨#[0, 255]⟩).toJson
        = .ok (.put "/lib/A.v" ⟨#[0, 255]⟩) := by
  have hreply : Reply.ofJson oddFailure = .ok (.compilerFailure ⟨none, "oops", oddFailure⟩) := by
    decide +kernel
  have hcommand : Command.ofJson longCommand = .ok (.put "/lib/A.v" ⟨#[0, 255]⟩) := by
    decide +kernel
  exact ⟨hreply, (ofJson_again oddFailure).1 _ hreply, hcommand,
    (ofJson_again longCommand).2 _ hcommand⟩

mutual

/-- The strings in a tree, from left to right. -/
def leaves : Json → List String
  | .str s => [s]
  | .arr items => leavesOfItems items
  | _ => []

def leavesOfItems : List Json → List String
  | [] => []
  | v :: r => leaves v ++ leavesOfItems r

end

/-- Whether a string starts like the name of a node. -/
def isNodeName (s : String) : Bool := (Text.after? "Pp_" s).isSome

theorem isNodeName_iff {s : String} : isNodeName s = true ↔ ∃ rest, s = "Pp_" ++ rest := by
  rw [isNodeName, Option.isSome_iff_exists]
  simp only [Text.after?_eq_some]

/-- The strings that count as text, put together. -/
def textOf (strings : List String) : String := .join (strings.filter (!isNodeName ·))

theorem textOf_append (xs ys : List String) : textOf (xs ++ ys) = textOf xs ++ textOf ys := by
  rw [textOf, List.filter_append, String.join_append]
  rfl

mutual

theorem flatten_eq_textOf : ∀ v : Json, flatten v = textOf (leaves v)
  | .str s => by
    show (if isNodeName s = true then "" else s) = textOf [s]
    cases h : isNodeName s <;> simp [textOf, h]
  | .arr items => by
    rw [flatten, leaves, flattenItems_eq_textOf items]
  | .null | .bool _ | .num _ | .obj _ => rfl

theorem flattenItems_eq_textOf : ∀ items : List Json,
    flattenItems items = textOf (leavesOfItems items)
  | [] => rfl
  | v :: r => by
    rw [flattenItems, leavesOfItems, textOf_append, flatten_eq_textOf v, flattenItems_eq_textOf r]

end

theorem ofJson?_place (span : Option Span) :
    Span.ofJson? ((span.map Span.toJson).getD .null) = span := by
  cases span <;> rfl

theorem flatten_string (message : String) :
    flatten (.arr [.str "Pp_string", .str message]) = textOf [message] := by
  have hnode : isNodeName "Pp_string" = true := by decide
  simp [flatten_eq_textOf, leaves, leavesOfItems, textOf, hnode]

theorem textOf_node (rest : String) : textOf ["Pp_" ++ rest] = "" := by
  have hnode : isNodeName ("Pp_" ++ rest) = true := isNodeName_iff.2 ⟨rest, rfl⟩
  simp [textOf, hnode]

theorem textOf_eq_self_iff {message : String} :
    textOf [message] = message ↔ ∀ rest, message ≠ "Pp_" ++ rest := by
  constructor
  · rintro htext rest rfl
    rw [textOf_node] at htext
    have hempty : "Pp_" = "" := (String.append_eq_empty_iff.1 htext.symm).1
    exact absurd hempty (by decide)
  · intro hne
    have hleaf : isNodeName message = false :=
      Bool.eq_false_iff.2 fun hnode => (isNodeName_iff.1 hnode).elim hne
    simp [textOf, hleaf]

/-- A failure that is made of a place and a text is read with its place, and with what counts as
text of its text. -/
theorem ofJson_ofFailure (span : Option Span) (message : String) :
    ofJson (ofFailure span message).toJson =
      .ok (.compilerFailure ⟨span, textOf [message], (ofFailure span message).toJson⟩) := by
  have hread : ofJson (ofFailure span message).toJson =
      .ok (.compilerFailure ⟨Span.ofJson? ((span.map Span.toJson).getD .null),
        flatten (.arr [.str "Pp_string", .str message]), (ofFailure span message).toJson⟩) := rfl
  rw [hread, ofJson?_place, flatten_string]

/-- A failure that is made of a place and a text is read as it was made just if its text does not
start like the name of a node. If it does, the place is read, and no text. -/
theorem ofJson_ofFailure_iff (span : Option Span) (message : String) :
    (ofJson (ofFailure span message).toJson = .ok (ofFailure span message)
        ↔ ∀ rest, message ≠ "Pp_" ++ rest)
      ∧ ∀ rest, ofJson (ofFailure span ("Pp_" ++ rest)).toJson =
        .ok (.compilerFailure ⟨span, "", (ofFailure span ("Pp_" ++ rest)).toJson⟩) := by
  refine ⟨?_, fun rest => by rw [ofJson_ofFailure, textOf_node]⟩
  rw [ofJson_ofFailure, ← textOf_eq_self_iff]
  simp [ofFailure, toJson]

/-- The text `Pp_hidden` of a failure does not arrive. -/
theorem ofJson_ofFailure_hidden :
    ofJson (ofFailure (some ⟨"/lib/A.v", 4, 9⟩) "Pp_hidden").toJson
      ≠ .ok (ofFailure (some ⟨"/lib/A.v", 4, 9⟩) "Pp_hidden") := by
  decide +kernel

end Reply

end Bindery
