import Bindery.Proofs.TextParts
import Bindery.Proofs.TextPlaces

/-!
# The width of lines

Each line of a text in a layout is an indentation, perhaps with a key, and after it an array or
object that ends within the wrap column, or a value without members, or a lone bracket: `IsLine`.
So a line that holds members of an array or object ends within the wrap column, but for the comma
that may follow it: `text_width`. The comma itself may stand beyond, `text_width_comma`.
-/

namespace Bindery.Json

open Place (outside)

/-- What stands before a value on its line: an indentation, and perhaps a key. -/
def IsLead (l : Layout) (lead : String) : Prop :=
  ∃ depth, lead = Layout.indent depth ∨ ∃ key, lead = Layout.indent depth ++ l.label key

/-- What stands after a value on its line. -/
def IsTrail (trail : String) : Prop := trail = "" ∨ trail = ","

def openingBracket : Json → String
  | .obj _ => "\x7b"
  | _ => "["

/-- The lines of a layout. An array or object with members stays on its line just if it ends within
the wrap column there. -/
inductive IsLine (l : Layout) : String → Prop where
  | inline {lead trail : String} {v : Json} (hlead : IsLead l lead) (htrail : IsTrail trail)
      (hv : v.hasMembers = true)
      (hfits : lead.utf8ByteSize + (l.inline v).utf8ByteSize ≤ l.wrap) :
      IsLine l (lead ++ l.inline v ++ trail)
  | plain {lead trail : String} {v : Json} (hlead : IsLead l lead) (htrail : IsTrail trail)
      (hv : v.hasMembers = false) : IsLine l (lead ++ v.compress ++ trail)
  | opening {lead : String} {v : Json} (hlead : IsLead l lead) (hv : v.hasMembers = true)
      (hbeyond : l.wrap < lead.utf8ByteSize + (l.inline v).utf8ByteSize) :
      IsLine l (lead ++ v.openingBracket)
  | closing {trail : String} (depth : Nat) (bracket : String) (hbracket : bracket ∈ ["]", "\x7d"])
      (htrail : IsTrail trail) : IsLine l (Layout.indent depth ++ bracket ++ trail)

theorem mem_openingBracket (v : Json) : v.openingBracket ∈ ["[", "\x7b"] := by
  cases v <;> simp [openingBracket]

theorem inline_plain (l : Layout) : ∀ {v : Json}, v.hasMembers = false → l.inline v = v.compress
  | .null, _ | .bool _, _ | .num _, _ | .str _, _ | .arr [], _ | .obj [], _ => rfl

theorem lines_plain (l : Layout) (depth : Nat) (lead trail : String) : ∀ {v : Json},
    v.hasMembers = false → l.lines depth lead trail v = [lead ++ l.inline v ++ trail]
  | .null, _ | .bool _, _ | .num _, _ | .str _, _ | .arr [], _ | .obj [], _ => rfl

theorem isLine_of_plain {l : Layout} {depth : Nat} {lead trail line : String} {v : Json}
    (hlead : IsLead l lead) (htrail : IsTrail trail) (hv : v.hasMembers = false)
    (hline : line ∈ l.lines depth lead trail v) : IsLine l line := by
  rw [lines_plain l depth lead trail hv, List.mem_singleton, inline_plain l hv] at hline
  rw [hline]
  exact .plain hlead htrail hv

theorem isLine_of_members {l : Layout} {depth : Nat} {lead trail bracket line : String} {v : Json}
    {inner : List String} {empty : Prop} [Decidable empty] (hempty : ¬ empty)
    (hlead : IsLead l lead) (htrail : IsTrail trail) (hv : v.hasMembers = true)
    (hbracket : bracket ∈ ["]", "\x7d"]) (hinner : ∀ line ∈ inner, IsLine l line)
    (hline : line ∈ if empty ∨ l.fits lead (l.inline v) then [lead ++ l.inline v ++ trail]
      else (lead ++ v.openingBracket) :: inner ++ [Layout.indent depth ++ bracket ++ trail]) :
    IsLine l line := by
  by_cases h : l.fits lead (l.inline v) = true
  · rw [if_pos (.inr h), List.mem_singleton] at hline
    rw [hline]
    exact .inline hlead htrail hv (of_decide_eq_true h)
  · rw [if_neg (not_or.2 ⟨hempty, h⟩), List.mem_append, List.mem_cons,
      List.mem_singleton] at hline
    rcases hline with (rfl | hline) | rfl
    · exact .opening hlead hv (by simpa [Layout.fits] using h)
    · exact hinner line hline
    · exact .closing depth bracket hbracket htrail

theorem isTrail_comma (last : Prop) [Decidable last] : IsTrail (if last then "" else ",") := by
  split
  · exact .inl rfl
  · exact .inr rfl

mutual

theorem isLine_lines (l : Layout) : ∀ (depth : Nat) {lead trail : String} (v : Json),
    IsLead l lead → IsTrail trail → ∀ line ∈ l.lines depth lead trail v, IsLine l line
  | _, _, _, .null, hlead, htrail, _, hline => isLine_of_plain hlead htrail rfl hline
  | _, _, _, .bool _, hlead, htrail, _, hline => isLine_of_plain hlead htrail rfl hline
  | _, _, _, .num _, hlead, htrail, _, hline => isLine_of_plain hlead htrail rfl hline
  | _, _, _, .str _, hlead, htrail, _, hline => isLine_of_plain hlead htrail rfl hline
  | _, _, _, .arr [], hlead, htrail, _, hline => isLine_of_plain hlead htrail rfl hline
  | _, _, _, .obj [], hlead, htrail, _, hline => isLine_of_plain hlead htrail rfl hline
  | depth, _, _, .arr (v :: r), hlead, htrail, line, hline => by
    have hinner := isLine_itemLines l (depth + 1) (v :: r)
    rw [Layout.lines] at hline
    exact isLine_of_members (v := .arr (v :: r)) (List.cons_ne_nil v r) hlead htrail rfl (by simp)
      hinner hline
  | depth, _, _, .obj ((k, v) :: r), hlead, htrail, line, hline => by
    have hinner := isLine_fieldLines l (depth + 1) ((k, v) :: r)
    rw [Layout.lines] at hline
    exact isLine_of_members (v := .obj ((k, v) :: r)) (List.cons_ne_nil (k, v) r) hlead htrail rfl
      (by simp) hinner hline

theorem isLine_itemLines (l : Layout) : ∀ (depth : Nat) (items : List Json),
    ∀ line ∈ l.itemLines depth items, IsLine l line
  | _, [], _, hline => by simp [Layout.itemLines] at hline
  | depth, v :: r, line, hline => by
    rw [Layout.itemLines, List.mem_append] at hline
    rcases hline with hline | hline
    · exact isLine_lines l depth v ⟨depth, .inl rfl⟩ (isTrail_comma _) line hline
    · exact isLine_itemLines l depth r line hline

theorem isLine_fieldLines (l : Layout) : ∀ (depth : Nat) (fields : List (String × Json)),
    ∀ line ∈ l.fieldLines depth fields, IsLine l line
  | _, [], _, hline => by simp [Layout.fieldLines] at hline
  | depth, (k, v) :: r, line, hline => by
    rw [Layout.fieldLines, List.mem_append] at hline
    rcases hline with hline | hline
    · exact isLine_lines l depth v ⟨depth, .inr ⟨k, rfl⟩⟩ (isTrail_comma _) line hline
    · exact isLine_fieldLines l depth r line hline

end

theorem newline_not_mem_escape (c : Char) : '\n' ∉ escape c := by
  have hhex : ∀ n < 16, hexDigit n ≠ '\n' := by decide
  unfold escape
  split_ifs with h1 h2 h3 h4 h5 h6 h7 h8
  on_goal 8 =>
    have hlt := toNat_lt_of_lt_space h8
    have hhigh := hhex (c.toNat / 16) (by omega)
    have hlow := hhex (c.toNat % 16) (by omega)
    simp [hhigh.symm, hlow.symm]
  all_goals simp_all [eq_comm]

theorem newline_not_mem_quote (s : String) : '\n' ∉ (quote s).toList := by
  simp [quote, newline_not_mem_escape]

theorem newline_not_mem_spaces (n : Nat) : '\n' ∉ (Layout.spaces n).toList := by
  simp [Layout.spaces]

theorem newline_not_mem_plain : ∀ {v : Json}, v.hasMembers = false → '\n' ∉ v.compress.toList
  | .null, _ | .bool true, _ | .bool false, _ | .arr [], _ | .obj [], _ => by decide
  | .num n, _ => fun h => absurd (numeric_text n _ h) (by simp [IsNumeric])
  | .str s, _ => newline_not_mem_quote s

theorem newline_not_mem_join {sep : String} (hsep : '\n' ∉ sep.toList) : ∀ {members : List String},
    (∀ s ∈ members, '\n' ∉ s.toList) → '\n' ∉ (sep.intercalate members).toList
  | [], _ => by simp
  | [s], h => by simpa using h
  | s :: t :: r, h => by
    obtain ⟨hs, hr⟩ := List.forall_mem_cons.1 h
    have ih := newline_not_mem_join hsep hr
    rw [String.intercalate_cons_of_ne_nil (List.cons_ne_nil t r), String.toList_append,
      String.toList_append, List.mem_append, List.mem_append, not_or, not_or]
    exact ⟨⟨hs, hsep⟩, ih⟩

theorem newline_not_mem_of_forall₂ {α : Type} {R : String → α → Prop}
    (hR : ∀ s a, R s a → '\n' ∉ s.toList) {members : List String} {values : List α}
    (h : List.Forall₂ R members values) : ∀ s ∈ members, '\n' ∉ s.toList := by
  induction h with
  | nil => simp
  | cons hs _ ih => exact List.forall_mem_cons.2 ⟨hR _ _ hs, ih⟩

theorem newline_not_mem_bracket {opening front sep back closing : String} {members : List String}
    (hopening : '\n' ∉ opening.toList) (hclosing : '\n' ∉ closing.toList)
    (hfront : '\n' ∉ front.toList) (hsep : '\n' ∉ sep.toList) (hback : '\n' ∉ back.toList)
    (h : ∀ s ∈ members, '\n' ∉ s.toList) :
    '\n' ∉ (opening ++ front ++ ("," ++ sep).intercalate members ++ back ++ closing).toList := by
  have hcomma : '\n' ∉ ("," ++ sep).toList := by simpa using hsep
  have hjoin := newline_not_mem_join hcomma h
  simp only [String.toList_append, List.mem_append, not_or]
  exact ⟨⟨⟨⟨hopening, hfront⟩, hjoin⟩, hback⟩, hclosing⟩

theorem newline_composes : Composes ('\n' ∉ ·.toList) fun s _ => '\n' ∉ s.toList where
  plain := newline_not_mem_plain
  arr hfront hsep hback _ _ _ h :=
    newline_not_mem_bracket (by decide) (by decide) hfront hsep hback
      (newline_not_mem_of_forall₂ (fun _ _ h => h) h)
  obj hfront hsep hback _ _ _ h := by
    refine newline_not_mem_bracket (by decide) (by decide) hfront hsep hback
      (newline_not_mem_of_forall₂ ?_ h)
    rintro _ f ⟨gap, body, hgap, hbody, rfl⟩
    simp [newline_not_mem_quote, hgap, hbody]

theorem IsLead.newline {l : Layout} {lead : String} (h : IsLead l lead) : '\n' ∉ lead.toList := by
  obtain ⟨depth, rfl | ⟨key, rfl⟩⟩ := h
  · exact newline_not_mem_spaces _
  · simp [Layout.indent, Layout.label, newline_not_mem_spaces, newline_not_mem_quote]

theorem IsTrail.newline {trail : String} (h : IsTrail trail) : '\n' ∉ trail.toList := by
  rcases h with rfl | rfl <;> decide

theorem IsLine.newline {l : Layout} {line : String} (h : IsLine l line) : '\n' ∉ line.toList := by
  cases h with
  | @inline _ _ v hlead htrail =>
    have hv := newline_composes.inline newline_not_mem_spaces l v
    simp [hlead.newline, htrail.newline, hv]
  | plain hlead htrail hv => simp [hlead.newline, htrail.newline, newline_not_mem_plain hv]
  | @opening _ v hlead =>
    have hall : ∀ b ∈ ["[", "\x7b"], '\n' ∉ b.toList := by simp
    simp [hlead.newline, hall _ v.mem_openingBracket]
  | closing depth bracket hbracket htrail =>
    have hall : ∀ b ∈ ["]", "\x7d"], '\n' ∉ b.toList := by simp
    simp [Layout.indent, newline_not_mem_spaces, htrail.newline, hall bracket hbracket]

/-- The lines of a text are those that it is made of. -/
theorem pieces_text (l : Layout) (v : Json) : Text.pieces '\n' (l.text v) = l.lines 0 "" "" v := by
  have hlead : IsLead l "" := ⟨0, .inl rfl⟩
  have hlines : ∀ line ∈ l.lines 0 "" "" v, '\n' ∉ line.toList :=
    fun line hline => (isLine_lines l 0 v hlead (.inl rfl) line hline).newline
  exact Text.pieces_intercalate rfl hlines (lines_ne_nil l 0 "" "" v)

/-- Whether an opening bracket outside strings goes on with something but a closing bracket. -/
def opensMembers : List (Place × Char) → Bool
  | x :: y :: r =>
    (x.1 = .outside && (x.2 = '[' || x.2 = '\x7b') && y.2 ≠ ']' && y.2 ≠ '\x7d')
      || opensMembers (y :: r)
  | _ => false

/-- On the line an array or object begins that is not empty, with the first of its members. -/
def HoldsMembers (line : String) : Prop := opensMembers (outside.placed line.toList) = true

instance (line : String) : Decidable (HoldsMembers line) := inferInstanceAs (Decidable (_ = true))

/-- A text that ends outside strings and has no opening brackets outside strings. -/
structure Quiet (s : String) : Prop where
  after : outside.after s.toList = .outside
  placed : ∀ x ∈ outside.placed s.toList, x.1 = .outside → x.2 ≠ '[' ∧ x.2 ≠ '\x7b'

theorem opensMembers_cons {x : Place × Char} (h : x.1 = .outside → x.2 ≠ '[' ∧ x.2 ≠ '\x7b')
    (xs : List (Place × Char)) : opensMembers (x :: xs) = opensMembers xs := by
  rcases xs with _ | ⟨y, r⟩
  · rfl
  · rw [opensMembers]
    by_cases hx : x.1 = .outside
    · simp [h hx]
    · simp [hx]

theorem opensMembers_append : ∀ {xs : List (Place × Char)},
    (∀ x ∈ xs, x.1 = .outside → x.2 ≠ '[' ∧ x.2 ≠ '\x7b') → ∀ ys,
    opensMembers (xs ++ ys) = opensMembers ys
  | [], _, _ => rfl
  | x :: r, h, ys => by
    obtain ⟨hx, hr⟩ := List.forall_mem_cons.1 h
    rw [List.cons_append, opensMembers_cons hx, opensMembers_append hr]

namespace Quiet

theorem holdsMembers_append {s : String} (h : Quiet s) (t : String) :
    HoldsMembers (s ++ t) ↔ HoldsMembers t := by
  rw [HoldsMembers, String.toList_append, Place.placed_append, h.after,
    opensMembers_append h.placed]
  rfl

theorem not_holdsMembers {s : String} (h : Quiet s) : ¬ HoldsMembers s := by
  have happend := h.holdsMembers_append ""
  rw [String.append_empty] at happend
  rw [happend]
  decide

theorem append {s t : String} (hs : Quiet s) (ht : Quiet t) : Quiet (s ++ t) := by
  constructor
  · rw [String.toList_append, Place.after_append, hs.after, ht.after]
  · rw [String.toList_append, Place.placed_append, hs.after]
    exact List.forall_mem_append.2 ⟨hs.placed, ht.placed⟩

theorem of_chars {s : String} (h : ∀ c ∈ s.toList, c ≠ '"' ∧ c ≠ '[' ∧ c ≠ '\x7b') : Quiet s := by
  have hquote : '"' ∉ s.toList := fun hmem => (h _ hmem).1 rfl
  refine ⟨Place.after_unquoted hquote, ?_⟩
  rw [Place.placed_unquoted hquote]
  intro x hx _
  obtain ⟨c, hc, rfl⟩ := List.mem_map.1 hx
  exact (h c hc).2

theorem quote (s : String) : Quiet (quote s) := by
  obtain ⟨hafter, rest, hplaced, hrest⟩ := Place.placed_quote s
  refine ⟨hafter, ?_⟩
  rw [hplaced]
  exact List.forall_mem_cons.2 ⟨by decide, fun x hx houtside => absurd houtside (hrest x hx)⟩

theorem spaces (n : Nat) : Quiet (Layout.spaces n) := by
  refine of_chars fun c hc => ?_
  rw [Layout.spaces, String.toList_ofList] at hc
  rw [List.eq_of_mem_replicate hc]
  decide

theorem number (n : Number) : Quiet n.text := by
  refine of_chars fun c hc => ?_
  have hnumeric := numeric_text n c hc
  refine ⟨?_, ?_, ?_⟩ <;> rintro rfl <;> exact absurd hnumeric (by simp [IsNumeric])

theorem lead {l : Layout} {lead : String} (h : IsLead l lead) : Quiet lead := by
  obtain ⟨depth, rfl | ⟨key, rfl⟩⟩ := h
  · exact spaces _
  · have hcolon : Quiet ":" := of_chars (by simp)
    exact (spaces _).append (((quote key).append hcolon).append (spaces _))

theorem trail {trail : String} (h : IsTrail trail) : Quiet trail := by
  rcases h with rfl | rfl <;> exact of_chars (by simp)

end Quiet

theorem not_holdsMembers_plain {trail : String} (htrail : IsTrail trail) : ∀ {v : Json},
    v.hasMembers = false → ¬ HoldsMembers (v.compress ++ trail)
  | .null, _ | .bool true, _ | .bool false, _ =>
    ((Quiet.of_chars (by simp [compress])).append (.trail htrail)).not_holdsMembers
  | .num n, _ => ((Quiet.number n).append (.trail htrail)).not_holdsMembers
  | .str s, _ => ((Quiet.quote s).append (.trail htrail)).not_holdsMembers
  | .arr [], _ | .obj [], _ => by rcases htrail with rfl | rfl <;> decide

/-- Of the lines of a layout only those hold members that have all of an array or object. -/
theorem IsLine.width {l : Layout} {line : String} (h : IsLine l line)
    (hmembers : HoldsMembers line) :
    ∃ body, (line = body ∨ line = body ++ ",") ∧ body.utf8ByteSize ≤ l.wrap := by
  cases h with
  | @inline lead trail v hlead htrail hv hfits =>
    refine ⟨lead ++ l.inline v, ?_, by rwa [String.utf8ByteSize_append]⟩
    rcases htrail with rfl | rfl
    · exact .inl (String.append_empty)
    · exact .inr rfl
  | plain hlead htrail hv =>
    rw [String.append_assoc, (Quiet.lead hlead).holdsMembers_append] at hmembers
    exact absurd hmembers (not_holdsMembers_plain htrail hv)
  | @opening lead v hlead =>
    rw [(Quiet.lead hlead).holdsMembers_append] at hmembers
    have hall : ∀ b ∈ ["[", "\x7b"], ¬ HoldsMembers b := by decide
    exact absurd hmembers (hall _ v.mem_openingBracket)
  | closing depth bracket hbracket htrail =>
    have hall : ∀ b ∈ ["]", "\x7d"], ∀ c ∈ b.toList, c ≠ '"' ∧ c ≠ '[' ∧ c ≠ '\x7b' := by simp
    have hquiet := ((Quiet.spaces (2 * depth)).append (.of_chars (hall bracket hbracket))).append
      (.trail htrail)
    exact absurd hmembers hquiet.not_holdsMembers

/-- A line of a text that holds members of an array or object ends within the wrap column, but for a
comma at its end; each line is one of `IsLine`. -/
theorem text_width (l : Layout) (v : Json) : ∀ line ∈ Text.pieces '\n' (l.text v),
    IsLine l line ∧ (HoldsMembers line →
      ∃ body, (line = body ∨ line = body ++ ",") ∧ body.utf8ByteSize ≤ l.wrap) := by
  intro line hmem
  rw [pieces_text] at hmem
  have hline := isLine_lines l 0 v ⟨0, .inl rfl⟩ (.inl rfl) line hmem
  exact ⟨hline, hline.width⟩

def pairs : Json :=
  .arr [.arr [.num (.whole 1), .num (.whole 2)], .arr [.num (.whole 1), .num (.whole 2)]]

theorem text_width_pairs :
    "  [ 1, 2 ]," ∈ Text.pieces '\n' (Layout.text ⟨1, 1, 1, 10⟩ pairs)
      ∧ HoldsMembers "  [ 1, 2 ],"
      ∧ IsLine ⟨1, 1, 1, 10⟩ "  [ 1, 2 ],"
      ∧ ∃ body, ("  [ 1, 2 ]," = body ∨ "  [ 1, 2 ]," = body ++ ",") ∧ body.utf8ByteSize ≤ 10 := by
  have hmem : "  [ 1, 2 ]," ∈ Text.pieces '\n' (Layout.text ⟨1, 1, 1, 10⟩ pairs) := by decide
  have hmembers : HoldsMembers "  [ 1, 2 ]," := by decide
  obtain ⟨hline, hwidth⟩ := text_width ⟨1, 1, 1, 10⟩ pairs _ hmem
  exact ⟨hmem, hmembers, hline, hwidth hmembers⟩

/-- The comma after the first of two pairs stands beyond the wrap column. -/
theorem text_width_comma :
    Layout.text ⟨1, 1, 1, 10⟩ pairs = "[\n  [ 1, 2 ],\n  [ 1, 2 ]\n]"
      ∧ ∃ line ∈ Text.pieces '\n' (Layout.text ⟨1, 1, 1, 10⟩ pairs),
        HoldsMembers line ∧ 10 < line.utf8ByteSize :=
  ⟨by decide, "  [ 1, 2 ],", by decide, by decide, by decide⟩

end Bindery.Json
