import Bindery.Json.Layout
import Mathlib.Data.List.Basic
import Mathlib.Data.List.Forall2

/-!
# Values put together from their members

In every layout the text of an array or an object is made of the texts of its members with gaps
between them: spaces on one line, and breaks with an indentation over several. What holds of values
without members, and of arrays and objects put together with gaps if it holds of their members,
therefore holds of the text of every value in every layout: `Composes.text`.
-/

namespace Bindery.Json

/-- The value is an array or an object that is not empty. -/
def hasMembers : Json → Bool
  | .arr (_ :: _) | .obj (_ :: _) => true
  | _ => false

/-- A field of an object: its key, a colon, a gap and a text of its value. -/
def Labelled (Gap : String → Prop) (T : String → Json → Prop) (s : String) (f : String × Json) :
    Prop :=
  ∃ gap body, Gap gap ∧ T body f.2 ∧ s = quote f.1 ++ ":" ++ gap ++ body

/-- Texts of values that are put together from texts of members with gaps are texts of values. -/
structure Composes (Gap : String → Prop) (T : String → Json → Prop) : Prop where
  plain {v : Json} (h : v.hasMembers = false) : T v.compress v
  arr {front sep back : String} (hfront : Gap front) (hsep : Gap sep) (hback : Gap back)
    {members : List String} {items : List Json} (hne : members ≠ [])
    (h : List.Forall₂ T members items) :
    T ("[" ++ front ++ ("," ++ sep).intercalate members ++ back ++ "]") (.arr items)
  obj {front sep back : String} (hfront : Gap front) (hsep : Gap sep) (hback : Gap back)
    {members : List String} {fields : List (String × Json)} (hne : members ≠ [])
    (h : List.Forall₂ (Labelled Gap T) members fields) :
    T ("\x7b" ++ front ++ ("," ++ sep).intercalate members ++ back ++ "\x7d") (.obj fields)

namespace Composes

variable {Gap : String → Prop} {T : String → Json → Prop}

theorem labelled (hspaces : ∀ n, Gap (Layout.spaces n)) (l : Layout) (k : String) {body : String}
    {v : Json} (hbody : T body v) : Labelled Gap T (l.label k ++ body) (k, v) :=
  ⟨Layout.spaces l.afterColon, body, hspaces _, hbody, rfl⟩

mutual

theorem inline (h : Composes Gap T) (hspaces : ∀ n, Gap (Layout.spaces n)) (l : Layout) :
    ∀ v : Json, T (l.inline v) v
  | .null => h.plain rfl
  | .bool _ => h.plain rfl
  | .num _ => h.plain rfl
  | .str _ => h.plain rfl
  | .arr [] => h.plain (v := .arr []) rfl
  | .arr (v :: r) => by
    have hne : l.inlineItems (v :: r) ≠ [] := by simp [Layout.inlineItems]
    rw [Layout.inline, Layout.enclose, if_neg hne]
    exact h.arr (hspaces _) (hspaces _) (hspaces _) hne (h.inlineItems hspaces l (v :: r))
  | .obj [] => h.plain (v := .obj []) rfl
  | .obj ((k, v) :: r) => by
    have hne : l.inlineFields ((k, v) :: r) ≠ [] := by simp [Layout.inlineFields]
    rw [Layout.inline, Layout.enclose, if_neg hne]
    exact h.obj (hspaces _) (hspaces _) (hspaces _) hne (h.inlineFields hspaces l ((k, v) :: r))

theorem inlineItems (h : Composes Gap T) (hspaces : ∀ n, Gap (Layout.spaces n)) (l : Layout) :
    ∀ items : List Json, List.Forall₂ T (l.inlineItems items) items
  | [] => .nil
  | v :: r => .cons (h.inline hspaces l v) (h.inlineItems hspaces l r)

theorem inlineFields (h : Composes Gap T) (hspaces : ∀ n, Gap (Layout.spaces n)) (l : Layout) :
    ∀ fields : List (String × Json), List.Forall₂ (Labelled Gap T) (l.inlineFields fields) fields
  | [] => .nil
  | (k, v) :: r =>
    .cons (labelled hspaces l k (h.inline hspaces l v)) (h.inlineFields hspaces l r)

end

end Composes

theorem lines_ne_nil (l : Layout) (depth : Nat) (lead trail : String) (v : Json) :
    l.lines depth lead trail v ≠ [] := by
  unfold Layout.lines
  split
  · split <;> simp
  · split <;> simp
  · simp

theorem itemLines_ne_nil (l : Layout) (depth : Nat) {items : List Json} (h : items ≠ []) :
    l.itemLines depth items ≠ [] := by
  rcases items with _ | ⟨v, r⟩
  · exact absurd rfl h
  · simp [Layout.itemLines, lines_ne_nil]

theorem fieldLines_ne_nil (l : Layout) (depth : Nat) {fields : List (String × Json)}
    (h : fields ≠ []) : l.fieldLines depth fields ≠ [] := by
  rcases fields with _ | ⟨⟨k, v⟩, r⟩
  · exact absurd rfl h
  · simp [Layout.fieldLines, lines_ne_nil]

theorem intercalate_bracketed {first last : String} {r : List String} (h : r ≠ []) :
    "\n".intercalate (first :: r ++ [last]) =
      first ++ "\n" ++ "\n".intercalate r ++ "\n" ++ last := by
  have hr : r ++ [last] ≠ [] := by simp
  rw [List.cons_append, String.intercalate_cons_of_ne_nil hr,
    String.intercalate_append_of_ne_nil h (by simp), String.intercalate_singleton]
  simp only [String.append_assoc]

/-- The lines of the members of an array or an object, put together. -/
def joined (depth : Nat) (members : List String) : String :=
  Layout.indent depth ++ ("," ++ ("\n" ++ Layout.indent depth)).intercalate members

theorem joined_cons (depth : Nat) (s : String) {r : List String} (h : r ≠ []) :
    joined depth (s :: r) = Layout.indent depth ++ s ++ "," ++ "\n" ++ joined depth r := by
  rw [joined, joined, String.intercalate_cons_of_ne_nil h]
  simp only [String.append_assoc]

namespace Composes

variable {Gap : String → Prop} {T : String → Json → Prop}

mutual

/-- The lines of a value are a text of it between what leads and what trails. -/
theorem lines (h : Composes Gap T) (hspaces : ∀ n, Gap (Layout.spaces n))
    (hbreak : ∀ n, Gap ("\n" ++ Layout.spaces n)) (l : Layout) :
    ∀ (depth : Nat) (lead trail : String) (v : Json), ∃ body : String,
      "\n".intercalate (l.lines depth lead trail v) = lead ++ body ++ trail ∧ T body v
  | depth, lead, trail, .arr items => by
    rw [Layout.lines]
    split_ifs with hfits
    · exact ⟨_, String.intercalate_singleton, h.inline hspaces l (.arr items)⟩
    · have hne : items ≠ [] := fun he => hfits (.inl he)
      obtain ⟨members, hmembers, hlines, htexts⟩ :=
        h.itemLines hspaces hbreak l (depth + 1) items hne
      refine ⟨"[" ++ ("\n" ++ Layout.indent (depth + 1))
        ++ ("," ++ ("\n" ++ Layout.indent (depth + 1))).intercalate members
        ++ ("\n" ++ Layout.indent depth) ++ "]", ?_,
        h.arr (hbreak _) (hbreak _) (hbreak _) hmembers htexts⟩
      rw [intercalate_bracketed (itemLines_ne_nil l (depth + 1) hne), hlines, joined]
      simp only [String.append_assoc]
  | depth, lead, trail, .obj fields => by
    rw [Layout.lines]
    split_ifs with hfits
    · exact ⟨_, String.intercalate_singleton, h.inline hspaces l (.obj fields)⟩
    · have hne : fields ≠ [] := fun he => hfits (.inl he)
      obtain ⟨members, hmembers, hlines, htexts⟩ :=
        h.fieldLines hspaces hbreak l (depth + 1) fields hne
      refine ⟨"\x7b" ++ ("\n" ++ Layout.indent (depth + 1))
        ++ ("," ++ ("\n" ++ Layout.indent (depth + 1))).intercalate members
        ++ ("\n" ++ Layout.indent depth) ++ "\x7d", ?_,
        h.obj (hbreak _) (hbreak _) (hbreak _) hmembers htexts⟩
      rw [intercalate_bracketed (fieldLines_ne_nil l (depth + 1) hne), hlines, joined]
      simp only [String.append_assoc]
  | _, _, _, .null => ⟨_, String.intercalate_singleton, h.inline hspaces l .null⟩
  | _, _, _, .bool b => ⟨_, String.intercalate_singleton, h.inline hspaces l (.bool b)⟩
  | _, _, _, .num n => ⟨_, String.intercalate_singleton, h.inline hspaces l (.num n)⟩
  | _, _, _, .str s => ⟨_, String.intercalate_singleton, h.inline hspaces l (.str s)⟩

theorem itemLines (h : Composes Gap T) (hspaces : ∀ n, Gap (Layout.spaces n))
    (hbreak : ∀ n, Gap ("\n" ++ Layout.spaces n)) (l : Layout) :
    ∀ (depth : Nat) (items : List Json), items ≠ [] → ∃ members : List String, members ≠ []
      ∧ "\n".intercalate (l.itemLines depth items) = joined depth members
      ∧ List.Forall₂ T members items
  | _, [], hne => absurd rfl hne
  | depth, [v], _ => by
    obtain ⟨body, hbody, htext⟩ := h.lines hspaces hbreak l depth (Layout.indent depth) "" v
    refine ⟨[body], by simp, ?_, .cons htext .nil⟩
    simpa [Layout.itemLines, joined] using hbody
  | depth, v :: w :: r, _ => by
    obtain ⟨body, hbody, htext⟩ := h.lines hspaces hbreak l depth (Layout.indent depth) "," v
    obtain ⟨members, hne, hlines, hrest⟩ := h.itemLines hspaces hbreak l depth (w :: r) (by simp)
    refine ⟨body :: members, by simp, ?_, .cons htext hrest⟩
    rw [Layout.itemLines, if_neg (List.cons_ne_nil w r), joined_cons depth body hne, ← hlines,
      ← hbody]
    exact String.intercalate_append_of_ne_nil (lines_ne_nil l _ _ _ v)
      (itemLines_ne_nil l depth (List.cons_ne_nil w r))

theorem fieldLines (h : Composes Gap T) (hspaces : ∀ n, Gap (Layout.spaces n))
    (hbreak : ∀ n, Gap ("\n" ++ Layout.spaces n)) (l : Layout) :
    ∀ (depth : Nat) (fields : List (String × Json)), fields ≠ [] →
      ∃ members : List String, members ≠ []
        ∧ "\n".intercalate (l.fieldLines depth fields) = joined depth members
        ∧ List.Forall₂ (Labelled Gap T) members fields
  | _, [], hne => absurd rfl hne
  | depth, [(k, v)], _ => by
    obtain ⟨body, hbody, htext⟩ :=
      h.lines hspaces hbreak l depth (Layout.indent depth ++ l.label k) "" v
    refine ⟨[l.label k ++ body], by simp, ?_, .cons (labelled hspaces l k htext) .nil⟩
    simpa [Layout.fieldLines, joined, String.append_assoc] using hbody
  | depth, (k, v) :: (k', w) :: r, _ => by
    obtain ⟨body, hbody, htext⟩ :=
      h.lines hspaces hbreak l depth (Layout.indent depth ++ l.label k) "," v
    obtain ⟨members, hne, hlines, hrest⟩ :=
      h.fieldLines hspaces hbreak l depth ((k', w) :: r) (by simp)
    refine ⟨(l.label k ++ body) :: members, by simp, ?_,
      .cons (labelled hspaces l k htext) hrest⟩
    rw [Layout.fieldLines, if_neg (List.cons_ne_nil (k', w) r), joined_cons depth _ hne, ← hlines,
      ← String.append_assoc, ← hbody]
    exact String.intercalate_append_of_ne_nil (lines_ne_nil l _ _ _ v)
      (fieldLines_ne_nil l depth (List.cons_ne_nil (k', w) r))

end

theorem text (h : Composes Gap T) (hspaces : ∀ n, Gap (Layout.spaces n))
    (hbreak : ∀ n, Gap ("\n" ++ Layout.spaces n)) (l : Layout) (v : Json) : T (l.text v) v := by
  obtain ⟨body, hbody, htext⟩ := h.lines hspaces hbreak l 0 "" "" v
  rw [Layout.text, hbody]
  simpa using htext

end Composes

end Bindery.Json
