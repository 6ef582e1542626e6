import Bindery.Proofs.WrittenRequires

/-!
# Comments count as spaces

What a text leaves of its comments is read apart from what follows, if it leaves none open:
`stripComments_append`. There one gap counts as much as any other, `parse_gap`, and a comment as
much as a space, `parse_comment`. It does not matter what stands around it: words, dots and other
comments may touch it, and a comment behind it need not be closed.
-/

namespace Bindery.Requirement

open Text (isWhite isPlainWhite words)

/-- How many comments are open at the end of a text, inside so many of which it starts. -/
def openComments : Nat → List Char → Nat
  | depth, '(' :: '*' :: r => openComments (depth + 1) r
  | depth + 1, '*' :: ')' :: r => openComments depth r
  | 0, _ :: r => openComments 0 r
  | depth + 1, _ :: r => openComments (depth + 1) r
  | depth, [] => depth

/-- A text that is one comment, from the mark that opens it to the mark that closes it. -/
def IsComment (cs : List Char) : Prop := ∃ r, cs = '(' :: '*' :: r ∧ Remark r

theorem not_mark {a b c : Char} {r : List Char} (h : ∀ t, c = a → r = b :: t → False) :
    ¬ (c = a ∧ r.head? = some b) := by
  rintro ⟨hc, hr⟩
  obtain ⟨t, rfl⟩ := List.head?_eq_some_iff.1 hr
  exact h t hc rfl

/-- Behind a text that leaves no comment open, the rest is read as if it stood alone. -/
theorem stripComments_append {rest : List Char} (hrest : rest.head? ≠ some '*') {depth : Nat}
    {cs : List Char} (h : openComments depth cs = 0) :
    stripComments depth (cs ++ rest) = stripComments depth cs ++ stripComments 0 rest := by
  induction depth, cs using stripComments.induct with
  | case1 depth r ih =>
    rw [openComments] at h
    rw [List.cons_append, List.cons_append, stripComments, stripComments, ih h]
  | case2 depth r ih =>
    rw [openComments] at h
    rw [List.cons_append, List.cons_append, stripComments, stripComments, ih h, List.cons_append]
  | case3 c r hopen ih =>
    rw [openComments.eq_3 _ _ hopen] at h
    have hmark := not_mark hopen
    have hmark' : ¬ (c = '(' ∧ (r ++ rest).head? = some '*') := by
      rcases r with _ | ⟨x, t⟩
      · exact fun hhead => hrest hhead.2
      · exact hmark
    rw [List.cons_append, stripComments_outside hmark', stripComments_outside hmark, ih h,
      List.cons_append]
  | case4 depth c r hopen hclose ih =>
    rw [openComments.eq_4 _ _ _ hopen hclose] at h
    -- A comment is open here, so this is not the end of the text.
    rcases r with _ | ⟨x, t⟩
    · cases h
    · have hopen' := not_mark hopen
      have hclose' := not_mark hclose
      have hskip : stripComments (depth + 1) (c :: (x :: t ++ rest)) =
          stripComments (depth + 1) (x :: t ++ rest) :=
        stripComments_inside (r := x :: t ++ rest) hopen' hclose' depth
      have hskip' : stripComments (depth + 1) (c :: x :: t) = stripComments (depth + 1) (x :: t) :=
        stripComments_inside hopen' hclose' depth
      exact hskip.trans ((ih h).trans (congrArg (· ++ stripComments 0 rest) hskip'.symm))
  | case5 depth =>
    have hzero : depth = 0 := h
    rw [hzero]
    rfl

/-- Texts with the same words, whatever stands before them. -/
def SameWords (a b : List Char) : Prop := ∀ front, words (front ++ a) = words (front ++ b)

theorem SameWords.cons {a b : List Char} (h : SameWords a b) (c : Char) :
    SameWords (c :: a) (c :: b) := fun front => by
  rw [List.append_cons, List.append_cons front c b]
  exact h (front ++ [c])

theorem words_blank {blank : List Char} (hne : blank ≠ []) (h : ∀ c ∈ blank, isPlainWhite c = true)
    (front cs : List Char) : words (front ++ (blank ++ cs)) = words front ++ words cs := by
  obtain ⟨c, r, rfl⟩ := List.exists_cons_of_ne_nil hne
  obtain ⟨hc, hr⟩ := List.forall_mem_cons.1 (white_of_plain h)
  rw [List.cons_append, Text.words_append_cons hc, Text.words_append_of_white hr]

theorem sentences_blank {blank : List Char} (h : ∀ c ∈ blank, isPlainWhite c = true)
    (cs : List Char) : sentences (blank ++ cs) = (sentences cs).modifyHead (blank ++ ·) := by
  induction blank with
  | nil =>
    rw [List.nil_append]
    cases sentences cs <;> rfl
  | cons c r ih =>
    obtain ⟨hc, hr⟩ := List.forall_mem_cons.1 h
    rw [List.cons_append, sentences_cons, ih hr, List.modifyHead_modifyHead]
    · rfl
    · rintro rfl
      cases hc

section Blanks

variable {blank blank' : List Char} (hne : blank ≠ []) (h : ∀ c ∈ blank, isPlainWhite c = true)
  (hne' : blank' ≠ []) (h' : ∀ c ∈ blank', isPlainWhite c = true)

include hne h hne' h'

/-- The sentences are the same but for the blanks inside them. -/
theorem forall₂_sentences (rest : List Char) : ∀ front : List Char,
    List.Forall₂ SameWords (sentences (front ++ (blank ++ rest)))
      (sentences (front ++ (blank' ++ rest)))
  | [] => by
    rw [List.nil_append, List.nil_append, sentences_blank h, sentences_blank h']
    rcases sentences rest with _ | ⟨s, ss⟩
    · exact .nil
    · refine .cons (fun front => ?_) (List.forall₂_same.2 fun _ _ _ => rfl)
      rw [words_blank hne h, words_blank hne' h']
  | c :: r => by
    have ih := forall₂_sentences rest r
    -- Whether a dot before the blanks ends a sentence does not depend on which blanks they are.
    have hends : (r ++ (blank ++ rest)).head?.all isPlainWhite =
        (r ++ (blank' ++ rest)).head?.all isPlainWhite := by
      rcases r with _ | ⟨x, t⟩
      · obtain ⟨b, bs, rfl⟩ := List.exists_cons_of_ne_nil hne
        obtain ⟨b', bs', rfl⟩ := List.exists_cons_of_ne_nil hne'
        simp [h b (by simp), h' b' (by simp)]
      · rfl
    rw [List.cons_append, List.cons_append, sentences, sentences, hends]
    split
    · exact .cons (fun _ => rfl) ih
    · generalize sentences (r ++ (blank ++ rest)) = ss,
        sentences (r ++ (blank' ++ rest)) = ss' at ih
      cases ih with
      | nil => exact .nil
      | cons hs hss => exact .cons (hs.cons c) hss

theorem stated_blank (front rest : List Char) :
    stated (front ++ (blank ++ rest)) = stated (front ++ (blank' ++ rest)) := by
  have hwords : (sentences (front ++ (blank ++ rest))).map words =
      (sentences (front ++ (blank' ++ rest))).map words := by
    rw [← List.forall₂_eq_eq_eq, List.forall₂_map_left_iff, List.forall₂_map_right_iff]
    exact (forall₂_sentences hne h hne' h' rest front).imp fun _ _ hs => hs []
  have hstated : ∀ cs, stated cs =
      ((sentences cs).map words).flatMap fun ws => ofWords (ws.map String.ofList) := fun cs => by
    rw [List.flatMap_map]
    rfl
  rw [hstated, hstated, hwords]

end Blanks

theorem Gap.head_ne {gap : List Char} (h : Gap gap) : gap ≠ [] ∧ gap.head? ≠ some '*' := by
  induction h with
  | @white c h =>
    refine ⟨by simp, fun hc => ?_⟩
    cases hc
    cases h
  | comment h => simp
  | append ha _ iha _ =>
    refine ⟨by simp [iha.1], ?_⟩
    rw [List.head?_append_of_ne_nil _ iha.1]
    exact iha.2

theorem IsComment.gap {cs : List Char} (h : IsComment cs) : Gap cs := by
  obtain ⟨r, rfl, hr⟩ := h
  exact .comment hr

theorem strip_gap {u gap : List Char} (hu : openComments 0 u = 0) (hgap : Gap gap) :
    ∃ blank, blank ≠ [] ∧ (∀ c ∈ blank, isPlainWhite c = true) ∧ ∀ v,
      stripComments 0 (u ++ gap ++ v) = stripComments 0 u ++ (blank ++ stripComments 0 v) := by
  obtain ⟨hne, hhead⟩ := hgap.head_ne
  obtain ⟨blank, hblank, hwhite, hstrip⟩ := hgap.strip
  refine ⟨blank, hblank, hwhite, fun v => ?_⟩
  have hrest : (gap ++ v).head? ≠ some '*' := by rwa [List.head?_append_of_ne_nil _ hne]
  rw [List.append_assoc, stripComments_append hrest hu, hstrip]

/-- Where no comment is open, it makes no difference which white space and comments there are. -/
theorem parse_gap {u gap gap' v : String} (hu : openComments 0 u.toList = 0)
    (hgap : Gap gap.toList) (hgap' : Gap gap'.toList) :
    parse (u ++ gap ++ v) = parse (u ++ gap' ++ v) := by
  obtain ⟨blank, hne, hwhite, hstrip⟩ := strip_gap hu hgap
  obtain ⟨blank', hne', hwhite', hstrip'⟩ := strip_gap hu hgap'
  show stated (stripComments 0 (u ++ gap ++ v).toList) =
    stated (stripComments 0 (u ++ gap' ++ v).toList)
  simp only [String.toList_append, hstrip, hstrip']
  exact stated_blank hne hwhite hne' hwhite' _ _

/-- A comment counts as a space wherever no other comment is open. -/
theorem parse_comment {u c v : String} (hu : openComments 0 u.toList = 0)
    (hc : IsComment c.toList) : parse (u ++ c ++ v) = parse (u ++ " " ++ v) :=
  parse_gap hu hc.gap (.white (c := ' ') rfl)

/-- A comment with another in it, between a word and the dot that ends the sentence. -/
theorem parse_comment_dot :
    openComments 0 "(* From B *)Require A".toList = 0
      ∧ IsComment "(* (* Require B. *) *)".toList
      ∧ parse ("(* From B *)Require A" ++ "(* (* Require B. *) *)" ++ ".(* Require C.") =
        parse ("(* From B *)Require A" ++ " " ++ ".(* Require C.")
      ∧ parse ("(* From B *)Require A" ++ " " ++ ".(* Require C.") = [⟨[], ["A"]⟩] := by
  have hopen : openComments 0 "(* From B *)Require A".toList = 0 := by decide +kernel
  have hcomment : IsComment "(* (* Require B. *) *)".toList :=
    ⟨_, rfl, .text [' '] (by decide) (by decide)
      (.comment (.text " Require B. ".toList (by decide) (by decide) .close)
        (.text [' '] (by decide) (by decide) .close))⟩
  exact ⟨hopen, hcomment, parse_comment hopen hcomment, by decide +kernel⟩

end Bindery.Requirement
