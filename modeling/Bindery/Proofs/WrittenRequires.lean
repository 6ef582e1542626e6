import Bindery.Proofs.DottedName
import Bindery.Proofs.TextParts
import Mathlib.Data.List.Chain

/-!
# Requirements as they are written

A source is sentences, each with a dot behind it, with gaps of white space and comments between
them; a sentence that requires modules is words with gaps between them. Whatever stands in the gaps,
the requirements of a source are those of its sentences, in order: `parse_written`.
-/

namespace Bindery.Requirement

open Text (isWhite isPlainWhite words Leads)

/-! ## How a source is written -/

/-- A comment after the mark that opens it: characters that start no mark, and comments, up to the
mark that closes it. -/
inductive Remark : List Char → Prop where
  | close : Remark ['*', ')']
  | char {c : Char} {r : List Char} (hopen : ¬ (c = '(' ∧ r.head? = some '*'))
      (hclose : ¬ (c = '*' ∧ r.head? = some ')')) (h : Remark r) : Remark (c :: r)
  | comment {inner r : List Char} (hinner : Remark inner) (h : Remark r) :
      Remark ('(' :: '*' :: (inner ++ r))

/-- Plain white space and comments, at least one of them. -/
inductive Gap : List Char → Prop where
  | white {c : Char} (h : isPlainWhite c = true) : Gap [c]
  | comment {r : List Char} (h : Remark r) : Gap ('(' :: '*' :: r)
  | append {a b : List Char} (ha : Gap a) (hb : Gap b) : Gap (a ++ b)

/-- Words with a gap between each and the next, and perhaps behind the last. -/
inductive Spaced : List (List Char) → List Char → Prop where
  | last (word : List Char) : Spaced [word] word
  | gap (word : List Char) {gap : List Char} (hgap : Gap gap) : Spaced [word] (word ++ gap)
  | cons {word gap r : List Char} {more : List (List Char)} (hgap : Gap gap) (h : Spaced more r) :
      Spaced (word :: more) (word ++ gap ++ r)

inductive Opening where
  | «import»
  | «export»
  deriving DecidableEq

def Opening.word : Opening → String
  | .import => "Import"
  | .export => "Export"

inductive Sentence where
  | require (origin : Option Logical) (opening : Option Opening) (names : List Logical)
  /-- A sentence that requires nothing. -/
  | other (text : List Char)

def wordsOf (origin : Option Logical) (opening : Option Opening) (names : List Logical) :
    List String :=
  (origin.map fun o => ["From", o.dotted]).getD [] ++
    "Require" :: ((opening.map Opening.word).toList ++ names.map Logical.dotted)

def Sentence.requirements : Sentence → List Requirement
  | .require origin _ names => names.map (⟨origin.getD [], ·⟩)
  | .other _ => []

/-- A name as it can stand in a sentence: parts that are not empty and have no white space, dot or
parenthesis in them. -/
structure IsName (name : Logical) : Prop where
  ne : name ≠ []
  part : ∀ c ∈ name, c ≠ "" ∧ ∀ x ∈ c.toList, isWhite x = false ∧ x ≠ '.' ∧ x ≠ '(' ∧ x ≠ ')'

instance (name : Logical) : Decidable (IsName name) :=
  decidable_of_iff (name ≠ [] ∧ (name.all fun c => decide (c ≠ "")
      && c.toList.all fun x => !isWhite x && x ≠ '.' && x ≠ '(' && x ≠ ')') = true)
    ⟨fun ⟨hne, hpart⟩ => ⟨hne, by simpa [and_assoc] using hpart⟩,
      fun h => ⟨h.ne, by simpa [and_assoc] using h.part⟩⟩

/-- Nothing in a text opens a comment. -/
def Uncommented (cs : List Char) : Prop := cs.IsChain fun a b => ¬ (a = '(' ∧ b = '*')

/-- Nothing in a text ends a sentence. -/
def Unended (cs : List Char) : Prop := cs.IsChain fun a b => a = '.' → isPlainWhite b = false

instance (cs : List Char) : Decidable (Uncommented cs) :=
  inferInstanceAs (Decidable (cs.IsChain _))

instance (cs : List Char) : Decidable (Unended cs) :=
  inferInstanceAs (Decidable (cs.IsChain _))

inductive Sentence.Written : Sentence → List Char → Prop where
  | require {origin : Option Logical} {opening : Option Opening} {names : List Logical}
      {cs : List Char} (horigin : ∀ o ∈ origin, IsName o) (hnames : ∀ n ∈ names, IsName n)
      (hne : names ≠ []) (hfirst : ∀ n ∈ names.head?, n.dotted ≠ "Import" ∧ n.dotted ≠ "Export")
      (h : Spaced ((wordsOf origin opening names).map String.toList) cs) :
      Written (.require origin opening names) cs
  | other {cs : List Char} (hcomment : Uncommented cs) (hend : Unended cs)
      (hfrom : ¬ Leads "From".toList cs) (hrequire : ¬ Leads "Require".toList cs) :
      Written (.other cs) cs

/-- Sentences with dots behind them, and a gap between each and the next; there may be gaps before
the first and behind the last. -/
inductive Source : List Sentence → List Char → Prop where
  | nil : Source [] []
  | gap {gap r : List Char} {ss : List Sentence} (hgap : Gap gap) (h : Source ss r) :
      Source ss (gap ++ r)
  | last {s : Sentence} {cs : List Char} (h : s.Written cs) : Source [s] (cs ++ ['.'])
  | cons {s : Sentence} {cs gap r : List Char} {more : List Sentence} (h : s.Written cs)
      (hgap : Gap gap) (hmore : Source more r) : Source (s :: more) (cs ++ '.' :: (gap ++ r))

/-! ## Comments -/

theorem stripComments_outside {c : Char} {r : List Char} (h : ¬ (c = '(' ∧ r.head? = some '*')) :
    stripComments 0 (c :: r) = c :: stripComments 0 r := by
  rw [stripComments]
  rintro r' rfl rfl
  exact h ⟨rfl, rfl⟩

theorem stripComments_inside {c : Char} {r : List Char} (hopen : ¬ (c = '(' ∧ r.head? = some '*'))
    (hclose : ¬ (c = '*' ∧ r.head? = some ')')) (depth : Nat) :
    stripComments (depth + 1) (c :: r) = stripComments (depth + 1) r := by
  rw [stripComments]
  · rintro r' rfl rfl
    exact hopen ⟨rfl, rfl⟩
  · rintro r' rfl rfl
    exact hclose ⟨rfl, rfl⟩

theorem Remark.text (cs : List Char) {r : List Char} (hopen : '(' ∉ cs) (hclose : '*' ∉ cs)
    (hr : Remark r) : Remark (cs ++ r) := by
  induction cs with
  | nil => exact hr
  | cons c cs ih =>
    rw [List.mem_cons, not_or] at hopen hclose
    exact .char (fun h => hopen.1 h.1.symm) (fun h => hclose.1 h.1.symm) (ih hopen.2 hclose.2)

theorem Remark.ne_nil {r : List Char} (h : Remark r) : r ≠ [] := by
  cases h <;> simp

/-- A comment leaves a space for each mark that closes one. -/
theorem Remark.strip {r : List Char} (h : Remark r) : ∃ blank, blank ≠ []
    ∧ (∀ c ∈ blank, isPlainWhite c = true)
    ∧ ∀ depth rest, stripComments (depth + 1) (r ++ rest) = blank ++ stripComments depth rest := by
  induction h with
  | close =>
    refine ⟨[' '], by simp, List.forall_mem_singleton.2 rfl, fun depth rest => ?_⟩
    simp [stripComments]
  | @char c r hopen hclose h ih =>
    obtain ⟨blank, hne, hblank, hstrip⟩ := ih
    refine ⟨blank, hne, hblank, fun depth rest => ?_⟩
    have hhead : (r ++ rest).head? = r.head? := List.head?_append_of_ne_nil r h.ne_nil
    rw [List.cons_append, stripComments_inside (hhead ▸ hopen) (hhead ▸ hclose), hstrip]
  | comment hinner h ihinner ih =>
    obtain ⟨blank, hne, hblank, hstrip⟩ := ihinner
    obtain ⟨blank', -, hblank', hstrip'⟩ := ih
    refine ⟨blank ++ blank', by simp [hne], List.forall_mem_append.2 ⟨hblank, hblank'⟩, ?_⟩
    intro depth rest
    rw [List.cons_append, List.cons_append, stripComments, List.append_assoc, hstrip, hstrip',
      List.append_assoc]

/-- A gap leaves white space. -/
theorem Gap.strip {gap : List Char} (h : Gap gap) : ∃ blank, blank ≠ []
    ∧ (∀ c ∈ blank, isPlainWhite c = true)
    ∧ ∀ rest, stripComments 0 (gap ++ rest) = blank ++ stripComments 0 rest := by
  induction h with
  | @white c h =>
    refine ⟨[c], by simp, by simpa using h, fun rest => stripComments_outside ?_⟩
    rintro ⟨rfl, -⟩
    cases h
  | comment h =>
    obtain ⟨blank, hne, hblank, hstrip⟩ := h.strip
    refine ⟨blank, hne, hblank, fun rest => ?_⟩
    rw [List.cons_append, List.cons_append, stripComments, hstrip]
  | append ha hb iha ihb =>
    obtain ⟨blank, hne, hblank, hstrip⟩ := iha
    obtain ⟨blank', -, hblank', hstrip'⟩ := ihb
    refine ⟨blank ++ blank', by simp [hne], List.forall_mem_append.2 ⟨hblank, hblank'⟩, ?_⟩
    intro rest
    rw [List.append_assoc, hstrip, hstrip', List.append_assoc]

theorem stripComments_verbatim {cs rest : List Char} (h : Uncommented cs)
    (hrest : ¬ (cs.getLast? = some '(' ∧ rest.head? = some '*')) :
    stripComments 0 (cs ++ rest) = cs ++ stripComments 0 rest := by
  induction cs with
  | nil => rfl
  | cons c r ih =>
    obtain ⟨hc, hr⟩ := List.isChain_cons.1 h
    have hmark : ¬ (c = '(' ∧ (r ++ rest).head? = some '*') := by
      rintro ⟨rfl, hhead⟩
      rcases r with _ | ⟨x, t⟩
      · exact hrest ⟨rfl, hhead⟩
      · exact hc x rfl ⟨rfl, Option.some.inj hhead⟩
    rw [List.cons_append, stripComments_outside hmark, ih hr, List.cons_append]
    rintro ⟨hlast, hhead⟩
    rcases r with _ | ⟨x, t⟩
    · cases hlast
    · exact hrest ⟨by rw [List.getLast?_cons_cons]; exact hlast, hhead⟩

theorem sentences_cons {c : Char} {r : List Char}
    (h : c = '.' → ∃ x t, r = x :: t ∧ isPlainWhite x = false) :
    sentences (c :: r) = (sentences r).modifyHead (c :: ·) := by
  rw [sentences, if_neg]
  rintro ⟨hc, hall⟩
  obtain ⟨x, t, rfl, hx⟩ := h hc
  simp [hx] at hall

theorem sentences_ended {cs rest : List Char} (h : Unended cs)
    (hrest : ∀ c ∈ rest.head?, isPlainWhite c = true) :
    sentences (cs ++ '.' :: rest) = cs :: sentences rest := by
  induction cs with
  | nil =>
    rw [List.nil_append, sentences, if_pos]
    exact ⟨rfl, by rcases rest with _ | ⟨x, t⟩ <;> simp_all⟩
  | cons c r ih =>
    obtain ⟨hc, hr⟩ := List.isChain_cons.1 h
    rw [List.cons_append, sentences_cons, ih hr, List.modifyHead_cons]
    rintro rfl
    rcases r with _ | ⟨x, t⟩
    · exact ⟨_, _, rfl, by decide⟩
    · exact ⟨_, _, rfl, hc x rfl rfl⟩

theorem sentences_white {cs : List Char} (h : ∀ c ∈ cs, isPlainWhite c = true) :
    sentences cs = [cs] := by
  induction cs with
  | nil => rfl
  | cons c r ih =>
    obtain ⟨hc, hr⟩ := List.forall_mem_cons.1 h
    rw [sentences_cons, ih hr, List.modifyHead_cons]
    rintro rfl
    cases hc

theorem Unended.append {a b : List Char} (ha : Unended a) (hb : Unended b)
    (h : a.getLast? ≠ some '.') : Unended (a ++ b) :=
  List.IsChain.append ha hb fun _ hx _ _ hdot => absurd (hdot ▸ hx) h

theorem unended_of_not_mem {cs : List Char} (h : '.' ∉ cs) : Unended cs := by
  induction cs with
  | nil => exact .nil
  | cons c r ih =>
    rw [List.mem_cons, not_or] at h
    exact List.isChain_cons.2 ⟨fun y _ hc => absurd hc.symm h.1, ih h.2⟩

/-! ## Words -/

/-- A word that no gap and no end of a sentence is part of. -/
structure IsWord (word : List Char) : Prop where
  ne : word ≠ []
  char : ∀ c ∈ word, isWhite c = false ∧ c ≠ '('
  last : word.getLast? ≠ some '.'

instance (word : List Char) : Decidable (IsWord word) :=
  decidable_of_iff (word ≠ [] ∧ (word.all fun c => !isWhite c && c ≠ '(') = true
      ∧ word.getLast? ≠ some '.')
    ⟨fun ⟨hne, hchar, hlast⟩ => ⟨hne, by simpa using hchar, hlast⟩,
      fun h => ⟨h.ne, by simpa using h.char, h.last⟩⟩

theorem IsWord.uncommented {word : List Char} (h : IsWord word) : Uncommented word :=
  List.isChain_iff_forall_rel_of_append_cons_cons.2 fun a b l₁ l₂ he hmark =>
    (h.char a (by simp [he])).2 hmark.1

theorem IsWord.unended {word : List Char} (h : IsWord word) : Unended word := by
  refine List.isChain_iff_forall_rel_of_append_cons_cons.2 fun a b l₁ l₂ he _ => ?_
  have hb := (h.char b (by simp [he])).1
  rw [← Bool.not_eq_true] at hb ⊢
  exact fun hplain => hb (Text.isWhite_of_isPlainWhite hplain)

theorem IsWord.strip {word : List Char} (h : IsWord word) (rest : List Char) :
    stripComments 0 (word ++ rest) = word ++ stripComments 0 rest :=
  stripComments_verbatim h.uncommented fun hmark =>
    (h.char _ (List.mem_of_getLast? hmark.1)).2 rfl

theorem white_of_plain {blank : List Char} (h : ∀ c ∈ blank, isPlainWhite c = true) :
    ∀ c ∈ blank, isWhite c = true := fun c hc => Text.isWhite_of_isPlainWhite (h c hc)

theorem dot_not_mem_of_plain {blank : List Char} (h : ∀ c ∈ blank, isPlainWhite c = true) :
    '.' ∉ blank := fun hmem => by cases h _ hmem

theorem getLast?_ne_dot {blank : List Char} (h : ∀ c ∈ blank, isPlainWhite c = true) :
    blank.getLast? ≠ some '.' := fun hlast =>
  dot_not_mem_of_plain h (List.mem_of_getLast? hlast)

theorem Spaced.strip {ws : List (List Char)} {cs : List Char} (h : Spaced ws cs)
    (hw : ∀ w ∈ ws, IsWord w) : ∃ bare, Unended bare ∧ words bare = ws
      ∧ ∀ rest, stripComments 0 (cs ++ rest) = bare ++ stripComments 0 rest := by
  induction h with
  | last word =>
    have hword := hw word (by simp)
    exact ⟨word, hword.unended, Text.words_word hword.ne fun c hc => (hword.char c hc).1,
      hword.strip⟩
  | gap word hgap =>
    have hword := hw word (by simp)
    obtain ⟨blank, hne, hblank, hstrip⟩ := hgap.strip
    refine ⟨word ++ blank, ?_, ?_, fun rest => ?_⟩
    · exact hword.unended.append (unended_of_not_mem (dot_not_mem_of_plain hblank)) hword.last
    · rw [← List.append_nil (word ++ blank), Text.words_of_word hword.ne
        (fun c hc => (hword.char c hc).1) hne (white_of_plain hblank)]
      rfl
    · rw [List.append_assoc, hword.strip, hstrip, List.append_assoc]
  | @cons word gap r more hgap h ih =>
    obtain ⟨hword, hmore⟩ := List.forall_mem_cons.1 hw
    obtain ⟨blank, hne, hblank, hstrip⟩ := hgap.strip
    obtain ⟨bare, hended, hbare, hrest⟩ := ih hmore
    refine ⟨word ++ blank ++ bare, ?_, ?_, fun rest => ?_⟩
    · rw [List.append_assoc]
      exact hword.unended.append ((unended_of_not_mem (dot_not_mem_of_plain hblank)).append hended
        (getLast?_ne_dot hblank)) hword.last
    · rw [Text.words_of_word hword.ne (fun c hc => (hword.char c hc).1) hne
        (white_of_plain hblank), hbare]
    · simp only [List.append_assoc, hword.strip, hstrip, hrest]

theorem mem_dotted {x : Char} {name : Logical} (h : x ∈ name.dotted.toList) :
    x = '.' ∨ ∃ c ∈ name, x ∈ c.toList := by
  induction name with
  | nil => simp [Logical.dotted] at h
  | cons c r ih =>
    rcases r with _ | ⟨d, r⟩
    · exact .inr ⟨c, by simp, by simpa [Logical.dotted] using h⟩
    · rw [Logical.dotted, String.intercalate_cons_cons, String.toList_append, String.toList_append,
        List.mem_append, List.mem_append] at h
      rcases h with (h | h) | h
      · exact .inr ⟨c, by simp, h⟩
      · exact .inl (by simpa using h)
      · obtain hx | ⟨e, he, hx⟩ := ih h
        · exact .inl hx
        · exact .inr ⟨e, List.mem_cons_of_mem _ he, hx⟩

theorem getLast?_dotted (front : Logical) {c : String} (h : c ≠ "") :
    (Logical.dotted (front ++ [c])).toList.getLast? = c.toList.getLast? := by
  by_cases hfront : front = []
  · simp [hfront, Logical.dotted]
  · have hne : c.toList ≠ [] := fun he => h (String.toList_eq_nil_iff.1 he)
    rw [Logical.toList_dotted_concat hfront, List.append_cons, List.getLast?_append_of_ne_nil _ hne]

namespace IsName

variable {name : Logical} (h : IsName name)

include h

theorem dotless : name.Dotless := fun c hc hdot => ((h.part c hc).2 _ hdot).2.1 rfl

theorem ofDotted : Logical.ofDotted name.dotted = name :=
  Logical.ofDotted_dotted h.dotless fun c hc => (h.part c hc).1

theorem char {x : Char} (hx : x ∈ name.dotted.toList) : isWhite x = false ∧ x ≠ '(' ∧ x ≠ ')' := by
  obtain rfl | ⟨c, hc, hx⟩ := mem_dotted hx
  · decide
  · obtain ⟨hwhite, -, hparen⟩ := (h.part c hc).2 x hx
    exact ⟨hwhite, hparen⟩

theorem isWord : IsWord name.dotted.toList := by
  obtain ⟨front, c, rfl⟩ := (List.eq_nil_or_concat' name).resolve_left h.ne
  obtain ⟨hne, hc⟩ := h.part c (by simp)
  have hlast := getLast?_dotted front hne
  have hdot : c.toList.getLast? ≠ some '.' := fun he => (hc _ (List.mem_of_getLast? he)).2.1 rfl
  refine ⟨fun he => ?_, fun x hx => ?_, hlast ▸ hdot⟩
  · rw [he, List.getLast?_nil] at hlast
    exact hne (String.toList_eq_nil_iff.1 (List.getLast?_eq_none_iff.1 hlast.symm))
  · exact ⟨(h.char hx).1, (h.char hx).2.1⟩

theorem nameOfWord : nameOfWord name.dotted = name := by
  have hparen : ∀ x ∈ name.dotted.toList, decide (x = '(' ∨ x = ')') = false := by
    intro x hx
    simpa using (h.char hx).2
  rw [Requirement.nameOfWord, Text.trim_eq_self hparen, String.ofList_toList, h.ofDotted]

end IsName

/-! ## Sentences -/

theorem isWord_opening (opening : Opening) : IsWord opening.word.toList := by
  cases opening <;> decide

theorem isWord_of_mem_wordsOf {origin : Option Logical} {opening : Option Opening}
    {names : List Logical} (horigin : ∀ o ∈ origin, IsName o) (hnames : ∀ n ∈ names, IsName n) :
    ∀ w ∈ (wordsOf origin opening names).map String.toList, IsWord w := by
  have hfrom : IsWord "From".toList := by decide
  have hrequire : IsWord "Require".toList := by decide
  intro w hw
  obtain ⟨word, hword, rfl⟩ := List.mem_map.1 hw
  rw [wordsOf, List.mem_append, List.mem_cons, List.mem_append] at hword
  rcases hword with hword | rfl | hword | hword
  · rcases origin with _ | o
    · cases hword
    · simp only [Option.map_some, Option.getD_some, List.mem_cons, List.not_mem_nil,
        or_false] at hword
      rcases hword with rfl | rfl
      · exact hfrom
      · exact (horigin o rfl).isWord
  · exact hrequire
  · rcases opening with _ | o
    · cases hword
    · obtain rfl : word = o.word := by simpa using hword
      exact isWord_opening o
  · obtain ⟨n, hn, rfl⟩ := List.mem_map.1 hword
    exact (hnames n hn).isWord

theorem ofNames_dotted (origin : Logical) {names : List Logical} (h : ∀ n ∈ names, IsName n) :
    ofNames origin (names.map Logical.dotted) = names.map (⟨origin, ·⟩) := by
  have hwords : ∀ n ∈ names, (nameOfWord ∘ Logical.dotted) n = id n := by
    intro n hn
    rw [Function.comp_apply, (h n hn).nameOfWord, id]
  rw [ofNames, List.map_map, List.map_congr_left hwords, List.map_id,
    List.filter_eq_self.2 fun n hn => by simpa using (h n hn).ne]

theorem ofWords_wordsOf {origin : Option Logical} {opening : Option Opening} {names : List Logical}
    (horigin : ∀ o ∈ origin, IsName o) (hnames : ∀ n ∈ names, IsName n)
    (hfirst : ∀ n ∈ names.head?, n.dotted ≠ "Import" ∧ n.dotted ≠ "Export") :
    ofWords (wordsOf origin opening names) = names.map (⟨origin.getD [], ·⟩) := by
  have hafter : ∀ o : Logical, afterOrigin o
      ("Require" :: ((opening.map Opening.word).toList ++ names.map Logical.dotted)) =
        names.map (⟨o, ·⟩) := by
    intro o
    rw [← ofNames_dotted o hnames]
    rcases opening with _ | _ | _
    · rcases names with _ | ⟨n, r⟩
      · rfl
      · obtain ⟨himport, hexport⟩ := hfirst n rfl
        simp [afterOrigin, himport, hexport]
    · rfl
    · rfl
  rcases origin with _ | o
  · exact hafter []
  · have hwords : wordsOf (some o) opening names = "From" :: o.dotted ::
        "Require" :: ((opening.map Opening.word).toList ++ names.map Logical.dotted) := rfl
    rw [hwords, ofWords, (horigin o rfl).ofDotted, hafter, Option.getD_some]

theorem ofWords_other {cs : List Char} (hfrom : ¬ Leads "From".toList cs)
    (hrequire : ¬ Leads "Require".toList cs) : ofWords ((words cs).map String.ofList) = [] := by
  rcases hw : words cs with _ | ⟨word, r⟩
  · rfl
  · obtain ⟨-, -, hleads⟩ := Text.head?_words_eq_some.1 (congrArg List.head? hw)
    have hne : ∀ key : String, ¬ Leads key.toList cs → String.ofList word ≠ key := by
      rintro _ hkey rfl
      exact hkey (String.toList_ofList ▸ hleads)
    simp [ofWords, afterOrigin, hne _ hfrom, hne _ hrequire]

/-- The requirements of a text without comments. -/
def stated (cs : List Char) : List Requirement :=
  (sentences cs).flatMap fun s => ofWords ((words s).map String.ofList)

/-- A text that no end of a sentence is part of, and whose words state some requirements. -/
structure States (bare : List Char) (rs : List Requirement) : Prop where
  unended : Unended bare
  words : ofWords ((words bare).map String.ofList) = rs

section States

variable {blank bare rest : List Char} {rs : List Requirement}

theorem stated_white (h : ∀ c ∈ blank, isPlainWhite c = true) : stated blank = [] := by
  rw [stated, sentences_white h, List.flatMap_singleton, Text.words_eq_nil (white_of_plain h)]
  rfl

theorem States.behind (h : States bare rs) (hblank : ∀ c ∈ blank, isPlainWhite c = true) :
    States (blank ++ bare) rs where
  unended := (unended_of_not_mem (dot_not_mem_of_plain hblank)).append h.unended
    (getLast?_ne_dot hblank)
  words := by rw [Text.words_append_of_white (white_of_plain hblank), h.words]

theorem States.stated (h : States bare rs) (hrest : ∀ c ∈ rest.head?, isPlainWhite c = true) :
    stated (bare ++ '.' :: rest) = rs ++ Requirement.stated rest := by
  rw [Requirement.stated, sentences_ended h.unended hrest, List.flatMap_cons, h.words]
  rfl

end States

/-- Up to its dot a sentence is left as a text that states its requirements. -/
theorem Sentence.Written.strip {s : Sentence} {cs : List Char} (h : s.Written cs) :
    ∃ bare, States bare s.requirements
      ∧ ∀ rest, stripComments 0 (cs ++ '.' :: rest) = bare ++ '.' :: stripComments 0 rest := by
  have hdot : ∀ rest, stripComments 0 ('.' :: rest) = '.' :: stripComments 0 rest :=
    fun rest => stripComments_outside fun hmark => by cases hmark.1
  cases h with
  | require horigin hnames hne hfirst h =>
    obtain ⟨bare, hended, hwords, hstrip⟩ := h.strip (isWord_of_mem_wordsOf horigin hnames)
    refine ⟨bare, ⟨hended, ?_⟩, fun rest => by rw [hstrip, hdot]⟩
    have hid : String.ofList ∘ String.toList = id := funext fun w => String.ofList_toList
    rw [hwords, List.map_map, hid, List.map_id]
    exact ofWords_wordsOf horigin hnames hfirst
  | other hcomment hend hfrom hrequire =>
    refine ⟨cs, ⟨hend, ofWords_other hfrom hrequire⟩, fun rest => ?_⟩
    have hmark : ('.' :: rest).head? ≠ some '*' := by simp
    rw [stripComments_verbatim hcomment fun h => hmark h.2, hdot]

theorem Source.stated {ss : List Sentence} {cs : List Char} (h : Source ss cs) :
    ∀ blank : List Char, (∀ c ∈ blank, isPlainWhite c = true) →
      stated (blank ++ stripComments 0 cs) = ss.flatMap Sentence.requirements := by
  -- A gap is left as white space at the start of the sentence behind it.
  induction h with
  | nil =>
    intro blank hblank
    have hstrip : stripComments 0 [] = [] := rfl
    rw [hstrip, List.append_nil, stated_white hblank, List.flatMap_nil]
  | gap hgap _ ih =>
    intro blank hblank
    obtain ⟨blank', -, hblank', hgapped⟩ := hgap.strip
    rw [hgapped, ← List.append_assoc]
    exact ih _ (List.forall_mem_append.2 ⟨hblank, hblank'⟩)
  | last h =>
    intro blank hblank
    obtain ⟨bare, hbare, hstrip⟩ := h.strip
    have hend : Requirement.stated (stripComments 0 []) = [] := rfl
    rw [hstrip, ← List.append_assoc, (hbare.behind hblank).stated (by simp [stripComments]), hend,
      List.flatMap_singleton, List.append_nil]
  | @cons s cs gap r more h hgap hmore ih =>
    intro blank hblank
    obtain ⟨bare, hbare, hstrip⟩ := h.strip
    obtain ⟨blank', hne, hblank', hgapped⟩ := hgap.strip
    have hhead : ∀ x ∈ (blank' ++ stripComments 0 r).head?, isPlainWhite x = true := by
      intro x hx
      rw [List.head?_append_of_ne_nil _ hne] at hx
      exact hblank' x (List.mem_of_head? hx)
    rw [hstrip, hgapped, ← List.append_assoc, (hbare.behind hblank).stated hhead, ih blank' hblank',
      List.flatMap_cons]

/-- What is written in sentences is read, whatever white space and comments stand between them and
between their words. -/
theorem parse_written {ss : List Sentence} {source : String} (h : Source ss source.toList) :
    parse source = ss.flatMap Sentence.requirements :=
  h.stated [] (by simp)

/-- Comments that join two words, hold a requirement and others, and touch a dot. -/
theorem parse_written_remarks :
    parse "From A.B(**)Require(* Require X. (* n *) *)Import C D.E.(**)Check (1).\nRequire F." =
      [⟨["A", "B"], ["C"]⟩, ⟨["A", "B"], ["D", "E"]⟩, ⟨[], ["F"]⟩] := by
  have hblank : Gap [' '] := .white (by decide)
  have hempty : Gap "(**)".toList := .comment .close
  have hnested : Gap "(* Require X. (* n *) *)".toList :=
    .comment (.text " Require X. ".toList (by decide) (by decide)
      (.comment (.text " n ".toList (by decide) (by decide) .close)
        (.text [' '] (by decide) (by decide) .close)))
  have hfirst : Sentence.Written (.require (some ["A", "B"]) (some .import) [["C"], ["D", "E"]])
      _ :=
    .require (by decide) (by decide) (by decide) (by decide)
      (.cons hblank (.cons hempty (.cons hnested (.cons hblank (.cons hblank (.last _))))))
  have hsecond : Sentence.Written (.other "Check (1)".toList) "Check (1)".toList := by
    have hword : ∀ key : List Char, IsWord key → key ≠ "Check".toList →
        ¬ Leads key "Check (1)".toList := by
      intro key h hkey hleads
      have hhead := Text.head?_words_eq_some.2 ⟨h.ne, fun c hc => (h.char c hc).1, hleads⟩
      exact hkey (Option.some.inj hhead).symm
    exact .other (by decide) (by decide) (hword _ (by decide) (by decide))
      (hword _ (by decide) (by decide))
  have hthird : Sentence.Written (.require none none [["F"]]) _ :=
    .require (by decide) (by decide) (by decide) (by decide) (.cons hblank (.last _))
  have hbreak : Gap ['\n'] := .white (by decide)
  have hsource : Source [.require (some ["A", "B"]) (some .import) [["C"], ["D", "E"]],
        .other "Check (1)".toList, .require none none [["F"]]]
      "From A.B(**)Require(* Require X. (* n *) *)Import C D.E.(**)Check (1).\nRequire F.".toList :=
    by
    convert Source.cons hfirst hempty (.cons hsecond hbreak (.last hthird)) using 1
    decide +kernel
  exact parse_written hsource

end Bindery.Requirement
