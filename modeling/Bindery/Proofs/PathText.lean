import Bindery.Path
import Bindery.Proofs.TextParts
import Mathlib.Data.List.Basic
import Mathlib.Data.List.TakeDrop
import Mathlib.Data.List.TakeWhile

/-!
# Paths in normal form

A path in normal form is the text of its steps, from the root or not: `join_eq_text`. The steps
are read back by `steps_text`, so a text has one list of steps, `text_injective`, and joining a
name to a path adds a step to it, `join_text_step`, which is taken off again by `dirname_text` and
`basename_text`. So whatever is joined is in normal form: `join_normal`.
-/

namespace Bindery

namespace Text

variable {sep : Char}

theorem not_mem_of_mem_splitOn {cs piece : List Char} (h : piece ∈ cs.splitOn sep) :
    sep ∉ piece := by
  induction cs generalizing piece with
  | nil =>
    rw [List.splitOn_nil, List.mem_singleton] at h
    simp [h]
  | cons c r ih =>
    rw [List.splitOn_cons_eq_if_modifyHead] at h
    split at h
    · rcases List.mem_cons.1 h with rfl | h
      · simp
      · exact ih h
    · rename_i hc
      rcases hr : r.splitOn sep with _ | ⟨first, rest⟩
      · exact absurd hr (List.splitOn_ne_nil _ _)
      · rw [hr, List.modifyHead_cons] at h
        rcases List.mem_cons.1 h with rfl | h
        · have hfirst : sep ∉ first := ih (by simp [hr])
          have hne : sep ≠ c := fun he => hc (by simp [he])
          simp [hne, hfirst]
        · exact ih (by simp [hr, h])

theorem splitLast?_append {front back : List Char} (h : sep ∉ back) :
    splitLast? sep (front ++ sep :: back) = some (front, back) := by
  have hback : ∀ c ∈ back.reverse, (c ≠ sep) = True := by
    intro c hc
    rw [List.mem_reverse] at hc
    exact eq_true fun he => h (he ▸ hc)
  have hspan : (front ++ sep :: back).reverse.span (· ≠ sep) =
      (back.reverse, sep :: front.reverse) := by
    rw [List.reverse_append, List.reverse_cons, List.append_assoc, List.span_eq_takeWhile_dropWhile]
    rw [List.takeWhile_append_of_pos (by simpa using hback),
      List.dropWhile_append_of_pos (by simpa using hback)]
    simp
  rw [splitLast?, hspan]
  simp

theorem splitLast?_eq_none {cs : List Char} (h : sep ∉ cs) : splitLast? sep cs = none := by
  have hspan : cs.reverse.span (· ≠ sep) = (cs.reverse, []) := by
    rw [List.span_eq_takeWhile_dropWhile]
    have hall : ∀ c ∈ cs.reverse, (fun c => decide (c ≠ sep)) c = true := by
      intro c hc
      rw [List.mem_reverse] at hc
      rw [decide_eq_true_eq]
      exact fun he => h (he ▸ hc)
    rw [List.takeWhile_eq_self_iff.2 hall, List.dropWhile_eq_nil_iff.2 hall]
  rw [splitLast?, hspan]

theorem splitLast?_inv {cs front back : List Char}
    (h : splitLast? sep cs = some (front, back)) : cs = front ++ sep :: back := by
  by_cases hsep : sep ∈ cs
  · obtain ⟨after, before, hcs, hlast⟩ :=
      List.eq_append_cons_of_mem (List.mem_reverse.2 hsep)
    have hsplit : cs = before.reverse ++ sep :: after.reverse := by
      rw [← List.reverse_reverse cs, hcs]
      simp
    have hsome : splitLast? sep cs = some (before.reverse, after.reverse) := by
      rw [hsplit]
      exact splitLast?_append (by simpa using hlast)
    cases h.symm.trans hsome
    exact hsplit
  · rw [splitLast?_eq_none hsep] at h
    cases h

theorem trimEnd_eq_self {p : Char → Bool} {cs : List Char} {c : Char} (hp : p c = false) :
    trimEnd p (cs ++ [c]) = cs ++ [c] := by
  simp [trimEnd, hp]

theorem after?_eq_some {start s rest : String} :
    after? start s = some rest ↔ s = start ++ rest := by
  rw [after?, Option.map_eq_some_iff]
  constructor
  · rintro ⟨cs, h, rfl⟩
    rw [List.isPrefixOf?_eq_some_iff_append_eq] at h
    rw [← String.toList_inj, String.toList_append, String.toList_ofList, h]
  · rintro rfl
    refine ⟨rest.toList, ?_, by simp⟩
    rw [List.isPrefixOf?_eq_some_iff_append_eq, String.toList_append]

theorem before?_eq_some {ending s rest : String} :
    before? ending s = some rest ↔ s = rest ++ ending := by
  rw [before?, Option.map_eq_some_iff]
  constructor
  · rintro ⟨cs, h, rfl⟩
    rw [List.isSuffixOf?_eq_some_iff_append_eq] at h
    rw [← String.toList_inj, String.toList_append, String.toList_ofList, h]
  · rintro rfl
    refine ⟨rest.toList, ?_, by simp⟩
    rw [List.isSuffixOf?_eq_some_iff_append_eq, String.toList_append]

theorem getLast?_append {ending : String} (h : ending ≠ "") (s : String) :
    (s ++ ending).toList.getLast? = ending.toList.getLast? := by
  rw [String.toList_append, List.getLast?_append_of_ne_nil]
  exact fun he => h (String.toList_eq_nil_iff.1 he)

end Text

namespace Path

/-- What a part of a path in normal form looks like. -/
def IsStep (c : String) : Prop := c ≠ "" ∧ c ≠ "." ∧ '/' ∉ c.toList

def AllSteps (cs : List String) : Prop := ∀ c ∈ cs, IsStep c

/-- The path of some steps, from the root or not. -/
def text (root : Bool) (cs : List String) : String :=
  (if root then "/" else "") ++ "/".intercalate cs

theorem join_eq_text (segments : List String) :
    join segments = text (isAbsolute segments) (segments.flatMap steps) := rfl

theorem AllSteps.nil : AllSteps [] := by simp [AllSteps]

theorem isStep_of_length {c : String} (h : 2 ≤ c.length) (hslash : '/' ∉ c.toList) : IsStep c := by
  refine ⟨?_, ?_, hslash⟩
  · rintro rfl
    exact absurd h (by decide)
  · rintro rfl
    exact absurd h (by decide)

theorem IsStep.allSteps {c : String} (h : IsStep c) : AllSteps [c] := by
  simpa [AllSteps] using h

theorem AllSteps.append {cs ds : List String} (hc : AllSteps cs) (hd : AllSteps ds) :
    AllSteps (cs ++ ds) := by
  intro c h
  rcases List.mem_append.1 h with h | h
  · exact hc c h
  · exact hd c h

theorem AllSteps.left {cs ds : List String} (h : AllSteps (cs ++ ds)) : AllSteps cs :=
  fun c hc => h c (List.mem_append_left _ hc)

theorem AllSteps.right {cs ds : List String} (h : AllSteps (cs ++ ds)) : AllSteps ds :=
  fun c hc => h c (List.mem_append_right _ hc)

theorem allSteps_steps (p : String) : AllSteps (steps p) := by
  intro c hc
  rw [steps, List.mem_filter] at hc
  obtain ⟨hmem, hne⟩ := hc
  obtain ⟨piece, hpiece, rfl⟩ := List.mem_map.1 hmem
  rw [decide_eq_true_eq] at hne
  refine ⟨hne.1, hne.2, ?_⟩
  rw [String.toList_ofList]
  exact Text.not_mem_of_mem_splitOn hpiece

theorem pieces_intercalate {cs : List String} (h : AllSteps cs) (hne : cs ≠ []) :
    Text.pieces '/' ("/".intercalate cs) = cs :=
  Text.pieces_intercalate rfl (fun c hc => (h c hc).2.2) hne

theorem filter_steps {cs : List String} (h : AllSteps cs) :
    cs.filter (fun p => p ≠ "" ∧ p ≠ ".") = cs := by
  rw [List.filter_eq_self]
  intro c hc
  rw [decide_eq_true_eq]
  exact ⟨(h c hc).1, (h c hc).2.1⟩

theorem pieces_text_root {cs : List String} (h : AllSteps cs) (hne : cs ≠ []) :
    Text.pieces '/' (text true cs) = "" :: cs := by
  have hroot : Text.pieces '/' (text true cs) = "" :: Text.pieces '/' ("/".intercalate cs) := by
    simp [Text.pieces, text, List.splitOn_cons_eq_if_modifyHead]
  rw [hroot, pieces_intercalate h hne]

/-- A path in normal form has the steps that it is the text of. -/
theorem steps_text (root : Bool) {cs : List String} (h : AllSteps cs) :
    steps (text root cs) = cs := by
  rcases cs with _ | ⟨c, r⟩
  · cases root <;> rfl
  · cases root
    · have htext : text false (c :: r) = "/".intercalate (c :: r) := by simp [text]
      rw [steps, htext, pieces_intercalate h (List.cons_ne_nil c r), filter_steps h]
    · rw [steps, pieces_text_root h (List.cons_ne_nil c r), List.filter_cons_of_neg (by simp),
        filter_steps h]

theorem IsStep.steps {c : String} (h : IsStep c) : steps c = [c] := by
  have hc := steps_text false h.allSteps
  simpa [text] using hc

theorem startsAtRoot_step {c : String} (h : IsStep c) (s : String) :
    startsAtRoot (c ++ s) = false := by
  obtain ⟨hne, -, hslash⟩ := h
  rcases hc : c.toList with _ | ⟨x, r⟩
  · exact absurd (String.toList_eq_nil_iff.1 hc) hne
  · rw [hc] at hslash
    have hx : x ≠ '/' := fun he => hslash (by simp [he])
    simp [startsAtRoot, hc, hx]

theorem startsAtRoot_text (root : Bool) {cs : List String} (h : AllSteps cs) :
    startsAtRoot (text root cs) = root := by
  cases root
  · rcases cs with _ | ⟨c, _ | ⟨d, r⟩⟩
    · rfl
    · have := startsAtRoot_step (h c (by simp)) ""
      simpa [text] using this
    · have := startsAtRoot_step (h c (by simp)) ("/" ++ "/".intercalate (d :: r))
      simpa [text, String.append_assoc] using this
  · simp [startsAtRoot, text]

theorem text_injective {root root' : Bool} {cs cs' : List String} (h : AllSteps cs)
    (h' : AllSteps cs') (he : text root cs = text root' cs') : root = root' ∧ cs = cs' := by
  constructor
  · rw [← startsAtRoot_text root h, he, startsAtRoot_text root' h']
  · rw [← steps_text root h, he, steps_text root' h']

theorem text_eq_empty {root : Bool} {cs : List String} (h : AllSteps cs)
    (he : text root cs = "") : root = false ∧ cs = [] :=
  text_injective h .nil (show text root cs = text false [] from he)

theorem isAbsolute_cons {s : String} (h : s ≠ "") (r : List String) :
    isAbsolute (s :: r) = startsAtRoot s := by
  rw [isAbsolute, List.find?_cons_of_pos (by simpa using h)]

theorem isAbsolute_step {c : String} (h : IsStep c) : isAbsolute [c] = false := by
  have hstart := startsAtRoot_step h ""
  rw [String.append_empty] at hstart
  rw [isAbsolute_cons h.1, hstart]

/-- Segments that do not start at the root leave it to the one before them. -/
theorem isAbsolute_before {r : List String} (h : isAbsolute r = false) (s : String) :
    isAbsolute (s :: r) = isAbsolute [s] := by
  by_cases hs : s = ""
  · subst hs
    unfold isAbsolute at h ⊢
    rw [List.find?_cons_of_neg (by simp), h]
    rfl
  · rw [isAbsolute_cons hs, isAbsolute_cons hs]

theorem isAbsolute_text (root : Bool) {cs : List String} (h : AllSteps cs) :
    isAbsolute [text root cs] = root := by
  by_cases he : text root cs = ""
  · obtain ⟨rfl, rfl⟩ := text_eq_empty h he
    rfl
  · rw [isAbsolute_cons he, startsAtRoot_text root h]

/-- A path in normal form stays as it is. -/
theorem join_text (root : Bool) {cs : List String} (h : AllSteps cs) :
    join [text root cs] = text root cs := by
  rw [join_eq_text, isAbsolute_text root h, List.flatMap_singleton, steps_text root h]

theorem join_text_step (root : Bool) {cs : List String} {c : String} (h : AllSteps cs)
    (hc : IsStep c) : join [text root cs, c] = text root (cs ++ [c]) := by
  rw [join_eq_text, isAbsolute_before (isAbsolute_step hc), isAbsolute_text root h,
    List.flatMap_cons, List.flatMap_singleton, steps_text root h, hc.steps]

/-- A directory holds itself under the name of a dot. -/
theorem join_dot (p : String) : join [join [p], "."] = join [p] := by
  have hdot : isAbsolute ["."] = false ∧ steps "." = [] := by decide
  rw [join_eq_text [p], List.flatMap_singleton, join_eq_text, isAbsolute_before hdot.1,
    isAbsolute_text _ (allSteps_steps p), List.flatMap_cons, List.flatMap_singleton, hdot.2,
    List.append_nil, steps_text _ (allSteps_steps p)]

/-- A path that joining leaves as it is is the text of its steps. -/
theorem eq_text_of_join {p : String} (h : join [p] = p) :
    p = text (isAbsolute [p]) (steps p) := by
  rw [join_eq_text, List.flatMap_singleton] at h
  exact h.symm

theorem toList_text_concat (root : Bool) (cs : List String) (c : String) :
    (text root (cs ++ [c])).toList =
      (if cs = [] then (if root then ['/'] else []) else (text root cs).toList ++ ['/'])
        ++ c.toList := by
  by_cases h : cs = []
  · subst h
    cases root <;> simp [text]
  · rw [if_neg h, text, String.intercalate_append_of_ne_nil h (by simp)]
    cases root <;> simp [text]

theorem IsStep.exists_last {c : String} (h : IsStep c) :
    ∃ front x, c.toList = front ++ [x] ∧ x ≠ '/' := by
  obtain ⟨hne, -, hslash⟩ := h
  rcases List.eq_nil_or_concat c.toList with hnil | ⟨front, x, hx⟩
  · exact absurd (String.toList_eq_nil_iff.1 hnil) hne
  · rw [List.concat_eq_append] at hx
    exact ⟨front, x, hx, fun he => hslash (by simp [hx, he])⟩

/-- A path with steps does not end in a slash. -/
theorem exists_last_text (root : Bool) {cs : List String} {c : String} (hc : IsStep c) :
    ∃ front x, (text root (cs ++ [c])).toList = front ++ [x] ∧ x ≠ '/' := by
  obtain ⟨front, x, hx, hne⟩ := hc.exists_last
  exact ⟨_, x, by rw [toList_text_concat, hx, ← List.append_assoc], hne⟩

theorem trimmed_text (root : Bool) {cs : List String} {c : String} (hc : IsStep c) :
    trimmed (text root (cs ++ [c])) = (text root (cs ++ [c])).toList := by
  obtain ⟨front, x, hx, hne⟩ := exists_last_text root hc
  rw [trimmed, hx]
  exact Text.trimEnd_eq_self (by simpa using hne)

theorem exists_trimmed_basename (path : String) :
    ∃ front, trimmed path = front ++ (basename path).toList := by
  unfold basename
  split
  · rename_i front base hsplit
    refine ⟨front ++ ['/'], ?_⟩
    rw [Text.splitLast?_inv hsplit, String.toList_ofList, List.append_assoc]
    rfl
  · exact ⟨[], by rw [String.toList_ofList, List.nil_append]⟩

/-- The last part of a path stands at its end, unless slashes do. -/
theorem exists_basename {path : String} (h : path.toList.getLast? ≠ some '/') :
    ∃ front, path.toList = front ++ (basename path).toList := by
  have htrimmed : trimmed path = path.toList := by
    rcases List.eq_nil_or_concat path.toList with hnil | ⟨front, c, hc⟩
    · rw [trimmed, hnil]
      rfl
    · rw [hc, List.concat_eq_append, List.getLast?_concat] at h
      rw [trimmed, hc, List.concat_eq_append]
      exact Text.trimEnd_eq_self (by simpa using h)
  rw [← htrimmed]
  exact exists_trimmed_basename path

/-- The last slash of a path stands before its last step. -/
theorem splitLast?_text (root : Bool) {cs : List String} {c : String} (hc : IsStep c) :
    Text.splitLast? '/' (trimmed (text root (cs ++ [c]))) =
      if cs = [] ∧ root = false then none
      else some (if cs = [] then [] else (text root cs).toList, c.toList) := by
  rw [trimmed_text root hc, toList_text_concat]
  by_cases h : cs = []
  · subst h
    cases root
    · simp [Text.splitLast?_eq_none hc.2.2]
    · have hsplit : Text.splitLast? '/' ([] ++ '/' :: c.toList) = some ([], c.toList) :=
        Text.splitLast?_append hc.2.2
      simpa using hsplit
  · rw [if_neg h, List.append_assoc, List.singleton_append, Text.splitLast?_append hc.2.2]
    simp [h]

theorem basename_text (root : Bool) {cs : List String} {c : String} (hc : IsStep c) :
    basename (text root (cs ++ [c])) = c := by
  rw [basename, splitLast?_text root hc]
  by_cases h : cs = [] ∧ root = false
  · rw [if_pos h, trimmed_text root hc]
    simp [h, text]
  · simp [h]

/-- Without its last step a path is that of its directory. -/
theorem dirname_text (root : Bool) {cs : List String} {c : String} (h : AllSteps cs)
    (hc : IsStep c) : dirname (text root (cs ++ [c])) = text root cs := by
  rw [dirname, splitLast?_text root hc]
  by_cases hcs : cs = []
  · subst hcs
    cases root <;> simp [text]
  · rw [if_neg fun h => hcs h.1, if_neg hcs]
    rcases hdir : (text root cs).toList with _ | ⟨x, r⟩
    · exact absurd (text_eq_empty h (String.toList_eq_nil_iff.1 hdir)).2 hcs
    · simp [← hdir]

/-- A path without a slash that leads it. -/
def unrooted (path : String) : String := (Text.after? "/" path).getD path

/-- The parts of a path, but for a slash that leads it. -/
def components (path : String) : List String :=
  if unrooted path = "" then [] else Text.pieces '/' (unrooted path)

theorem unrooted_text (root : Bool) {cs : List String} (h : AllSteps cs) :
    unrooted (text root cs) = text false cs := by
  cases root
  · have hafter : Text.after? "/" (text false cs) = none := by
      rw [Option.eq_none_iff_forall_ne_some]
      intro rest hrest
      have hstart := startsAtRoot_text false h
      rw [Text.after?_eq_some.1 hrest] at hstart
      simp [startsAtRoot] at hstart
    rw [unrooted, hafter, Option.getD_none]
  · have hafter : Text.after? "/" (text true cs) = some (text false cs) :=
      Text.after?_eq_some.2 (by simp [text])
    rw [unrooted, hafter, Option.getD_some]

theorem components_text (root : Bool) {cs : List String} (h : AllSteps cs) :
    components (text root cs) = cs := by
  rw [components, unrooted_text root h]
  split_ifs with hempty
  · exact (text_eq_empty h hempty).2.symm
  · have hne : cs ≠ [] := by
      rintro rfl
      exact hempty rfl
    simpa [text] using pieces_intercalate h hne

theorem allSteps_flatMap (segments : List String) : AllSteps (segments.flatMap steps) := by
  intro c hc
  obtain ⟨s, -, hc⟩ := List.mem_flatMap.1 hc
  exact allSteps_steps s c hc

theorem isAbsolute_eq_true {segments : List String} : isAbsolute segments = true ↔
    ∃ s, segments.find? (· ≠ "") = some s ∧ startsAtRoot s = true := by
  unfold isAbsolute
  rcases segments.find? (· ≠ "") with _ | s <;> simp

/-- A path with a step is that of its directory and its last part, which is a step. -/
theorem join_dirname_basename (root : Bool) {cs : List String} (h : AllSteps cs) (hne : cs ≠ []) :
    join [dirname (text root cs), basename (text root cs)] = text root cs
      ∧ IsStep (basename (text root cs)) := by
  obtain ⟨front, c, rfl⟩ := (List.eq_nil_or_concat cs).resolve_left hne
  rw [List.concat_eq_append] at h ⊢
  have hc : IsStep c := h c (by simp)
  rw [dirname_text root h.left hc, basename_text root hc]
  exact ⟨join_text_step root h.left hc, hc⟩

/-- What is joined is a path in normal form: its parts are those of the segments that are neither
empty nor a dot, joining it again changes nothing, it is put together from its directory and its
last part if it has parts, and it is from the root if the first segment that is not empty is. -/
theorem join_normal (segments : List String) :
    components (join segments) = segments.flatMap steps
      ∧ (∀ c ∈ components (join segments), c ≠ "" ∧ c ≠ ".")
      ∧ join [join segments] = join segments
      ∧ (join segments ≠ "" → join segments ≠ "/" →
          join [dirname (join segments), basename (join segments)] = join segments
            ∧ basename (join segments) ≠ "" ∧ '/' ∉ (basename (join segments)).toList)
      ∧ (startsAtRoot (join segments) = true ↔
          ∃ s, segments.find? (· ≠ "") = some s ∧ startsAtRoot s = true) := by
  have hsteps := allSteps_flatMap segments
  rw [join_eq_text, components_text _ hsteps, startsAtRoot_text _ hsteps, isAbsolute_eq_true]
  refine ⟨rfl, fun c hc => ⟨(hsteps c hc).1, (hsteps c hc).2.1⟩, join_text _ hsteps, ?_, Iff.rfl⟩
  intro hempty hroot
  have hne : segments.flatMap steps ≠ [] := by
    intro hnil
    rw [hnil] at hempty hroot
    cases habs : isAbsolute segments
    · exact hempty (by rw [habs]; rfl)
    · exact hroot (by rw [habs]; rfl)
  obtain ⟨hjoin, hbase⟩ := join_dirname_basename (isAbsolute segments) hsteps hne
  exact ⟨hjoin, hbase.1, hbase.2.2⟩

def knottedSegments : List String := ["", "/", "./lib//", "/A.v/."]

theorem join_normal_knotted :
    join knottedSegments = "/lib/A.v" ∧ join knottedSegments ≠ "" ∧ join knottedSegments ≠ "/"
      ∧ join [dirname (join knottedSegments), basename (join knottedSegments)]
          = join knottedSegments := by
  have hjoin : join knottedSegments = "/lib/A.v" := by decide +kernel
  have hempty : join knottedSegments ≠ "" := by decide +kernel
  have hroot : join knottedSegments ≠ "/" := by decide +kernel
  obtain ⟨-, -, -, hparts, -⟩ := join_normal knottedSegments
  exact ⟨hjoin, hempty, hroot, (hparts hempty hroot).1⟩

end Path

end Bindery
