import Bindery.Proofs.PathText
import Bindery.Search.Record

/-!
# Files of modules

A file carries a module if its name is a stem and one of the module extensions, of which no name
has two: `moduleStem?_eq_some`. The extension of its path is that one, `extension?_moduleFile`, and
the name of the module with it gives the name of the file back, `logical_append_extension`.
-/

namespace Bindery

open Bindery.Path (IsStep isStep_of_length)

/-- No module extension ends another. -/
theorem moduleExtension_unique {e e' : String} (he : e ∈ moduleExtensions)
    (he' : e' ∈ moduleExtensions) {front front' : String} (h : front ++ e = front' ++ e') :
    e = e' := by
  have hall : ∀ x ∈ moduleExtensions, ∀ y ∈ moduleExtensions,
      x.toList.isSuffixOf y.toList = true → x = y := by decide
  have hlist := congrArg String.toList h
  rw [String.toList_append, String.toList_append] at hlist
  rcases List.suffix_or_suffix_of_suffix (List.suffix_append front.toList e.toList)
    (hlist ▸ List.suffix_append front'.toList e'.toList) with hs | hs
  · exact hall e he e' he' (List.isSuffixOf_iff_suffix.2 hs)
  · exact (hall e' he' e he (List.isSuffixOf_iff_suffix.2 hs)).symm

theorem before?_moduleExtension {e e' s : String} (he : e ∈ moduleExtensions)
    (he' : e' ∈ moduleExtensions) :
    (Text.before? e (s ++ e')).isSome = true ↔ e = e' := by
  rw [Option.isSome_iff_exists]
  constructor
  · rintro ⟨rest, h⟩
    rw [Text.before?_eq_some] at h
    exact moduleExtension_unique he he' h.symm
  · rintro rfl
    exact ⟨s, Text.before?_eq_some.2 rfl⟩

theorem findSome?_before? {c : String} : ∀ {exts : List String},
    (∀ e ∈ exts, e ∈ moduleExtensions) → ∀ {stem : String},
      (exts.findSome? (Text.before? · c) = some stem ↔ ∃ e ∈ exts, c = stem ++ e)
  | [], _, stem => by simp
  | e :: r, h, stem => by
    have hr : r.findSome? (Text.before? · c) = some stem ↔ ∃ e ∈ r, c = stem ++ e :=
      findSome?_before? fun x hx => h x (List.mem_cons_of_mem _ hx)
    rw [List.findSome?_cons]
    rcases hb : Text.before? e c with _ | rest
    · simp only [hr, List.mem_cons, exists_eq_or_imp]
      refine ⟨.inr, fun hor => hor.resolve_left fun hc => ?_⟩
      rw [Text.before?_eq_some.2 hc] at hb
      cases hb
    · rw [Text.before?_eq_some] at hb
      simp only [Option.some.injEq]
      constructor
      · rintro rfl
        exact ⟨e, by simp, hb⟩
      · rintro ⟨x, hx, hc⟩
        have he : e = x :=
          moduleExtension_unique (h e (by simp)) (h x hx) (hb.symm.trans hc)
        subst he
        exact (String.append_left_inj e).1 (hb.symm.trans hc)

theorem moduleStem?_eq_some {c stem : String} :
    moduleStem? c = some stem ↔ stem ≠ "" ∧ ∃ e ∈ moduleExtensions, c = stem ++ e := by
  have hfind : moduleExtensions.findSome? (Text.before? · c) = some stem ↔
      ∃ e ∈ moduleExtensions, c = stem ++ e := findSome?_before? fun _ he => he
  rw [← hfind, moduleStem?]
  split
  · rename_i h
    rw [h]
    simp only [reduceCtorEq, Option.some.injEq, false_iff, not_and]
    exact fun hne he => hne he.symm
  · rename_i h
    refine ⟨fun he => ⟨?_, he⟩, fun he => he.2⟩
    rintro rfl
    exact h he

/-- A name in a directory that is the name of a module is a step of a path. -/
theorem isStep_of_moduleStem? {c stem : String} (h : moduleStem? c = some stem)
    (hslash : '/' ∉ c.toList) : IsStep c := by
  obtain ⟨hstem, e, he, rfl⟩ := moduleStem?_eq_some.1 h
  have hlong : ∀ x ∈ moduleExtensions, 2 ≤ x.length := by decide
  refine isStep_of_length ?_ hslash
  have := hlong e he
  rw [String.length_append]
  omega

/-- A module extension is a dot and a text without a dot, and does not end like a directory. -/
theorem moduleExtension_dot {e : String} (he : e ∈ moduleExtensions) :
    ∃ r, e = "." ++ String.ofList r ∧ '.' ∉ r := by
  have hall : ∀ x ∈ moduleExtensions, x = "." ++ String.ofList (x.toList.drop 1)
      ∧ '.' ∉ x.toList.drop 1 := by decide
  exact ⟨e.toList.drop 1, hall e he⟩

section File

variable {cs : List String} {stem e : String}

theorem extension?_moduleFile (root : Bool) (he : e ∈ moduleExtensions) (hstem : stem ≠ "")
    (hc : IsStep (stem ++ e)) :
    Path.extension? (Path.text root (cs ++ [stem ++ e])) = some e := by
  obtain ⟨r, rfl, hr⟩ := moduleExtension_dot he
  have hsplit : (stem ++ ("." ++ String.ofList r)).toList = stem.toList ++ '.' :: r := by simp
  have hlast : Text.splitLast? '.' (stem.toList ++ '.' :: r) = some (stem.toList, r) :=
    Text.splitLast?_append hr
  unfold Path.extension?
  rw [Path.basename_text root hc, hsplit, hlast]
  rcases hs : stem.toList with _ | ⟨x, t⟩
  · exact absurd (String.toList_eq_nil_iff.1 hs) hstem
  · rfl

theorem text_append_extension (root : Bool) :
    Path.text root (cs ++ [stem ++ e]) = Path.text root (cs ++ [stem]) ++ e := by
  rw [← String.toList_inj, String.toList_append, Path.toList_text_concat, Path.toList_text_concat,
    String.toList_append, List.append_assoc]

theorem hasExtension_moduleFile {m : Record} {x : String} {root : Bool}
    (hm : m.physical = Path.text root (cs ++ [stem ++ e])) (he : e ∈ moduleExtensions)
    (hx : x ∈ moduleExtensions) : m.hasExtension x = true ↔ x = e := by
  rw [Record.hasExtension, hm, text_append_extension]
  exact before?_moduleExtension hx he

/-- The file of a module does not stand for a directory of an archive. -/
theorem isDirectoryName_moduleFile (root : Bool) (he : e ∈ moduleExtensions) :
    Archive.isDirectoryName (Path.text root (cs ++ [stem ++ e])) = false := by
  have hall : ∀ x ∈ moduleExtensions, x ≠ "" ∧ Archive.isDirectoryName x = false := by decide
  obtain ⟨hne, hname⟩ := hall e he
  rw [Archive.isDirectoryName] at hname ⊢
  rw [text_append_extension, Text.getLast?_append hne]
  exact hname

/-- The name of a module with the extension is the path of its file. -/
theorem logical_append_extension :
    "/".intercalate (cs ++ [stem]) ++ e = Path.text false (cs ++ [stem ++ e]) := by
  rw [text_append_extension]
  simp [Path.text]

end File

end Bindery
