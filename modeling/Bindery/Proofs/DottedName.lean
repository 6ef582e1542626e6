import Bindery.Proofs.PathText
import Bindery.Require

/-!
# Dotted names

Components without dots are read back from the dotted name, `pieces_dotted`, so names of such
components that have one text are one name, `dotted_injective`. The names that a source requires
have such components, as all names that are read from a text: `isNamed_of_mem_parse`.
-/

namespace Bindery

namespace Logical

/-- No component has a dot in it. -/
def Dotless (name : Logical) : Prop := ∀ c ∈ name, '.' ∉ c.toList

instance (name : Logical) : Decidable name.Dotless :=
  inferInstanceAs (Decidable (∀ c ∈ name, '.' ∉ c.toList))

theorem Dotless.append {front back : Logical} (hf : front.Dotless) (hb : back.Dotless) :
    Dotless (front ++ back) :=
  List.forall_mem_append.2 ⟨hf, hb⟩

theorem toList_dotted_concat {front : Logical} (h : front ≠ []) (c : String) :
    (dotted (front ++ [c])).toList = front.dotted.toList ++ '.' :: c.toList := by
  rw [dotted, String.intercalate_append_of_ne_nil h (by simp), String.intercalate_singleton]
  simp [dotted]

theorem pieces_dotted {name : Logical} (h : name.Dotless) (hne : name ≠ []) :
    Text.pieces '.' name.dotted = name :=
  Text.pieces_intercalate rfl h hne

/-- A name whose components have no dots and are not empty is read from its text. -/
theorem ofDotted_dotted {name : Logical} (h : name.Dotless) (hparts : ∀ c ∈ name, c ≠ "") :
    ofDotted name.dotted = name := by
  by_cases hne : name = []
  · rw [hne]
    rfl
  · rw [ofDotted, pieces_dotted h hne, List.filter_eq_self]
    exact fun c hc => decide_eq_true (hparts c hc)

/-- Names without dots in their components have one text only if they are one name. -/
theorem dotted_injective {name name' : Logical} (h : name.Dotless) (h' : name'.Dotless)
    (hne : name ≠ []) (hne' : name' ≠ []) (he : name.dotted = name'.dotted) : name = name' := by
  rw [← pieces_dotted h hne, he, pieces_dotted h' hne']

/-- A name that is read as a module's is known by its text among all names. -/
theorem dotted_eq_iff {name name' : Logical} (h : name.Dotless) (h' : name'.Dotless)
    {front : Logical} {stem : String} (hname : name = front ++ [stem]) (hstem : stem ≠ "") :
    name.dotted = name'.dotted ↔ name = name' := by
  refine ⟨fun he => ?_, congrArg dotted⟩
  have hne : name ≠ [] := by simp [hname]
  by_cases hne' : name' = []
  · -- The text of the empty name is that of an empty component.
    have hempty : name = [""] := by
      rw [← pieces_dotted h hne, he, hne']
      rfl
    rw [hname, List.append_eq_singleton_iff] at hempty
    simp [hstem] at hempty
  · exact dotted_injective h h' hne hne' he

theorem ne_of_mem_ofDotted {text c : String} (h : c ∈ ofDotted text) : c ≠ "" :=
  of_decide_eq_true (List.mem_filter.1 h).2

theorem dotless_ofDotted (text : String) : (ofDotted text).Dotless := by
  intro c hc
  rw [ofDotted, List.mem_filter] at hc
  obtain ⟨piece, hpiece, rfl⟩ := List.mem_map.1 hc.1
  rw [String.toList_ofList]
  exact Text.not_mem_of_mem_splitOn hpiece

end Logical

namespace Requirement

open Logical (Dotless)

/-- What a requirement has that is read from a source. -/
structure IsNamed (r : Requirement) : Prop where
  origin : r.origin.Dotless
  name : r.name.Dotless
  name_ne : r.name ≠ []

variable {r : Requirement}

theorem isNamed_of_mem_ofNames {origin : Logical} {words : List String} (ho : origin.Dotless)
    (h : r ∈ ofNames origin words) : r.IsNamed := by
  rw [ofNames, List.mem_map] at h
  obtain ⟨name, hname, rfl⟩ := h
  rw [List.mem_filter, decide_eq_true_eq] at hname
  obtain ⟨hword, hne⟩ := hname
  obtain ⟨word, -, hname⟩ := List.mem_map.1 hword
  have hdotless : name.Dotless := by
    rw [← hname, nameOfWord]
    exact Logical.dotless_ofDotted _
  exact ⟨ho, hdotless, hne⟩

theorem isNamed_of_mem_afterOrigin {origin : Logical} {words : List String}
    (ho : origin.Dotless) (h : r ∈ afterOrigin origin words) : r.IsNamed := by
  unfold afterOrigin at h
  split at h
  · exact isNamed_of_mem_ofNames ho h
  · exact isNamed_of_mem_ofNames ho h
  · exact isNamed_of_mem_ofNames ho h
  · simp at h

theorem isNamed_of_mem_ofWords {words : List String} (h : r ∈ ofWords words) : r.IsNamed := by
  unfold ofWords at h
  split at h
  · simp at h
  · exact isNamed_of_mem_afterOrigin (Logical.dotless_ofDotted _) h
  · exact isNamed_of_mem_afterOrigin (by simp [Dotless]) h

theorem isNamed_of_mem_parse {source : String} (h : r ∈ parse source) : r.IsNamed := by
  rw [parse, List.mem_flatMap] at h
  obtain ⟨s, -, h⟩ := h
  exact isNamed_of_mem_ofWords h

end Requirement

end Bindery
