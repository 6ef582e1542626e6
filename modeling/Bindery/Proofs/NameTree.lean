import Bindery.Proofs.PathText
import Bindery.Volume.Listing

/-!
# The tree that names show

Where all names are paths in normal form, from the root or all of them not, a directory has as
children the next steps of the names that go on from it: `mem_children_text`. It is a directory
exactly if it has a child: `isDirectory_text`.
-/

namespace Bindery.Listing

open Bindery.Path (IsStep AllSteps)

variable {root : Bool} {base cs : List String}

/-- The names are paths in normal form, from the root or all of them not. -/
def Normal (root : Bool) (names : List String) : Prop :=
  ∀ n ∈ names, ∃ cs, AllSteps cs ∧ n = Path.text root cs

/-- Names from the root that joining leaves as they are are paths in normal form. -/
theorem normal_of_join {names : List String}
    (h : ∀ n ∈ names, Path.join [n] = n ∧ Path.startsAtRoot n = true) : Normal true names := by
  intro n hn
  obtain ⟨hjoin, hroot⟩ := h n hn
  have hne : n ≠ "" := by
    rintro rfl
    cases hroot
  have habs : Path.isAbsolute [n] = true := (Path.isAbsolute_cons hne []).trans hroot
  exact ⟨Path.steps n, Path.allSteps_steps n, habs ▸ Path.eq_text_of_join hjoin⟩

theorem under_text (root : Bool) {base : List String} (h : AllSteps base) :
    under (Path.text root base) = Path.text root base ++ (if base = [] then "" else "/") := by
  by_cases hb : base = []
  · subst hb
    cases root <;> rfl
  · obtain ⟨front, c, hc, hne⟩ :
        ∃ front c, (Path.text root base).toList = front ++ [c] ∧ c ≠ '/' := by
      rw [← List.dropLast_append_getLast hb] at h ⊢
      exact Path.exists_last_text root (h _ (by simp))
    have hempty : ¬ (Path.text root base = "" ∨
        (Path.text root base).toList.getLast? = some '/') := by
      rintro (he | he)
      · exact hb (Path.text_eq_empty h he).2
      · rw [hc, List.getLast?_concat] at he
        exact hne (Option.some.inj he)
    rw [under, if_neg hempty, if_neg hb]

/-- A path goes on from its directory with the rest of its steps. -/
theorem text_append {ds : List String} (hd : ds ≠ []) :
    Path.text root (base ++ ds) =
      Path.text root base ++ (if base = [] then "" else "/") ++ "/".intercalate ds := by
  by_cases hb : base = []
  · subst hb
    cases root <;> simp [Path.text]
  · rw [if_neg hb, Path.text, Path.text, String.intercalate_append_of_ne_nil hb hd]
    simp only [String.append_assoc]

theorem steps_append_slash (s rest : String) :
    Path.steps (s ++ "/" ++ rest) = Path.steps s ++ Path.steps rest := by
  have hsplit : (s ++ "/" ++ rest).toList = s.toList ++ '/' :: rest.toList := by simp
  rw [Path.steps, Text.pieces, hsplit, List.splitOn_append_cons_self, List.map_append,
    List.filter_append]
  rfl

theorem steps_under (h : AllSteps base) (rest : String) :
    Path.steps (Path.text root base ++ (if base = [] then "" else "/") ++ rest) =
      base ++ Path.steps rest := by
  by_cases hb : base = []
  · subst hb
    cases root
    · simp [Path.text]
    · have hnil : Path.steps "" = [] := rfl
      have := steps_append_slash "" rest
      simpa [Path.text, hnil] using this
  · rw [if_neg hb, steps_append_slash, Path.steps_text root h]

/-- What is left of a name below a directory is the text of the steps that it has more. -/
theorem after?_under {rest : String} (hb : AllSteps base) (hc : AllSteps cs) :
    Text.after? (under (Path.text root base)) (Path.text root cs) = some rest ↔
      ∃ ds, cs = base ++ ds ∧ rest = "/".intercalate ds ∧ (ds = [] → base = []) := by
  rw [Text.after?_eq_some, under_text root hb]
  constructor
  · intro he
    have hcs : cs = base ++ Path.steps rest := by
      rw [← steps_under hb rest, ← he, Path.steps_text root hc]
    refine ⟨Path.steps rest, hcs, ?_⟩
    by_cases hd : Path.steps rest = []
    · rw [hd, List.append_nil] at hcs
      subst hcs
      have hnil : (if cs = [] then "" else "/") ++ rest = "" := by
        rw [String.append_assoc] at he
        have hlen := congrArg (fun s => s.toList) he
        simp only [String.toList_append] at hlen
        rw [← String.toList_eq_nil_iff, String.toList_append]
        exact List.self_eq_append_right.1 hlen
      by_cases hcs : cs = []
      · rw [if_pos hcs, String.empty_append] at hnil
        exact ⟨by rw [hd, hnil]; rfl, fun _ => hcs⟩
      · rw [if_neg hcs, ← String.toList_eq_nil_iff] at hnil
        simp at hnil
    · refine ⟨?_, fun h => absurd h hd⟩
      rw [hcs, text_append hd] at he
      have hlist := congrArg (fun s => s.toList) he
      simp only [String.toList_append] at hlist
      rw [← String.toList_inj]
      exact (List.append_cancel_left hlist).symm
  · rintro ⟨ds, rfl, rfl, hnil⟩
    by_cases hd : ds = []
    · rw [hd, hnil hd]
      simp
    · exact text_append hd

theorem childOf?_text {c : String} (hb : AllSteps base) (hc : AllSteps cs) :
    childOf? (Path.text root base) (Path.text root cs) = some c ↔ ∃ r, cs = base ++ c :: r := by
  have hfind : ∀ ds : List String, AllSteps ds →
      (Text.pieces '/' ("/".intercalate ds)).find? (· ≠ "") = ds.head? := by
    intro ds hds
    rcases ds with _ | ⟨d, r⟩
    · rfl
    · rw [Path.pieces_intercalate hds (List.cons_ne_nil d r),
        List.find?_cons_of_pos (by simpa using (hds d (by simp)).1)]
      rfl
  simp only [childOf?, bind, Option.bind_eq_some_iff]
  constructor
  · rintro ⟨rest, hrest, hfound⟩
    obtain ⟨ds, rfl, rfl, -⟩ := (after?_under hb hc).1 hrest
    rw [hfind ds hc.right] at hfound
    rcases ds with _ | ⟨d, r⟩
    · cases hfound
    · rw [List.head?_cons] at hfound
      exact ⟨r, by rw [Option.some.inj hfound]⟩
  · rintro ⟨r, rfl⟩
    refine ⟨"/".intercalate (c :: r), (after?_under hb hc).2 ⟨c :: r, rfl, rfl, by simp⟩, ?_⟩
    exact hfind _ hc.right

theorem below_text (hb : AllSteps base) (hc : AllSteps cs) :
    below (Path.text root base) (Path.text root cs) = true ↔ ∃ c r, cs = base ++ c :: r := by
  rw [below, Option.any_eq_true]
  constructor
  · rintro ⟨rest, hrest, hne⟩
    obtain ⟨ds, rfl, rfl, -⟩ := (after?_under hb hc).1 hrest
    rcases ds with _ | ⟨d, r⟩
    · simp at hne
    · exact ⟨d, r, rfl⟩
  · rintro ⟨c, r, rfl⟩
    refine ⟨"/".intercalate (c :: r), (after?_under hb hc).2 ⟨c :: r, rfl, rfl, by simp⟩, ?_⟩
    have hsteps : AllSteps (c :: r) := hc.right
    rw [decide_eq_true_eq]
    intro he
    have htext : Path.text false (c :: r) = "" := by simp [Path.text, he]
    exact List.cons_ne_nil c r (Path.text_eq_empty hsteps htext).2

section Names

variable {names : List String} (hn : Normal root names) (hb : AllSteps base)

include hn hb

theorem mem_children_text {c : String} :
    c ∈ children names (Path.text root base) ↔
      ∃ r, AllSteps (base ++ c :: r) ∧ Path.text root (base ++ c :: r) ∈ names := by
  rw [children, List.mem_eraseDups, List.mem_filterMap]
  constructor
  · rintro ⟨n, hmem, hchild⟩
    obtain ⟨cs, hcs, rfl⟩ := hn n hmem
    obtain ⟨r, rfl⟩ := (childOf?_text hb hcs).1 hchild
    exact ⟨r, hcs, hmem⟩
  · rintro ⟨r, hcs, hmem⟩
    exact ⟨_, hmem, (childOf?_text hb hcs).2 ⟨r, rfl⟩⟩

theorem isDirectory_text :
    isDirectory names (Path.text root base) = true ↔
      ∃ c r, AllSteps (base ++ c :: r) ∧ Path.text root (base ++ c :: r) ∈ names := by
  rw [isDirectory, List.any_eq_true]
  constructor
  · rintro ⟨n, hmem, hbelow⟩
    obtain ⟨cs, hcs, rfl⟩ := hn n hmem
    obtain ⟨c, r, rfl⟩ := (below_text hb hcs).1 hbelow
    exact ⟨c, r, hcs, hmem⟩
  · rintro ⟨c, r, hcs, hmem⟩
    exact ⟨_, hmem, (below_text hb hcs).2 ⟨c, r, rfl⟩⟩

end Names

/-- Nothing from the root lies below a directory that does not start there. -/
theorem after?_under_relative {rest : String} (hb : AllSteps base) (hne : base ≠ [])
    (hc : AllSteps cs) :
    Text.after? (under (Path.text false base)) (Path.text true cs) ≠ some rest := by
  intro h
  rw [Text.after?_eq_some, under_text false hb] at h
  have htrue := Path.startsAtRoot_text true hc
  have hfalse := Path.startsAtRoot_text false hb
  rcases hl : (Path.text false base).toList with _ | ⟨x, r⟩
  · exact hne (Path.text_eq_empty hb (String.toList_eq_nil_iff.1 hl)).2
  · rw [Path.startsAtRoot, hl, List.head?_cons] at hfalse
    rw [h, Path.startsAtRoot, String.toList_append, String.toList_append, hl] at htrue
    simp only [List.cons_append, List.head?_cons] at htrue
    exact Bool.noConfusion (hfalse.symm.trans htrue)

theorem children_relative {names : List String} (hn : Normal true names) (hb : AllSteps base)
    (hne : base ≠ []) : children names (Path.text false base) = [] := by
  have hnone : names.filterMap (childOf? (Path.text false base)) = [] := by
    rw [List.filterMap_eq_nil_iff]
    intro n hmem
    obtain ⟨cs, hcs, rfl⟩ := hn n hmem
    rw [childOf?, Option.eq_none_iff_forall_ne_some.2 fun _ => after?_under_relative hb hne hcs]
    rfl
  rw [children, hnone, List.eraseDups_nil]

theorem isDirectory_relative {names : List String} (hn : Normal true names) (hb : AllSteps base)
    (hne : base ≠ []) : isDirectory names (Path.text false base) = false := by
  rw [isDirectory, List.any_eq_false]
  intro n hmem
  obtain ⟨cs, hcs, rfl⟩ := hn n hmem
  rw [below, Option.eq_none_iff_forall_ne_some.2 fun _ => after?_under_relative hb hne hcs]
  simp

/-- Taken for a name below the empty directory, a name from the root goes on with its first step. -/
theorem childOf?_nowhere (hc : AllSteps cs) : childOf? "" (Path.text true cs) = cs.head? := by
  have hafter : Text.after? (under "") (Path.text true cs) = some (Path.text true cs) :=
    Text.after?_eq_some.2 String.empty_append.symm
  simp only [childOf?, hafter, bind, Option.bind_some]
  rcases cs with _ | ⟨c, r⟩
  · rfl
  · rw [Path.pieces_text_root hc (List.cons_ne_nil c r), List.find?_cons_of_neg (by simp),
      List.find?_cons_of_pos (by simpa using (hc c (by simp)).1)]
    rfl

end Bindery.Listing
