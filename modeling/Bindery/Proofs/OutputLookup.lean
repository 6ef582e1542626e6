import Bindery.Proofs.IndexLookup
import Bindery.Proofs.PlanDeps

/-!
# Lookups among compiled files

What a requirement means is looked up among the modules of a search path. Among the files compiled
from some of these it means the same if one of them is meant, and else nothing, provided that it
cannot be mistaken for another of them: `name_target?_compiled`.
-/

namespace Bindery

/-- The components of a name are identifiers: steps of a path, without dots. -/
def Logical.Identifiers (name : Logical) : Prop :=
  ∀ c ∈ name, c ≠ "" ∧ '.' ∉ c.toList ∧ '/' ∉ c.toList

instance (name : Logical) : Decidable name.Identifiers :=
  inferInstanceAs (Decidable (∀ c ∈ name, c ≠ "" ∧ '.' ∉ c.toList ∧ '/' ∉ c.toList))

theorem Logical.Identifiers.dotless {name : Logical} (h : name.Identifiers) : name.Dotless :=
  fun c hc => (h c hc).2.1

theorem Logical.answers_append (front back : Logical) :
    (front ++ back).answers front back false = true := by
  simp [answers]

theorem Logical.ne_nil_of_answers {name front back : Logical} (h : back ≠ [])
    (ha : name.answers front back false = true) : name ≠ [] := by
  rintro rfl
  simp only [answers, Bool.false_eq_true, if_false, Bool.and_eq_true, List.isSuffixOf_iff_suffix,
    List.suffix_nil] at ha
  exact h ha.2

namespace SearchPath

/-- The modules that a search path knows have identifiers as components, and its index, if it has
one, holds the modules that its directories hold. -/
structure Regular (st : Storage) (s : SearchPath) : Prop where
  identifiers : ∀ m ∈ s.modules st, m.logical.Identifiers
  external : ∀ p ∈ s.packages, ∀ e ∈ p.modules.entries, ∀ name ∈ e.2, name.Dotless
  index : ∀ i ∈ s.index, i = .ofRecords (s.modules st)

variable {st : Storage} {s : SearchPath}

theorem find_unindexed_inv {front back : Logical} {exact : Bool} {a : Record}
    (h : a ∈ s.unindexed.find st front back exact) :
    a.logical.answers front back exact = true
      ∧ (a ∈ s.modules st ∨ ∃ p ∈ s.packages, ∃ e ∈ p.modules.entries, a.logical ∈ e.2) := by
  have hfound : a ∈ s.unindexed.findLocal st front back exact
      ++ s.findExternal front back exact := by
    unfold find at h
    simp only at h
    split at h
    · exact List.mem_of_mem_take h
    · exact h
  rcases List.mem_append.1 hfound with hlocal | hexternal
  · cases exact with
    | false =>
      obtain ⟨hm, ha⟩ := List.mem_filter.1 hlocal
      exact ⟨ha, .inl hm⟩
    | true =>
      simp only [findLocal, unindexed, if_true, Option.mem_toList] at hlocal
      have ha := List.find?_some hlocal
      exact ⟨ha, .inl (List.mem_of_find?_eq_some hlocal)⟩
  · obtain ⟨name, hname, ha, rfl⟩ := mem_findExternal.1 hexternal
    exact ⟨ha, .inr hname⟩

end SearchPath

namespace Plan

open SearchPath (Regular find_unindexed_inv)

variable {st : Storage} {s : SearchPath} {r : Requirement}

/-- A scan answers a requirement with the modules of its full name or, if there are none, with all
whose names it can stand for. -/
theorem answers_unindexed (st : Storage) (s : SearchPath) (r : Requirement) :
    (r.origin ≠ [] ∧ (answers st s.unindexed r).1 ≠ []
      ∧ ∀ a ∈ (answers st s.unindexed r).1, a.logical = r.origin ++ r.name)
    ∨ ((answers st s.unindexed r).1 = s.unindexed.find st r.origin r.name false
      ∧ (r.origin ≠ [] → ∀ x ∈ s.modules st, x.logical ≠ r.origin ++ r.name)) := by
  by_cases h : (if r.origin = [] then [] else s.unindexed.find st r.origin r.name true) = []
  · right
    refine ⟨by simp only [answers, if_pos h], fun ho x hx hname => ?_⟩
    rw [if_neg ho] at h
    have hsome : ((s.modules st).find? (·.logical.answers r.origin r.name true)).isSome = true :=
      List.find?_isSome.2 ⟨x, hx, by simp [Logical.answers, hname]⟩
    obtain ⟨y, hy⟩ := Option.isSome_iff_exists.1 hsome
    have hlocal : s.unindexed.findLocal st r.origin r.name true = [y] := by
      show ((s.modules st).find? (·.logical.answers r.origin r.name true)).toList = [y]
      rw [hy]
      rfl
    simp [SearchPath.find, hlocal] at h
  · left
    have ho : r.origin ≠ [] := fun ho => h (by rw [if_pos ho])
    rw [if_neg ho] at h
    have he : (answers st s.unindexed r).1 = s.unindexed.find st r.origin r.name true := by
      simp only [answers, if_neg ho, if_neg h]
    refine ⟨ho, by rwa [he], fun a ha => ?_⟩
    rw [he] at ha
    simpa [Logical.answers] using (find_unindexed_inv ha).1

theorem mem_answers_unindexed {a : Record} (h : a ∈ (answers st s.unindexed r).1) :
    a.logical.answers r.origin r.name false = true
      ∧ (a ∈ s.modules st ∨ ∃ p ∈ s.packages, ∃ e ∈ p.modules.entries, a.logical ∈ e.2) := by
  simp only [answers] at h
  by_cases he : (if r.origin = [] then [] else s.unindexed.find st r.origin r.name true) = []
  · rw [if_pos he] at h
    exact find_unindexed_inv h
  · rw [if_neg he] at h
    split at h
    · simp at h
    · have hfound : a ∈ s.unindexed.find st r.origin r.name true := h
      obtain ⟨ha, hm⟩ := find_unindexed_inv hfound
      have hfull : a.logical = r.origin ++ r.name := by simpa [Logical.answers] using ha
      exact ⟨hfull ▸ Logical.answers_append _ _, hm⟩

/-- An index leaves out no name. -/
theorem answers_names (hs : s.Regular st) (hr : r.IsNamed) (name : Logical) :
    name ∈ (answers st s r).1.map (·.logical) ↔
      name ∈ (answers st s.unindexed r).1.map (·.logical) := by
  rcases hi : s.index with _ | i
  · have he : s.unindexed = s := by
      rw [SearchPath.unindexed, ← hi]
    rw [he]
  · have he : s.createIndex st = s := by
      rw [SearchPath.createIndex, ← hs.index i hi, ← hi]
    have hdotless : ∀ m ∈ s.modules st, m.logical.Dotless := fun m hm =>
      (hs.identifiers m hm).dotless
    have hcases := answers_createIndex hdotless hr
    rw [he] at hcases
    rcases hcases with h | ⟨h, hu⟩
    · rw [h]
    · rw [h, hu, List.map_append, List.map_append, List.mem_append, List.mem_append,
        mem_map_firsts]

theorem name_of_mem_answers (hs : s.Regular st) (hr : r.IsNamed) {a : Record}
    (h : a ∈ (answers st s r).1) :
    a.logical.Dotless ∧ a.logical.answers r.origin r.name false = true := by
  obtain ⟨b, hb, hab⟩ := List.mem_map.1 ((answers_names hs hr _).1 (List.mem_map_of_mem h))
  rw [← hab]
  obtain ⟨ha, hm | ⟨p, hp, e, he, hname⟩⟩ := mem_answers_unindexed hb
  · exact ⟨(hs.identifiers b hm).dotless, ha⟩
  · exact ⟨hs.external p hp e he _ hname, ha⟩

/-- A requirement by the full name of a module is answered with that name only. -/
theorem answers_full (hs : s.Regular st) (hr : r.IsNamed) (ho : r.origin ≠ [])
    (hm : r.origin ++ r.name ∈ (s.modules st).map (·.logical)) (name : Logical) :
    name ∈ (answers st s r).1.map (·.logical) ↔ name = r.origin ++ r.name := by
  rw [answers_names hs hr, List.mem_map]
  rcases answers_unindexed st s r with ⟨-, hne, hfull⟩ | ⟨-, hnone⟩
  · constructor
    · rintro ⟨a, ha, rfl⟩
      exact hfull a ha
    · rintro rfl
      obtain ⟨a, ha⟩ := List.exists_mem_of_ne_nil _ hne
      exact ⟨a, ha, hfull a ha⟩
  · obtain ⟨x, hx, hname⟩ := List.mem_map.1 hm
    exact absurd hname (hnone ho x hx)

theorem mem_of_nearest? {m a : Record} {l : List Record} (h : nearest? m l = some a) : a ∈ l := by
  rw [nearest?_eq_find?] at h
  exact List.mem_of_find?_eq_some h

theorem name_target? (st : Storage) (s : SearchPath) (m : Record) (r : Requirement) :
    (target? st s m r).map (·.name) =
      (nearest? m ((answers st s r).1.filter (·.logical ≠ m.logical))).map (·.dotted) := by
  rw [target?]
  simp only [Option.map_map]
  congr 1
  funext a
  by_cases ha : a.isExternal = true <;> simp [ha, Target.name]

/-- To a requirement that is answered with one name, other modules than that mean it. -/
theorem name_target?_of_answers {m : Record} {full : Logical}
    (h : ∀ name, name ∈ (answers st s r).1.map (·.logical) ↔ name = full) :
    (target? st s m r).map (·.name) = if full = m.logical then none else some full.dotted := by
  have hall : ∀ a ∈ (answers st s r).1, a.logical = full := fun a ha =>
    (h _).1 (List.mem_map_of_mem ha)
  rw [name_target?]
  split_ifs with hself
  · have hnil : (answers st s r).1.filter (·.logical ≠ m.logical) = [] := by
      rw [List.filter_eq_nil_iff]
      intro a ha
      simp [hall a ha, hself]
    rw [hnil]
    rfl
  · obtain ⟨a, ha, hname⟩ := List.mem_map.1 ((h full).2 rfl)
    rcases hb : nearest? m ((answers st s r).1.filter (·.logical ≠ m.logical)) with _ | b
    · have hmem : a ∈ (answers st s r).1.filter (·.logical ≠ m.logical) :=
        List.mem_filter.2 ⟨ha, decide_eq_true (hname ▸ hself)⟩
      rw [nearest?_eq_none.1 hb] at hmem
      cases hmem
    · have hbn := hall b (List.mem_filter.1 (mem_of_nearest? hb)).1
      rw [Option.map_some, Record.dotted, hbn]

/-- The compiled files among which a lookup is made: a search path without an index and external
packages, whose modules have the names of the sources that are compiled. -/
structure Among (st : Storage) (o : SearchPath) (compiled : List Record) : Prop where
  index : o.index = none
  packages : o.packages = none
  names : ∀ name, name ∈ (o.modules st).map (·.logical) ↔ name ∈ compiled.map (·.logical)

theorem Among.regular {o : SearchPath} {compiled : List Record} (h : Among st o compiled)
    (hname : ∀ c ∈ compiled, c.logical.Identifiers) : o.Regular st where
  identifiers x hx := by
    obtain ⟨c, hc, hcx⟩ := List.mem_map.1 ((h.names _).1 (List.mem_map_of_mem hx))
    exact hcx ▸ hname c hc
  external p hp := by
    rw [h.packages] at hp
    cases hp
  index i hi := by
    rw [h.index] at hi
    cases hi

/-- No compiled source can be mistaken for what a requirement of a source means: one has the full
name that the requirement gives or, if none has, each that answers it is what it means. -/
def Clear (st : Storage) (s : SearchPath) (compiled : List Record) (m : Record)
    (r : Requirement) : Prop :=
  (r.origin ≠ [] ∧ r.origin ++ r.name ∈ compiled.map (·.logical))
    ∨ ∀ c ∈ compiled, c.logical ≠ m.logical → c.logical.answers r.origin r.name false = true →
      (target? st s m r).map (·.name) = some c.dotted

instance (st : Storage) (s : SearchPath) (compiled : List Record) (m : Record)
    (r : Requirement) : Decidable (Clear st s compiled m r) :=
  inferInstanceAs (Decidable ((r.origin ≠ [] ∧ r.origin ++ r.name ∈ compiled.map (·.logical))
    ∨ ∀ c ∈ compiled, c.logical ≠ m.logical → c.logical.answers r.origin r.name false = true →
      (target? st s m r).map (·.name) = some c.dotted))

section Compiled

variable {st' : Storage} {o : SearchPath} {compiled : List Record} {m m' : Record}

/-- Where no compiled source has the full name that a requirement gives, all compiled files whose
names it can stand for answer it. -/
theorem answers_among (ho : Among st' o compiled)
    (hfull : ¬ (r.origin ≠ [] ∧ r.origin ++ r.name ∈ compiled.map (·.logical))) :
    (answers st' o r).1 = (o.modules st').filter (·.logical.answers r.origin r.name false) := by
  have hou : o.unindexed = o := by
    rw [SearchPath.unindexed, ← ho.index]
  have hunindexed := answers_unindexed st' o r
  rw [hou] at hunindexed
  rcases hunindexed with ⟨horigin, hne, hall⟩ | ⟨hpart, -⟩
  · obtain ⟨y, hy⟩ := List.exists_mem_of_ne_nil _ hne
    obtain ⟨-, hmem | ⟨p, hp, -⟩⟩ := mem_answers_unindexed (hou.symm ▸ hy)
    · exact absurd ⟨horigin, (ho.names _).1 (hall y hy ▸ List.mem_map_of_mem hmem)⟩ hfull
    · rw [ho.packages] at hp
      cases hp
  · rw [hpart, SearchPath.find, SearchPath.findLocal, SearchPath.findExternal, ho.index,
      ho.packages]
    exact List.append_nil _

theorem name_target?_compiled (hs : s.Regular st) (ho : Among st' o compiled) (hr : r.IsNamed)
    (hname : ∀ c ∈ compiled, c.logical.Identifiers ∧ c.logical ≠ [])
    (hin : ∀ c ∈ compiled, c.logical ∈ (s.modules st).map (·.logical))
    (hm' : m'.logical = m.logical) (hclear : Clear st s compiled m r) :
    (target? st' o m' r).map (·.name) =
      ((target? st s m r).map (·.name)).filter (· ∈ compiled.map (·.dotted)) := by
  by_cases hfull : r.origin ≠ [] ∧ r.origin ++ r.name ∈ compiled.map (·.logical)
  · obtain ⟨horigin, hmem⟩ := hfull
    obtain ⟨c, hc, hcf⟩ := List.mem_map.1 hmem
    have hhere := answers_full hs hr horigin (hcf ▸ hin c hc)
    have hthere := answers_full (ho.regular fun c hc => (hname c hc).1) hr horigin
      ((ho.names _).2 hmem)
    rw [name_target?_of_answers hhere, name_target?_of_answers hthere, hm']
    split_ifs
    · rfl
    · rw [Option.filter_some_pos]
      rw [decide_eq_true_eq, ← hcf]
      exact List.mem_map_of_mem hc
  replace hclear := hclear.resolve_left hfull
  rw [name_target? st' o, hm', answers_among ho hfull, List.filter_filter]
  rcases ha : nearest? m' ((o.modules st').filter fun a =>
      decide (a.logical ≠ m.logical) && a.logical.answers r.origin r.name false) with _ | a
  · -- What is meant is not compiled: a compiled file of its name would have been found.
    have hnone := List.filter_eq_nil_iff.1 (nearest?_eq_none.1 ha)
    rw [name_target? st s]
    rcases hb : nearest? m ((answers st s r).1.filter (·.logical ≠ m.logical)) with _ | b
    · rfl
    obtain ⟨hmem, hother⟩ := List.mem_filter.1 (mem_of_nearest? hb)
    obtain ⟨hdotless, hanswers⟩ := name_of_mem_answers hs hr hmem
    rw [Option.map_none, Option.map_some, Option.filter_some_neg]
    rw [decide_eq_false_iff_not]
    intro hcompiled
    obtain ⟨c, hc, hdotted⟩ := List.mem_map.1 hcompiled
    have hlogical : c.logical = b.logical :=
      Logical.dotted_injective (hname c hc).1.dotless hdotless (hname c hc).2
        (Logical.ne_nil_of_answers hr.name_ne hanswers) hdotted
    obtain ⟨x, hx, hxc⟩ := List.mem_map.1 ((ho.names _).2 (List.mem_map_of_mem hc))
    refine hnone x hx ?_
    rw [hxc, hlogical, hother, hanswers]
    rfl
  · obtain ⟨hmem, hother⟩ := List.mem_filter.1 (mem_of_nearest? ha)
    rw [Bool.and_eq_true, decide_eq_true_eq] at hother
    obtain ⟨c, hc, hca⟩ := List.mem_map.1 ((ho.names _).1 (List.mem_map_of_mem hmem))
    rw [hclear c hc (hca ▸ hother.1) (hca ▸ hother.2), Option.map_some, Option.filter_some_pos]
    · rw [Record.dotted, Record.dotted, hca]
    · exact decide_eq_true (List.mem_map_of_mem hc)

end Compiled

end Plan

end Bindery
