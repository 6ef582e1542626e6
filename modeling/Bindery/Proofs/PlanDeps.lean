import Bindery.Proofs.PlanOrder

/-!
# What a plan records

A plan records for a name what the listed sources of the name require, in the order in which they
say so and each name once, and nothing if they require nothing: `find?_deps`. Sources that require
only some of the names leave only those in the record, `kept_noted`.
-/

namespace Bindery.Plan

variable {st : Storage} {s : SearchPath} {modules : List Record}

theorem addNames_append (names xs ys : List String) :
    addNames names (xs ++ ys) = addNames (addNames names xs) ys := by
  simp only [addNames, List.foldl_append]

theorem prefix_addNames : ∀ (more names : List String), names <+: addNames names more
  | [], _ => List.prefix_rfl
  | n :: r, names => by
    show names <+: addNames (if n ∈ names then names else names ++ [n]) r
    refine List.IsPrefix.trans ?_ (prefix_addNames r _)
    split
    · exact List.prefix_rfl
    · exact List.prefix_append _ _

theorem addNames_eq_nil {more : List String} : addNames [] more = [] ↔ more = [] := by
  constructor
  · rcases more with _ | ⟨n, r⟩
    · exact fun _ => rfl
    · intro h
      have hn : [n] <+: addNames [] (n :: r) := prefix_addNames r [n]
      rw [h] at hn
      simp at hn
  · rintro rfl
    rfl

theorem filter_addNames (p : String → Bool) : ∀ more names : List String,
    (addNames names more).filter p = addNames (names.filter p) (more.filter p)
  | [], _ => rfl
  | n :: r, names => by
    show (addNames (if n ∈ names then names else names ++ [n]) r).filter p = _
    rw [filter_addNames p r]
    by_cases hp : p n = true
    · rw [List.filter_cons_of_pos hp]
      show _ = addNames (if n ∈ names.filter p then names.filter p else names.filter p ++ [n]) _
      by_cases hn : n ∈ names
      · rw [if_pos hn, if_pos (List.mem_filter.2 ⟨hn, hp⟩)]
      · rw [if_neg hn, if_neg fun h => hn (List.mem_filter.1 h).1, List.filter_append,
          List.filter_cons_of_pos hp, List.filter_nil]
    · rw [List.filter_cons_of_neg hp]
      split
      · rfl
      · rw [List.filter_append, List.filter_cons_of_neg hp, List.filter_nil, List.append_nil]

/-- What is recorded of required names. -/
def noted (names : List String) : Option (List String) :=
  if names = [] then none else some (addNames [] names)

/-- What is left of a record of which only some names are kept. -/
def kept (p : String → Bool) (deps : Option (List String)) : Option (List String) :=
  (deps.map (·.filter p)).filter (· ≠ [])

theorem kept_noted (p : String → Bool) (names : List String) :
    kept p (noted names) = noted (names.filter p) := by
  unfold kept noted
  by_cases hn : names = []
  · simp [hn]
  · rw [if_neg hn, Option.map_some, filter_addNames, List.filter_nil]
    by_cases hp : names.filter p = []
    · rw [if_pos hp, hp]
      rfl
    · rw [if_neg hp, Option.filter_some_pos]
      simpa [addNames_eq_nil] using hp

theorem find?_foldl_insert {step : Table (List String) → Record × List Target → Table (List String)}
    (hstep : ∀ t m ts, step t (m, ts) = if ts = [] then t else
      t.insert m.dotted (addNames ((t.find? m.dotted).getD []) (ts.map (·.name)))) (n : String) :
    ∀ (required : List (Record × List Target)) (t : Table (List String)),
      let names := (required.filter (·.1.dotted = n)).flatMap (·.2.map (·.name))
      (required.foldl step t).find? n =
        if names = [] then t.find? n else some (addNames ((t.find? n).getD []) names)
  | [], t => rfl
  | (m, ts) :: r, t => by
    have ih := find?_foldl_insert hstep n r (step t (m, ts))
    have hcons : ((((m, ts) :: r).filter (·.1.dotted = n)).flatMap (·.2.map (·.name))) =
        (if m.dotted = n then ts.map (·.name) else [])
          ++ (r.filter (·.1.dotted = n)).flatMap (·.2.map (·.name)) := by
      by_cases hm : m.dotted = n <;> simp [hm]
    simp only [List.foldl_cons, hcons] at ih ⊢
    rw [ih, hstep]
    by_cases hts : ts = []
    · rw [if_pos hts, hts, List.map_nil, ite_self, List.nil_append]
    by_cases hm : m.dotted = n
    · subst hm
      have hnames : ts.map (·.name) ≠ [] := by simpa using hts
      rw [if_neg hts, Table.find?_insert, if_pos rfl, if_pos rfl,
        if_neg (List.append_ne_nil_of_left_ne_nil hnames _), addNames_append, Option.getD_some]
      split
      · rename_i hnone
        rw [hnone]
        rfl
      · rfl
    · rw [if_neg hts, Table.find?_insert, if_neg (Ne.symm hm), if_neg hm, List.nil_append]

theorem find?_depsTable (required : List (Record × List Target)) (n : String) :
    (depsTable required).find? n =
      noted ((required.filter (·.1.dotted = n)).flatMap (·.2.map (·.name))) :=
  find?_foldl_insert (fun _ _ _ => rfl) n required .empty

/-- The text of a source; empty if it cannot be read. -/
def sourceText (st : Storage) (m : Record) : String :=
  match m.volume with
  | some v => (st.readText v m.physical).toOption.getD ""
  | none => ""

/-- What a source requires, by name. -/
def targetNames (st : Storage) (s : SearchPath) (m : Record) : List String :=
  (targets st s m (sourceText st m)).map (·.name)

theorem requirements_eq : ∀ {modules : List Record} {required : List (Record × List Target)},
    requirements st s modules = .ok required →
    required = (modules.filter fun m => m.isSource && m.volume.isSome).map fun m =>
      (m, targets st s m (sourceText st m))
  | [], _, h => by
    cases h
    rfl
  | x :: r, required, h => by
    simp only [requirements] at h
    split at h
    · rename_i v hv
      split at h
      · rename_i hx
        cases hr : st.readText v x.physical with
        | error e => rw [hr] at h; cases h
        | ok source =>
          rw [hr] at h
          cases hrest : requirements st s r with
          | error e => rw [hrest] at h; cases h
          | ok rest =>
            rw [hrest] at h
            cases h
            have htext : sourceText st x = source := by
              simp only [sourceText, hv, hr]
              rfl
            rw [List.filter_cons_of_pos (by simp [hx, hv]), List.map_cons, htext,
              ← requirements_eq hrest]
      · rename_i hx
        rw [List.filter_cons_of_neg (by simp [hx]), ← requirements_eq h]
    · rename_i hv
      rw [List.filter_cons_of_neg (by simp [hv]), ← requirements_eq h]

/-- What a plan records for a name. -/
theorem find?_deps {plan : Plan} (h : ofSources st s modules = .ok plan) (n : String) :
    plan.deps.find? n =
      noted ((modules.filter fun m => m.isSource && m.volume.isSome && m.dotted = n).flatMap
        (targetNames st s)) := by
  obtain ⟨required, hmade⟩ := ofSources_inv h
  rw [hmade.deps, find?_depsTable, requirements_eq hmade.requirements, List.filter_map, List.filter_filter,
    List.flatMap_map]
  simp only [Function.comp_def, Bool.and_comm]
  rfl

end Bindery.Plan
