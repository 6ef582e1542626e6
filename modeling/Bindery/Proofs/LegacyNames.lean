import Bindery.Proofs.LegacyPackage
import Mathlib.Data.List.Sort

/-!
# Names in legacy manifests

Grouping the modules by their directories loses no name: each directory has one group, and what its
members are called in it can be put together with it again. As the requirements are kept beside
them, the name of a manifest, its packages and its modules are read back from the older form:
`LegacyManifest.ofManifest_restores`.
-/

namespace Bindery

namespace Table

variable {α : Type}

theorem nodup_keys (t : Table α) : t.keys.Nodup := t.increasing.imp String.ne_of_lt

theorem find?_eq_some {t : Table α} {k : String} {v : α} :
    t.find? k = some v ↔ (k, v) ∈ t.entries := by
  rw [find?, Option.map_eq_some_iff]
  constructor
  · rintro ⟨⟨k', v'⟩, hfound, rfl⟩
    obtain rfl : k' = k := by simpa using List.find?_some hfound
    exact List.mem_of_find?_eq_some hfound
  · exact fun hmem => ⟨(k, v), find?_key_of_nodup t.nodup_keys hmem, rfl⟩

theorem ext_find? {a b : Table α} (h : ∀ k, a.find? k = b.find? k) : a = b := by
  have hsorted : ∀ t : Table α, t.entries.Pairwise fun x y => x.1 < y.1 := fun t =>
    List.pairwise_map.1 t.increasing
  have : Std.Irrefl fun x y : String × α => x.1 < y.1 := ⟨fun x => String.lt_irrefl x.1⟩
  refine ext (List.Pairwise.eq_of_mem_iff (hsorted a) (hsorted b) fun e => ?_)
  rw [← find?_eq_some, h, find?_eq_some]

end Table

namespace LegacyManifest

/-- A group that is not there yet comes last. -/
theorem map_fst_addMember {dir base : String} : ∀ {groups : List (String × List String)},
    (addMember dir base groups).map (·.1) =
      if dir ∈ groups.map (·.1) then groups.map (·.1) else groups.map (·.1) ++ [dir]
  | [] => rfl
  | (g, members) :: r => by
    unfold addMember
    split
    · rename_i hg
      simp [hg]
    · rename_i hg
      simp only [List.map_cons, map_fst_addMember, List.mem_cons, Ne.symm hg, false_or]
      split <;> rfl

theorem nodup_addMember {dir base : String} {groups : List (String × List String)}
    (h : (groups.map (·.1)).Nodup) : ((addMember dir base groups).map (·.1)).Nodup := by
  rw [map_fst_addMember]
  split
  · exact h
  · rename_i hnew
    exact List.nodup_append.2 ⟨h, List.nodup_singleton dir, fun g hg x hx hgx =>
      hnew (List.mem_singleton.1 hx ▸ hgx ▸ hg)⟩

theorem nodup_groupNames (names : List String) : ((groupNames names).map (·.1)).Nodup := by
  refine List.foldlRecOn (motive := fun groups : List (String × List String) =>
    (groups.map (·.1)).Nodup) names _ ?_ ?_
  · exact .nil
  · exact fun _ h _ _ => nodup_addMember h

theorem exists_name_of_group {names : List String} {dir : String} :
    dir ∈ (groupNames names).map (·.1) → ∃ name ∈ names, (splitName name).1 = dir := by
  refine List.foldlRecOn (motive := fun groups : List (String × List String) =>
    dir ∈ groups.map (·.1) → ∃ name ∈ names, (splitName name).1 = dir) names _ ?_ ?_
  · exact fun h => absurd h List.not_mem_nil
  · intro groups ih name hname h
    rw [map_fst_addMember] at h
    split at h
    · exact ih h
    · rcases List.mem_append.1 h with h | h
      · exact ih h
      · exact ⟨name, hname, (List.mem_singleton.1 h).symm⟩

/-- A name of a module: components joined by dots, at least one of them, none empty and none with a
dot in it. -/
def IsModuleName (text : String) : Prop :=
  ∃ name : Logical, name ≠ [] ∧ name.Dotless ∧ (∀ c ∈ name, c ≠ "") ∧ name.dotted = text

/-- The name of a module from the directory and from what it is called there. -/
def joinName (x : String × String) : String := Logical.dotted (Logical.ofDotted x.1 ++ [x.2])

theorem IsModuleName.exists_front {text : String} (h : IsModuleName text) :
    ∃ (front : Logical) (c : String), text = Logical.dotted (front ++ [c])
      ∧ splitName text = (front.dotted, c) ∧ Logical.ofDotted front.dotted = front := by
  obtain ⟨name, hne, hdotless, hparts, rfl⟩ := h
  obtain ⟨front, c, rfl⟩ := (List.eq_nil_or_concat' name).resolve_left hne
  obtain ⟨hfront, hc⟩ := List.forall_mem_append.1 hdotless
  exact ⟨front, c, rfl, splitName_concat (hc c (by simp)),
    Logical.ofDotted_dotted hfront fun x hx => hparts x (List.mem_append_left _ hx)⟩

theorem IsModuleName.joinName_splitName {text : String} (h : IsModuleName text) :
    joinName (splitName text) = text := by
  obtain ⟨front, c, htext, hsplit, hread⟩ := h.exists_front
  rw [hsplit, joinName, hread, htext]

theorem IsModuleName.dotted_ofDotted {text : String} (h : IsModuleName text) :
    (Logical.ofDotted (splitName text).1).dotted = (splitName text).1 := by
  obtain ⟨front, c, -, hsplit, hread⟩ := h.exists_front
  rw [hsplit, hread]

/-- What a compiled file is called without its extension. -/
def memberOf (file : String) : String := (Text.before? ".vo" file).getD file

@[simp] theorem memberOf_append (c : String) : memberOf (c ++ ".vo") = c := by
  rw [memberOf, Text.before?_eq_some.2 rfl, Option.getD_some]

/-- The names of the modules of all groups: the path of the group, then the file without its
extension. -/
def names (m : LegacyManifest) : List String :=
  m.groups.flatMap fun g => g.files.map fun f => Logical.dotted (g.path ++ [memberOf f])

/-- The modules that the groups name, each with the requirements that are recorded. -/
def modules (m : LegacyManifest) : Table (Option (List String)) :=
  .ofList (m.names.map fun n => (n, m.moduleDeps.find? n))

section Restores

variable {m : Manifest} {file : String}

theorem names_ofManifest (h : ∀ n ∈ m.modules.keys, IsModuleName n) :
    (ofManifest m file).names.Perm m.modules.keys := by
  have hjoin : (ofManifest m file).names =
      (ungrouped (groupNames m.modules.keys)).map joinName := by
    simp [names, ofManifest, ungrouped, joinName, List.flatMap_map, List.map_flatMap,
      Function.comp_def]
  have hsplit : ∀ n ∈ m.modules.keys, (joinName ∘ splitName) n = id n := by
    intro n hn
    rw [Function.comp_apply, (h n hn).joinName_splitName, id]
  have hkeys : (m.modules.keys.map splitName).map joinName = m.modules.keys := by
    rw [List.map_map, List.map_congr_left hsplit, List.map_id]
  rw [hjoin]
  exact ((ungrouped_groupNames _).map joinName).trans (.of_eq hkeys)

theorem nodup_paths (h : ∀ n ∈ m.modules.keys, IsModuleName n) :
    ((ofManifest m file).groups.map (·.path)).Nodup := by
  have hdirs : ((ofManifest m file).groups.map (·.path)).map Logical.dotted =
      (groupNames m.modules.keys).map (·.1) := by
    rw [ofManifest, List.map_map, List.map_map, List.map_inj_left]
    intro g hg
    obtain ⟨n, hn, hdir⟩ := exists_name_of_group (List.mem_map_of_mem hg)
    show (Logical.ofDotted g.1).dotted = g.1
    rw [← hdir, (h n hn).dotted_ofDotted]
  refine List.Nodup.of_map Logical.dotted ?_
  rw [hdirs]
  exact nodup_groupNames _

theorem find?_moduleDeps {n : String} {deps : List String} :
    (ofManifest m file).moduleDeps.find? n = some deps ↔
      m.modules.find? n = some (some deps) := by
  have hmem : ∀ x : String × List String, x ∈ m.modules.entries.filterMap
      (fun e => e.2.map (e.1, ·)) ↔ (x.1, some x.2) ∈ m.modules.entries := by
    intro x
    simp only [List.mem_filterMap, Option.map_eq_some_iff]
    constructor
    · rintro ⟨⟨k, d⟩, hk, d', rfl, rfl⟩
      exact hk
    · exact fun h => ⟨_, h, _, rfl, rfl⟩
  have hsorted : Table.Increasing (m.modules.entries.filterMap fun e => e.2.map (e.1, ·)) := by
    refine List.pairwise_map.2
      (List.Pairwise.filterMap _ ?_ (List.pairwise_map.1 m.modules.increasing))
    intro e e' hlt x hx x' hx'
    obtain ⟨-, -, rfl⟩ := Option.map_eq_some_iff.1 hx
    obtain ⟨-, -, rfl⟩ := Option.map_eq_some_iff.1 hx'
    exact hlt
  rw [ofManifest, Table.find?_eq_some, Table.entries_ofList hsorted, hmem, Table.find?_eq_some]

/-- If the names of a manifest's modules are components joined by dots, nothing of its name, its
packages and its modules is lost in the older form: each directory has one group, the groups name
each module once and nothing else, and the requirements are those that are recorded. -/
theorem ofManifest_restores (file : String) (h : ∀ n ∈ m.modules.keys, IsModuleName n) :
    ((ofManifest m file).groups.map (·.path)).Nodup
      ∧ (∀ g ∈ (ofManifest m file).groups, ∀ f ∈ g.files, ∃ c, f = c ++ ".vo")
      ∧ (ofManifest m file).names.Nodup
      ∧ (∀ n, n ∈ (ofManifest m file).names ↔ n ∈ m.modules.keys)
      ∧ (∀ n deps, (ofManifest m file).moduleDeps.find? n = some deps ↔
        m.modules.find? n = some (some deps))
      ∧ (ofManifest m file).desc = m.name
      ∧ (ofManifest m file).deps = m.deps
      ∧ (ofManifest m file).modules = m.modules := by
  have hperm : (ofManifest m file).names.Perm m.modules.keys := names_ofManifest h
  refine ⟨nodup_paths h, ?_, hperm.nodup_iff.2 m.modules.nodup_keys, fun n => hperm.mem_iff,
    fun _ _ => find?_moduleDeps, rfl, rfl, Table.ext_find? fun n => ?_⟩
  · intro g hg f hf
    obtain ⟨⟨dir, members⟩, -, rfl⟩ := List.mem_map.1 hg
    obtain ⟨c, -, rfl⟩ := List.mem_map.1 hf
    exact ⟨c, rfl⟩
  · have hname : n ∈ (ofManifest m file).names ↔ (m.modules.find? n).isSome = true :=
      hperm.mem_iff.trans (Table.isSome_find? _ _).symm
    rw [modules, Table.find?_ofList_map]
    simp only [hname]
    rcases hfound : m.modules.find? n with _ | deps
    · rfl
    · have hdeps : (ofManifest m file).moduleDeps.find? n = deps :=
        Option.ext fun d => by rw [find?_moduleDeps, hfound, Option.some.injEq]
      rw [Option.isSome_some, if_pos rfl, hdeps]

/-- Modules whose directories lie in one another, with and without requirements. -/
def nestedManifest : Manifest :=
  ⟨"p", ["q"], .ofList [("L.T", none), ("A", some []), ("L.S.D", some ["A", "L.B"]), ("L.B", none)],
    none⟩

theorem ofManifest_restores_nested :
    (∀ n ∈ nestedManifest.modules.keys, IsModuleName n)
      ∧ (ofManifest nestedManifest "out/p.pkg").groups =
        [⟨[], ["A.vo"]⟩, ⟨["L"], ["B.vo", "T.vo"]⟩, ⟨["L", "S"], ["D.vo"]⟩]
      ∧ (ofManifest nestedManifest "out/p.pkg").names.Nodup
      ∧ (∀ n, n ∈ (ofManifest nestedManifest "out/p.pkg").names ↔
        n ∈ ["A", "L.B", "L.S.D", "L.T"])
      ∧ (ofManifest nestedManifest "out/p.pkg").modules = nestedManifest.modules := by
  have hkeys : nestedManifest.modules.keys = ["A", "L.B", "L.S.D", "L.T"] := by decide +kernel
  have hnames : ∀ n ∈ nestedManifest.modules.keys, IsModuleName n := by
    rw [hkeys]
    simp only [List.forall_mem_cons]
    exact ⟨⟨["A"], by decide +kernel⟩, ⟨["L", "B"], by decide +kernel⟩,
      ⟨["L", "S", "D"], by decide +kernel⟩, ⟨["L", "T"], by decide +kernel⟩, by simp⟩
  obtain ⟨-, -, honce, hmem, -, -, -, hmodules⟩ :=
    ofManifest_restores "out/p.pkg" hnames
  exact ⟨hnames, by decide +kernel, honce, hkeys ▸ hmem, hmodules⟩

end Restores

end LegacyManifest

end Bindery
