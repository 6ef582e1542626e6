import Bindery.Proofs.DottedName
import Bindery.Proofs.OutputManifest

/-!
# Packages of the older form

A legacy manifest lists a compiled file for each module of the project, whatever kind of file the
module has, `Project.mem_legacy_paths`; the archive holds the compiled files that are there,
`Project.mem_compiledNames_contents`. So both name the same files just if each module has its
compiled file: `legacy_paths`.
-/

namespace Bindery

/-- The file of the compiled form of a module in a package. -/
def Record.compiledFile (m : Record) : String := "/".intercalate m.logical ++ compiledExtension

/-- A name that is read back from its text: no component has a dot in it, and none is empty but
perhaps the last. -/
structure Logical.Plain (name : Logical) : Prop where
  dotless : name.Dotless
  front : ∀ c ∈ name.dropLast, c ≠ ""

instance (name : Logical) : Decidable name.Plain :=
  decidable_of_iff (name.Dotless ∧ ∀ c ∈ name.dropLast, c ≠ "")
    ⟨fun ⟨hd, hf⟩ => ⟨hd, hf⟩, fun h => ⟨h.dotless, h.front⟩⟩

namespace LegacyManifest

/-- The paths of the files that a legacy manifest lists. -/
def paths (m : LegacyManifest) : List String :=
  m.groups.flatMap fun g => g.files.map fun f => "/".intercalate (g.path ++ [f])

/-- A group has a member. -/
def IsMember (groups : List (String × List String)) (group member : String) : Prop :=
  ∃ members, (group, members) ∈ groups ∧ member ∈ members

/-- The members of all groups, each with its group. -/
def ungrouped (groups : List (String × List String)) : List (String × String) :=
  groups.flatMap fun (group, members) => members.map (group, ·)

theorem isMember_iff {groups : List (String × List String)} {group member : String} :
    IsMember groups group member ↔ (group, member) ∈ ungrouped groups := by
  rw [IsMember, ungrouped, List.mem_flatMap]
  constructor
  · rintro ⟨members, hgroup, hmember⟩
    exact ⟨_, hgroup, List.mem_map_of_mem hmember⟩
  · rintro ⟨⟨g, members⟩, hgroup, hmember⟩
    obtain ⟨x, hx, heq⟩ := List.mem_map.1 hmember
    cases heq
    exact ⟨members, hgroup, hx⟩

theorem ungrouped_addMember {dir base : String} : ∀ {groups : List (String × List String)},
    (ungrouped (addMember dir base groups)).Perm (ungrouped groups ++ [(dir, base)])
  | [] => .refl _
  | (g, members) :: r => by
    unfold addMember
    split
    · rename_i hg
      simp only [ungrouped, List.flatMap_cons, List.map_append, List.map_cons, List.map_nil, hg,
        List.append_assoc]
      exact List.perm_append_comm.append_left _
    · simp only [ungrouped, List.flatMap_cons, List.append_assoc]
      exact ungrouped_addMember.append_left _

/-- Grouping keeps every name, as often as it is there. -/
theorem ungrouped_groupNames (names : List String) :
    (ungrouped (groupNames names)).Perm (names.map splitName) := by
  have hfold : ∀ (names : List String) (groups : List (String × List String)),
      (ungrouped (names.foldl (fun gs n => addMember (splitName n).1 (splitName n).2 gs)
        groups)).Perm (ungrouped groups ++ names.map splitName) := by
    intro names
    induction names with
    | nil => simp
    | cons n r ih =>
      intro groups
      refine (ih _).trans ((ungrouped_addMember.append_right _).trans ?_)
      simp
  exact hfold names []

theorem isMember_groupNames {group member : String} (names : List String) :
    IsMember (groupNames names) group member ↔
      ∃ name ∈ names, splitName name = (group, member) := by
  rw [isMember_iff, (ungrouped_groupNames names).mem_iff, List.mem_map]

/-- The file that is listed for a module. -/
def fileOf (name : String) : String :=
  "/".intercalate (Logical.ofDotted (splitName name).1 ++ [(splitName name).2 ++ ".vo"])

theorem mem_paths {m : Manifest} {file n : String} :
    n ∈ (ofManifest m file).paths ↔ ∃ name ∈ m.modules.keys, n = fileOf name := by
  rw [paths, ofManifest, List.mem_flatMap]
  constructor
  · rintro ⟨g, hg, hn⟩
    obtain ⟨⟨dir, members⟩, hgroup, rfl⟩ := List.mem_map.1 hg
    rw [List.map_map, List.mem_map] at hn
    obtain ⟨base, hbase, hn⟩ := hn
    obtain ⟨name, hname, hsplit⟩ := (isMember_groupNames _).1 ⟨members, hgroup, hbase⟩
    refine ⟨name, hname, ?_⟩
    rw [← hn, fileOf, hsplit, Function.comp_apply]
  · rintro ⟨name, hname, hn⟩
    rcases hsplit : splitName name with ⟨dir, base⟩
    obtain ⟨members, hgroup, hbase⟩ := (isMember_groupNames _).2 ⟨name, hname, hsplit⟩
    refine ⟨_, List.mem_map_of_mem hgroup, ?_⟩
    rw [List.map_map, List.mem_map]
    refine ⟨base, hbase, ?_⟩
    rw [hn, fileOf, hsplit, Function.comp_apply]

theorem splitName_concat {front : Logical} {c : String} (h : '.' ∉ c.toList) :
    splitName (Logical.dotted (front ++ [c])) = (front.dotted, c) := by
  by_cases hfront : front = []
  · have hc : Logical.dotted [c] = c := by simp [Logical.dotted]
    rw [hfront, List.nil_append, hc, splitName, Text.splitLast?_eq_none h]
    rfl
  · rw [splitName, Logical.toList_dotted_concat hfront, Text.splitLast?_append h]
    simp

theorem fileOf_dotted {m : Record} (h : m.logical.Plain) : fileOf m.dotted = m.compiledFile := by
  rw [Record.dotted, Record.compiledFile]
  generalize m.logical = name at h
  rcases List.eq_nil_or_concat' name with rfl | ⟨front, c, rfl⟩
  · rfl
  · have hdotless := List.forall_mem_append.1 h.dotless
    have hparts : ∀ x ∈ front, x ≠ "" := by simpa using h.front
    rw [fileOf, splitName_concat (hdotless.2 c (by simp)),
      Logical.ofDotted_dotted hdotless.1 hparts, compiledExtension, logical_append_extension]
    simp [Path.text]

end LegacyManifest

theorem Record.hasExtension_iff {m : Record} {e : String} :
    m.hasExtension e = true ↔ ∃ front, m.physical = front ++ e := by
  simp only [Record.hasExtension, Option.isSome_iff_exists, Text.before?_eq_some]

/-- A path that ends in a module extension has no other extension. -/
theorem Path.extension?_append {s e e' : String} (he : e ∈ moduleExtensions)
    (h : extension? (s ++ e) = some e') : e' = e := by
  have hlast : ∀ x ∈ moduleExtensions, x ≠ "" ∧ x.toList.getLast? ≠ some '/' := by decide
  obtain ⟨hne, hslash⟩ := hlast e he
  have hpath : (s ++ e).toList.getLast? ≠ some '/' := by rwa [Text.getLast?_append hne]
  obtain ⟨front, hfront⟩ := exists_basename hpath
  obtain ⟨r, rfl, hr⟩ := moduleExtension_dot he
  have hdot : ("." ++ String.ofList r).toList = '.' :: r := by simp
  rw [String.toList_append, hdot] at hfront
  unfold extension? at h
  -- The last part of the path ends in the extension, or it has no dot to start one.
  rcases List.suffix_or_suffix_of_suffix (List.suffix_append s.toList ('.' :: r))
    (hfront ▸ List.suffix_append front (basename (s ++ ("." ++ String.ofList r))).toList) with
    ⟨back, hback⟩ | hback
  · rw [← hback, Text.splitLast?_append hr] at h
    rcases back with _ | ⟨x, t⟩
    · cases h
    · exact (Option.some.inj h).symm
  · rcases List.suffix_cons_iff.1 hback with hbase | hbase
    · have hsplit : Text.splitLast? '.' ([] ++ '.' :: r) = some ([], r) := Text.splitLast?_append hr
      rw [hbase, ← List.nil_append ('.' :: r), hsplit] at h
      cases h
    · rw [Text.splitLast?_eq_none fun hmem => hr (hbase.subset hmem)] at h
      cases h

namespace Part

theorem name?_ofRecord (m : Record) : (ofRecord m).name? =
    (Path.extension? m.physical).map fun e => "/".intercalate m.logical ++ e := by
  rw [name?, ofRecord]
  cases Path.extension? m.physical <;> rfl

variable {m : Record} {n : String}

theorem splitPlugin_compiled (h : m.hasExtension compiledExtension = true) :
    splitPlugin m = [ofRecord m] := by
  rw [splitPlugin, if_neg]
  intro hplugin
  obtain ⟨front, hfront⟩ := Record.hasExtension_iff.1 h
  obtain ⟨front', hfront'⟩ := Record.hasExtension_iff.1 hplugin
  have heq := moduleExtension_unique (by decide) (by decide) (hfront.symm.trans hfront')
  exact absurd heq (by decide)

theorem name?_compiled (h : m.hasExtension compiledExtension = true)
    (hn : (ofRecord m).name? = some n) : n = m.compiledFile := by
  obtain ⟨front, hfront⟩ := Record.hasExtension_iff.1 h
  rw [name?_ofRecord, Option.map_eq_some_iff] at hn
  obtain ⟨e, he, rfl⟩ := hn
  rw [hfront] at he
  rw [Path.extension?_append (by decide) he, Record.compiledFile]

theorem name?_plugin {x : Part} (h : m.hasExtension pluginExtension = true)
    (hx : x ∈ splitPlugin m) (hn : x.name? = some n) (front : String) :
    n ≠ front ++ compiledExtension := by
  rintro rfl
  have hlast : (front ++ compiledExtension).toList.getLast? = compiledExtension.toList.getLast? :=
    Text.getLast?_append (by decide) front
  rw [splitPlugin, if_pos h, List.mem_cons, List.mem_singleton] at hx
  rcases hx with rfl | rfl
  · rw [← Option.some.inj hn, Text.getLast?_append (by decide)] at hlast
    exact absurd hlast (by decide)
  · rw [← Option.some.inj hn, Text.getLast?_append (by decide)] at hlast
    exact absurd hlast (by decide)

end Part

/-- The compiled files among some names. -/
def compiledNames (names : List String) : List String :=
  names.filter fun n => (Text.before? compiledExtension n).isSome

theorem mem_compiledNames {names : List String} {n : String} :
    n ∈ compiledNames names ↔ n ∈ names ∧ ∃ front, n = front ++ compiledExtension := by
  simp only [compiledNames, List.mem_filter, Option.isSome_iff_exists, Text.before?_eq_some]

namespace Project

variable {st : Storage} {p : Project} {resolve : Resolver}

theorem mem_keys_manifest {m : Manifest} (h : p.manifest resolve st = .ok m) {n : String} :
    n ∈ m.modules.keys ↔ ∃ x ∈ p.modules st, x.dotted = n := by
  obtain ⟨plan, -, rfl⟩ := exists_plan h
  have hname : n ∈ (p.names st).toList ↔ ∃ x ∈ p.modules st, x.dotted = n := by
    rw [names, Record.names, NameSet.mem_toList_ofList, List.mem_map]
  rw [← hname, ← Table.isSome_find?, manifestOf, Table.find?_ofList_map]
  split <;> simpa

theorem mem_legacy_paths {m : Manifest} (file : String) {n : String}
    (h : p.manifest resolve st = .ok m) (hplain : ∀ x ∈ p.modules st, x.logical.Plain) :
    n ∈ (LegacyManifest.ofManifest m file).paths ↔
      n ∈ (p.modules st).map (·.compiledFile) := by
  rw [LegacyManifest.mem_paths, List.mem_map]
  constructor
  · rintro ⟨name, hname, hn⟩
    obtain ⟨x, hx, rfl⟩ := (mem_keys_manifest h).1 hname
    exact ⟨x, hx, by rw [hn, LegacyManifest.fileOf_dotted (hplain x hx)]⟩
  · rintro ⟨x, hx, hn⟩
    exact ⟨x.dotted, (mem_keys_manifest h).2 ⟨x, hx, rfl⟩,
      by rw [← hn, LegacyManifest.fileOf_dotted (hplain x hx)]⟩

theorem mem_modulesWith_compiled {m : Record} : m ∈ p.modulesWith st [compiledExtension] ↔
    m ∈ p.modules st ∧ m.hasExtension compiledExtension = true := by
  simp [modulesWith]

/-- If all parts are named, the compiled files among them are those of the modules that have one. -/
theorem exists_part_compiled {n : String}
    (hnamed : ∀ x ∈ (p.modulesWith st Selection.standard.extensions).flatMap Part.splitPlugin,
      ∃ name, x.name? = some name) :
    ((∃ x ∈ (p.modulesWith st Selection.standard.extensions).flatMap Part.splitPlugin,
        x.name? = some n) ∧ ∃ front, n = front ++ compiledExtension) ↔
      n ∈ (p.modulesWith st [compiledExtension]).map (·.compiledFile) := by
  have hmem : ∀ m, m ∈ p.modulesWith st Selection.standard.extensions ↔ m ∈ p.modules st
      ∧ (m.hasExtension compiledExtension = true ∨ m.hasExtension Part.pluginExtension = true) := by
    intro m
    rw [modulesWith, List.mem_filter, List.any_eq_true]
    simp [Selection.standard, compiledExtension, Part.pluginExtension]
  rw [List.mem_map]
  constructor
  · rintro ⟨⟨x, hx, hn⟩, front, hfront⟩
    obtain ⟨m, hm, hx⟩ := List.mem_flatMap.1 hx
    obtain ⟨hm, hvo | hplugin⟩ := (hmem m).1 hm
    · rw [Part.splitPlugin_compiled hvo, List.mem_singleton] at hx
      exact ⟨m, mem_modulesWith_compiled.2 ⟨hm, hvo⟩, (Part.name?_compiled hvo (hx ▸ hn)).symm⟩
    · exact absurd hfront (Part.name?_plugin hplugin hx hn front)
  · rintro ⟨m, hm, rfl⟩
    obtain ⟨hm, hvo⟩ := mem_modulesWith_compiled.1 hm
    have hx : Part.ofRecord m ∈
        (p.modulesWith st Selection.standard.extensions).flatMap Part.splitPlugin :=
      List.mem_flatMap.2 ⟨m, (hmem m).2 ⟨hm, .inl hvo⟩, by simp [Part.splitPlugin_compiled hvo]⟩
    obtain ⟨name, hname⟩ := hnamed _ hx
    rw [Part.name?_compiled hvo hname] at hname
    exact ⟨⟨_, hx, hname⟩, _, rfl⟩

theorem mem_compiledNames_contents {manifest n : String}
    (hskip : (p.contents st (some manifest) Selection.standard.extensions
      Part.splitPlugin).skipped = []) :
    n ∈ compiledNames (p.contents st (some manifest) Selection.standard.extensions
        Part.splitPlugin).names ↔
      n ∈ (p.modulesWith st [compiledExtension]).map (·.compiledFile) := by
  obtain ⟨-, hholds⟩ := Contents.holds_foldl_add hskip
  have hentry : Text.before? compiledExtension Manifest.entryName = none := by decide
  have hnamed := fun x hx => (hholds.named x hx).imp fun _ h => h.2
  rw [mem_compiledNames, contents, hholds.mem_names, ← exists_part_compiled hnamed]
  -- Besides the parts there is only the manifest, which is no compiled file.
  refine and_congr_left fun hend => or_iff_right fun hn => ?_
  obtain ⟨front, hfront⟩ := hend
  have hn : n = Manifest.entryName := List.mem_singleton.1 hn
  rw [← hn, Text.before?_eq_some.2 hfront] at hentry
  cases hentry

/-- What is written in a package of the older form: a legacy manifest, and an archive of members
with some names. -/
structure Writes (style : Style) (pkg : Package) (legacy : LegacyManifest) (names : List String) :
    Prop where
  manifest : pkg.manifest = style.layout.text legacy.toJson
  archive : ∃ stamp members, pkg.archive = Zip.write stamp members ∧ members.map (·.name) = names

section Older

variable {named : Option String} {style : Style} {pkg : Package}

theorem exists_writes
    (h : p.package resolve st (Selection.legacy { Selection.standard with file := named }) style =
      .ok pkg) :
    ∃ m, p.manifest resolve st = .ok m
      ∧ Writes style pkg (LegacyManifest.ofManifest m (FileName.package (named.getD p.name)))
        (p.contents st (some pkg.manifest) Selection.standard.extensions Part.splitPlugin).names
      ∧ pkg.skipped =
        (p.contents st (some pkg.manifest) Selection.standard.extensions
          Part.splitPlugin).skipped := by
  obtain ⟨m, stamp, hm, -, hmanifest, harchive, hskip⟩ := package_inv h
  exact ⟨m, hm, ⟨hmanifest, stamp, _, harchive, rfl⟩, hskip⟩

/-- If nothing is skipped from a package of the older form, its manifest lists the compiled files of
all modules, and its archive holds those that are there. So they name the same files just if each
module has its compiled file. -/
theorem legacy_paths
    (hpkg : p.package resolve st (Selection.legacy { Selection.standard with file := named })
      style = .ok pkg)
    (hskip : pkg.skipped = []) (hplain : ∀ m ∈ p.modules st, m.logical.Plain) :
    ∃ legacy names, Writes style pkg legacy names
      ∧ (∀ n, n ∈ legacy.paths ↔ n ∈ (p.modules st).map (·.compiledFile))
      ∧ (∀ n, n ∈ compiledNames names ↔
        n ∈ (p.modulesWith st [compiledExtension]).map (·.compiledFile))
      ∧ ((∀ n, n ∈ legacy.paths ↔ n ∈ compiledNames names) ↔ ∀ m ∈ p.modules st,
        m.compiledFile ∈ (p.modulesWith st [compiledExtension]).map (·.compiledFile)) := by
  obtain ⟨m, hm, hwrites, hskip'⟩ := exists_writes hpkg
  have hpaths := fun n => mem_legacy_paths (FileName.package (named.getD p.name)) (n := n) hm hplain
  have hcompiled := fun n => mem_compiledNames_contents (n := n) (hskip'.symm.trans hskip)
  refine ⟨_, _, hwrites, hpaths, hcompiled, ?_, ?_⟩
  · intro h m hmod
    exact (hcompiled _).1 ((h _).1 ((hpaths _).2 (List.mem_map_of_mem hmod)))
  · intro h n
    refine (hpaths n).trans (Iff.trans ⟨fun hn => ?_, fun hn => ?_⟩ (hcompiled n).symm)
    · obtain ⟨m, hmod, rfl⟩ := List.mem_map.1 hn
      exact h m hmod
    · obtain ⟨m, hmod, rfl⟩ := List.mem_map.1 hn
      exact List.mem_map_of_mem (mem_modulesWith_compiled.1 hmod).1

end Older

def pluginStorage : Storage :=
  ⟨[.ofList [("/d/A.v", "".toUTF8), ("/d/A.vo", "1".toUTF8), ("/d/L/B.vo", "2".toUTF8),
    ("/d/P.cma", "3".toUTF8), ("/d/P.cma.js", "4".toUTF8)]], [], default, 1⟩

/-- A module with source and compiled file, one in a directory, and a plugin. -/
def pluginProject : Project :=
  ⟨"p", dottedVolume, ⟨dottedVolume,
    [⟨dottedVolume, [], "/d", some "p"⟩, ⟨dottedVolume, ["L"], "/d/L", some "p"⟩], none, none⟩, [],
    none⟩

theorem legacy_paths_plugin : ∃ pkg legacy names,
    pluginProject.package Plan.ofSources pluginStorage
        (Selection.legacy { Selection.standard with file := none }) dottedStyle = .ok pkg
      ∧ pkg.skipped = [] ∧ Writes dottedStyle pkg legacy names
      ∧ (∀ n, n ∈ legacy.paths ↔ n ∈ ["A.vo", "A.vo", "P.vo", "L/B.vo"])
      ∧ ∀ n, n ∈ compiledNames names ↔ n ∈ ["A.vo", "L/B.vo"] := by
  obtain ⟨pkg, hpkg, hskip⟩ : ∃ pkg, pluginProject.package Plan.ofSources pluginStorage
        (Selection.legacy { Selection.standard with file := none }) dottedStyle = .ok pkg
      ∧ pkg.skipped = [] := ⟨_, rfl, rfl⟩
  have hall : (pluginProject.modules pluginStorage).map (·.compiledFile) =
      ["A.vo", "A.vo", "P.vo", "L/B.vo"] := by decide +kernel
  have hcompiled : (pluginProject.modulesWith pluginStorage [compiledExtension]).map
      (·.compiledFile) = ["A.vo", "L/B.vo"] := by decide +kernel
  have hplain : ∀ m ∈ pluginProject.modules pluginStorage, m.logical.Plain := by decide +kernel
  obtain ⟨legacy, names, hwrites, hpaths, hnames, -⟩ := legacy_paths hpkg hskip hplain
  exact ⟨pkg, legacy, names, hpkg, hskip, hwrites, hall ▸ hpaths, hcompiled ▸ hnames⟩

def uncompiledStorage : Storage := ⟨[.ofList [("/d/A.v", "".toUTF8)]], [], default, 1⟩

/-- A module that has no compiled file is listed all the same, and a dot in the name of a file is
taken for one between components. -/
theorem legacy_paths_uncompiled :
    (∃ pkg legacy names, dottedProject.package Plan.ofSources uncompiledStorage
        (Selection.legacy { Selection.standard with file := none }) dottedStyle = .ok pkg
      ∧ pkg.skipped = [] ∧ Writes dottedStyle pkg legacy names
      ∧ "A.vo" ∈ legacy.paths ∧ "A.vo" ∉ compiledNames names)
    ∧ ∃ pkg legacy names, dottedProject.package Plan.ofSources dottedStorage
        (Selection.legacy { Selection.standard with file := none }) dottedStyle = .ok pkg
      ∧ pkg.skipped = [] ∧ Writes dottedStyle pkg legacy names
      ∧ "A/b.vo" ∈ legacy.paths ∧ "A/b.vo" ∉ compiledNames names := by
  constructor
  · obtain ⟨pkg, hpkg, hskip⟩ : ∃ pkg, dottedProject.package Plan.ofSources uncompiledStorage
          (Selection.legacy { Selection.standard with file := none }) dottedStyle = .ok pkg
        ∧ pkg.skipped = [] := ⟨_, rfl, rfl⟩
    obtain ⟨m, hm, hwrites, hskip'⟩ := exists_writes hpkg
    have hplain : ∀ x ∈ dottedProject.modules uncompiledStorage, x.logical.Plain := by
      decide +kernel
    have hall : "A.vo" ∈ (dottedProject.modules uncompiledStorage).map (·.compiledFile) := by
      decide +kernel
    have hcompiled : "A.vo" ∉ (dottedProject.modulesWith uncompiledStorage
        [compiledExtension]).map (·.compiledFile) := by decide +kernel
    exact ⟨pkg, _, _, hpkg, hskip, hwrites, (mem_legacy_paths _ hm hplain).2 hall,
      mt (mem_compiledNames_contents (hskip'.symm.trans hskip)).1 hcompiled⟩
  · obtain ⟨pkg, hpkg, hskip⟩ : ∃ pkg, dottedProject.package Plan.ofSources dottedStorage
          (Selection.legacy { Selection.standard with file := none }) dottedStyle = .ok pkg
        ∧ pkg.skipped = [] := ⟨_, rfl, rfl⟩
    obtain ⟨m, hm, hwrites, hskip'⟩ := exists_writes hpkg
    have hmanifest : dottedProject.manifest Plan.ofSources dottedStorage =
        .ok ⟨"p", ["q"], .ofList [("A.b", none)], none⟩ := by decide +kernel
    have hcompiled : "A/b.vo" ∉ (dottedProject.modulesWith dottedStorage
        [compiledExtension]).map (·.compiledFile) := by decide +kernel
    cases hm.symm.trans hmanifest
    exact ⟨pkg, _, _, hpkg, hskip, hwrites, by decide +kernel,
      mt (mem_compiledNames_contents (hskip'.symm.trans hskip)).1 hcompiled⟩

end Project

end Bindery
