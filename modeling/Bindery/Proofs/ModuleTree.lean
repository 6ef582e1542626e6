import Bindery.Proofs.ModuleFile
import Bindery.Proofs.VolumeTree

/-!
# Projects over trees of files

A project that was scanned in memory is spread over the tree of the files below its directory,
`Scanned.exists_tree`. Its modules with some extensions are what the directories of the tree carry,
`Over.mem_modulesWith`. A tree with these files alone and a manifest carries the same modules,
`carries_packed`; a tree of files placed by names carries just the modules of these names,
`exists_of_namedFile`.
-/

namespace Bindery

open Bindery.Path (IsStep AllSteps)
open Listing (Normal)

/-- A directory of a tree holds something that has the name of a module and an extension. -/
structure Carries (file : List String → Prop) (exts : List String) (dir : List String)
    (stem e : String) : Prop where
  isDirectory : IsDirectory file dir
  exists_file : ∃ r, file (dir ++ (stem ++ e) :: r)
  stem_ne : stem ≠ ""
  ext : e ∈ exts

/-- The files of a tree that are packaged, each at its place, and the manifest. -/
def Packed (file : List String → Prop) (exts : List String) (f : List String) : Prop :=
  f = [Manifest.entryName]
    ∨ ∃ dir stem e, Carries file exts dir stem e ∧ f = dir ++ [stem ++ e]

section Carries

variable {file : List String → Prop} {exts dir : List String} {stem e : String}

theorem moduleStem?_append (hx : exts ⊆ moduleExtensions) (hstem : stem ≠ "") (he : e ∈ exts) :
    moduleStem? (stem ++ e) = some stem :=
  moduleStem?_eq_some.2 ⟨hstem, e, hx he, rfl⟩

theorem ne_entryName (hx : exts ⊆ moduleExtensions) (hstem : stem ≠ "") (he : e ∈ exts) :
    stem ++ e ≠ Manifest.entryName := by
  intro h
  have hsome := moduleStem?_append hx hstem he
  have hnone : moduleStem? Manifest.entryName = none := rfl
  rw [h, hnone] at hsome
  cases hsome

theorem Carries.allSteps (hs : ∀ f, file f → AllSteps f) (h : Carries file exts dir stem e) :
    AllSteps (dir ++ [stem ++ e]) := by
  obtain ⟨r, hr⟩ := h.exists_file
  have hall := hs _ hr
  rw [List.append_cons] at hall
  exact hall.left

theorem isStep_entryName : IsStep Manifest.entryName := ⟨by decide, by decide, by decide⟩

theorem Packed.allSteps (hs : ∀ f, file f → AllSteps f) {f : List String}
    (hf : Packed file exts f) : AllSteps f := by
  rcases hf with rfl | ⟨dir, stem, e, hc, rfl⟩
  · exact isStep_entryName.allSteps
  · exact hc.allSteps hs

theorem Packed.isDirectoryName (hx : exts ⊆ moduleExtensions) {f : List String}
    (hf : Packed file exts f) : Archive.isDirectoryName (Path.text false f) = false := by
  rcases hf with rfl | ⟨dir, stem, e, hc, rfl⟩
  · decide
  · exact isDirectoryName_moduleFile false (hx hc.ext)

/-- What carries the name of a module and its extension is known by its steps. -/
theorem Carries.unique {dir' : List String} {stem' e' : String} (hx : exts ⊆ moduleExtensions)
    (h : Carries file exts dir stem e) (h' : Carries file exts dir' stem' e')
    (hf : dir ++ [stem ++ e] = dir' ++ [stem' ++ e']) : dir = dir' ∧ stem = stem' ∧ e = e' := by
  obtain ⟨hdir, hname⟩ := List.append_inj' hf rfl
  have hname : stem ++ e = stem' ++ e' := by simpa using hname
  have he : e = e' := moduleExtension_unique (hx h.ext) (hx h'.ext) hname
  subst he
  have hsome := moduleStem?_append hx h.stem_ne h.ext
  rw [hname, moduleStem?_append hx h'.stem_ne h'.ext] at hsome
  exact ⟨hdir, (Option.some.inj hsome).symm, rfl⟩

/-- A tree with the packaged files alone carries the same modules, if all that carries a module is
a file, and the manifest takes the place of no directory. -/
theorem carries_packed (hx : exts ⊆ moduleExtensions)
    (hfile : ∀ dir stem e, Carries file exts dir stem e → file (dir ++ [stem ++ e]))
    (hreserved : ¬ IsDirectory file [Manifest.entryName]) :
    Carries (Packed file exts) exts dir stem e ↔ Carries file exts dir stem e := by
  constructor
  · rintro ⟨-, ⟨r, hr⟩, hstem, he⟩
    rcases hr with hr | ⟨dir', stem', e', hc, hf⟩
    · -- The manifest is the only step of its path, and carries no module.
      rcases dir with _ | ⟨x, t⟩
      · simp only [List.nil_append, List.cons.injEq] at hr
        exact absurd hr.1 (ne_entryName hx hstem he)
      · simp at hr
    · obtain ⟨back, hback⟩ : ∃ back, dir' = dir ++ back := by
        have hinit := congrArg List.dropLast hf
        rw [List.dropLast_concat, List.dropLast_append_cons] at hinit
        exact ⟨_, hinit.symm⟩
      have hdir : IsDirectory file dir := by
        have := hc.isDirectory
        rw [hback] at this
        exact this.front
      exact ⟨hdir, ⟨r, hf ▸ hfile _ _ _ hc⟩, hstem, he⟩
  · intro h
    refine ⟨⟨.inr ⟨_, [], .inr ⟨dir, stem, e, h, rfl⟩⟩, ?_⟩, ⟨[], .inr ⟨dir, stem, e, h, rfl⟩⟩,
      h.stem_ne, h.ext⟩
    rintro front back rfl hne (rfl | ⟨dir', stem', e', hc, rfl⟩)
    · exact hreserved h.isDirectory.front
    · exact h.isDirectory.2 _ back rfl hne (hfile _ _ _ hc)

end Carries

/-- A name that the place of a file tells: the components before the last name directories, none
of them called like a file of a module, and the last is not empty and has no slash. -/
def Logical.Storable (name : Logical) : Prop :=
  ∃ front stem, name = front ++ [stem] ∧ AllSteps front ∧ (∀ c ∈ front, moduleStem? c = none)
    ∧ stem ≠ "" ∧ '/' ∉ stem.toList

/-- The files with an extension at the places that the names of some modules tell. -/
def NamedFile (records : List Record) (e : String) (f : List String) : Prop :=
  ∃ m ∈ records, ∃ front stem, m.logical = front ++ [stem] ∧ f = front ++ [stem ++ e]

section NamedFile

variable {records : List Record} {e : String} {f dir front r : List String} {c stem : String}

theorem Logical.storable_concat_iff : Logical.Storable (front ++ [stem]) ↔
    AllSteps front ∧ (∀ c ∈ front, moduleStem? c = none) ∧ stem ≠ "" ∧ '/' ∉ stem.toList := by
  constructor
  · rintro ⟨front', stem', hname, h⟩
    obtain ⟨rfl, hstem⟩ := List.append_inj' hname rfl
    obtain rfl := List.singleton_inj.1 hstem
    exact h
  · exact fun h => ⟨front, stem, rfl, h⟩

theorem Logical.Storable.stem_ne (h : Logical.Storable (front ++ [stem])) : stem ≠ "" :=
  (storable_concat_iff.1 h).2.2.1

theorem Logical.Storable.moduleStem? (h : Logical.Storable (front ++ [stem])) (hc : c ∈ front) :
    moduleStem? c = none :=
  (storable_concat_iff.1 h).2.1 c hc

theorem Logical.Storable.allSteps (h : Logical.Storable (front ++ [stem]))
    (he : e ∈ moduleExtensions) : AllSteps (front ++ [stem ++ e]) := by
  obtain ⟨hsteps, -, hne, hslash⟩ := storable_concat_iff.1 h
  have hext : ∀ x ∈ moduleExtensions, '/' ∉ x.toList := by decide
  refine hsteps.append (isStep_of_moduleStem? (moduleStem?_eq_some.2 ⟨hne, e, he, rfl⟩) ?_).allSteps
  rw [String.toList_append, List.mem_append, not_or]
  exact ⟨hslash, hext e he⟩

variable (h : ∀ m ∈ records, m.logical.Storable) (he : e ∈ moduleExtensions)

include h he

theorem NamedFile.allSteps (hf : NamedFile records e f) : AllSteps f := by
  obtain ⟨m, hm, front, stem, hname, rfl⟩ := hf
  exact Logical.Storable.allSteps (hname ▸ h m hm) he

theorem isDirectory_named {m : Record} (hm : m ∈ records) (hname : m.logical = front ++ [stem]) :
    IsDirectory (NamedFile records e) front := by
  have hstorable : Logical.Storable (front ++ [stem]) := hname ▸ h m hm
  refine ⟨.inr ⟨stem ++ e, [], m, hm, front, stem, hname, rfl⟩, ?_⟩
  -- No directory of the name is called like a file.
  rintro f b rfl - ⟨m', hm', front', stem', hname', rfl⟩
  have hstorable' : Logical.Storable (front' ++ [stem']) := hname' ▸ h m' hm'
  have hnone := hstorable.moduleStem? (c := stem' ++ e) (by simp)
  rw [moduleStem?_append (List.Subset.refl _) hstorable'.stem_ne he] at hnone
  cases hnone

theorem exists_of_namedFile (hf : NamedFile records e (dir ++ c :: r))
    (hc : moduleStem? c = some stem) :
    ∃ m ∈ records, m.logical = dir ++ [stem] ∧ c = stem ++ e := by
  obtain ⟨m, hm, front, stem', hname, hsplit⟩ := hf
  have hstorable : Logical.Storable (front ++ [stem']) := hname ▸ h m hm
  rcases List.eq_nil_or_concat' r with rfl | ⟨r', last, rfl⟩
  · obtain ⟨rfl, hlast⟩ := List.append_inj' hsplit rfl
    obtain rfl : c = stem' ++ e := by simpa using hlast
    rw [moduleStem?_append (List.Subset.refl _) hstorable.stem_ne he] at hc
    cases hc
    exact ⟨m, hm, hname, rfl⟩
  · -- A component before the last is called like no file of a module.
    rw [← List.cons_append, ← List.append_assoc] at hsplit
    obtain ⟨rfl, -⟩ := List.append_inj' hsplit rfl
    rw [hstorable.moduleStem? (by simp)] at hc
    cases hc

end NamedFile

namespace Project

variable {st : Storage} {v : Volume} {d : String} {p : Project}

/-- The modules of a project are those of the tree of files below a directory. -/
structure Over (st : Storage) (v : Volume) (root : Bool) (base : List String)
    (file : List String → Prop) (p : Project) : Prop where
  shows : st.Shows v root base file
  mem_modules : ∀ m, m ∈ p.modules st ↔
    ∃ dir c r stem, IsDirectory file dir ∧ file (dir ++ c :: r) ∧ moduleStem? c = some stem
      ∧ m = treeModule p.name v root base dir c stem

section Over

variable {root : Bool} {base : List String} {file : List String → Prop} {exts : List String}
  (h : p.Over st v root base file) (hx : exts ⊆ moduleExtensions)

include h hx

/-- The modules with some extensions are what the directories of the tree carry. -/
theorem Over.mem_modulesWith (m : Record) :
    m ∈ p.modulesWith st exts ↔ ∃ dir stem e, Carries file exts dir stem e
      ∧ m = treeModule p.name v root base dir (stem ++ e) stem := by
  have hphys : ∀ dir c stem, (treeModule p.name v root base dir c stem).physical =
      Path.text root (base ++ dir ++ [c]) := by
    intro dir c stem
    rw [List.append_assoc]
    rfl
  rw [modulesWith, List.mem_filter, h.mem_modules, List.any_eq_true]
  constructor
  · rintro ⟨⟨dir, c, r, stem, hdir, hr, hstem, rfl⟩, x, hxe, hext⟩
    obtain ⟨hne, e, he, rfl⟩ := moduleStem?_eq_some.1 hstem
    rw [hasExtension_moduleFile (hphys dir _ stem) he (hx hxe)] at hext
    exact ⟨dir, stem, e, ⟨hdir, ⟨r, hr⟩, hne, hext ▸ hxe⟩, rfl⟩
  · rintro ⟨dir, stem, e, ⟨hdir, ⟨r, hr⟩, hne, he⟩, rfl⟩
    refine ⟨⟨dir, _, r, stem, hdir, hr, moduleStem?_append hx hne he, rfl⟩, e, he, ?_⟩
    rw [hasExtension_moduleFile (hphys dir _ stem) (hx he) (hx he)]

/-- The name of a module and the extension of its file tell its place in the tree. -/
theorem Over.extension?_treeModule {dir : List String} {stem e : String}
    (hc : Carries file exts dir stem e) :
    Path.extension? (treeModule p.name v root base dir (stem ++ e) stem).physical = some e := by
  have hstep : IsStep (stem ++ e) := hc.allSteps h.shows.file_steps _ (by simp)
  rw [treeModule, ← List.append_assoc]
  exact extension?_moduleFile root (hx hc.ext) hc.stem_ne hstep

end Over

/-- A project has the entries of the scan of a directory, and no explicit list of modules. -/
structure Scanned (st : Storage) (v : Volume) (d : String) (p : Project) : Prop where
  entries : ∃ p₁, (new p.name v).scan st d = .ok p₁ ∧ p.search.entries = p₁.search.entries
  listed : p.listed = none

theorem over_of_levels {root : Bool} {base : List String} {file : List String → Prop} {n : Nat}
    (hst : st.Shows v root base file)
    (h : Scan.levels st n (top p.name v (Path.text root base)) = ⟨p.search.entries, none⟩)
    (hl : p.listed = none) : p.Over st v root base file :=
  ⟨hst, mem_modules_scan hst h rfl hl⟩

/-- The entry of a spelling of a directory is that of the directory. -/
theorem normal_top (name : String) (v : Volume) (d : String) :
    (top name v d).normal =
      (top name v (Path.text (Path.isAbsolute [d]) (Path.steps d))).normal := by
  have hjoin : Path.join [d] = Path.text (Path.isAbsolute [d]) (Path.steps d) := by
    rw [Path.join_eq_text, List.flatMap_singleton]
  rw [top, top, Entry.normal, Entry.normal, hjoin, Path.join_text _ (Path.allSteps_steps d)]

section Memory

variable {slot : Nat} (hm : v.medium = .memory slot) (hn : Normal true (st.files slot).keys)

include hm hn

/-- Below a directory that a scan in memory starts from there is the tree of the files that can be
read. -/
theorem exists_shows {name : String} {n : Nat} {entries : List Entry}
    (h : Scan.levels st (n + 1) (top name v d) = ⟨entries, none⟩) :
    ∃ file, st.Shows v (Path.isAbsolute [d]) (Path.steps d) file ∧ ∀ f, AllSteps f →
      (file f ↔ ∃ content,
        st.read v (Path.text (Path.isAbsolute [d]) (Path.steps d ++ f)) = .ok content) := by
  have hb := Path.allSteps_steps d
  rw [Scan.levels_congr (normal_top name v d)] at h
  simp only [Storage.exists_read_memory hm]
  rcases hroot : Path.isAbsolute [d]
  · refine ⟨_, Storage.shows_relative hm hn hb fun he => ?_, fun f hf => ?_⟩
    · rw [hroot, he] at h
      exact Storage.children_nowhere hm hn h
    · refine ⟨fun hno => hno.elim, fun hmem => ?_⟩
      obtain ⟨cs, hcs, he⟩ := hn _ hmem
      exact Bool.noConfusion (Path.text_injective (hb.append hf) hcs he).1
  · exact ⟨_, Storage.shows_memory hm hn hb, fun f hf => and_iff_right hf⟩

/-- A project that was scanned in memory is spread over the files below the directory. -/
theorem Scanned.exists_tree (hp : p.Scanned st v d) :
    ∃ file, p.Over st v (Path.isAbsolute [d]) (Path.steps d) file ∧ ∀ f, AllSteps f →
      (file f ↔ ∃ content,
        st.read v (Path.text (Path.isAbsolute [d]) (Path.steps d ++ f)) = .ok content) := by
  obtain ⟨p₁, hscan, hentries⟩ := hp.entries
  obtain ⟨entries, hlevels, rfl⟩ := scan_eq_ok_iff.1 hscan
  have hdepth : st.depth v = Storage.longest (st.files slot).keys + 1 + 1 := by
    rw [Storage.depth, hm]
  have hlevels : Scan.levels st (st.depth v) (top p.name v d) = ⟨entries, none⟩ := hlevels
  rw [hdepth] at hlevels
  obtain ⟨file, hst, hread⟩ := exists_shows hm hn hlevels
  rw [Scan.levels_congr (normal_top p.name v d)] at hlevels
  have hentries : p.search.entries = entries := hentries
  exact ⟨file, over_of_levels hst (hentries ▸ hlevels) hp.listed, hread⟩

end Memory

end Project

end Bindery
