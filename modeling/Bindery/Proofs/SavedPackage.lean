import Bindery.Proofs.PackageOutcome

/-!
# Packages that are saved

A package is saved as two files if their names differ. They do unless the archive has the extension
that manifests have; then the archive takes the place of its manifest: `package_saved`. If there is
no name for the manifest, there is no package.
-/

namespace Bindery

/-- In memory whatever is written can be read, and nothing else changes. -/
theorem Storage.exists_write {st : Storage} {v : Volume} {slot : Nat} (path : String)
    (content : ByteArray) (hv : v.medium = .memory slot) (hslot : slot < st.memories.length) :
    ∃ st', st.write v path content = .ok st' ∧ slot < st'.memories.length
      ∧ ∀ p, st'.read v p = if p = path then .ok content else st.read v p := by
  refine ⟨{ st with memories := st.memories.set slot ((st.files slot).insert path content) },
    by simp only [write, hv], by simpa using hslot, fun p => ?_⟩
  simp only [read, hv, files_set hslot, if_true, Table.find?_insert]
  split_ifs <;> rfl

theorem Package.exists_save {st : Storage} {v : Volume} {slot : Nat} (pkg : Package)
    (hv : v.medium = .memory slot) (hslot : slot < st.memories.length) :
    ∃ st', pkg.save st v = (st', none)
      ∧ ∀ path, st'.read v path = if path = pkg.file then .ok pkg.archive
        else if path = pkg.manifestFile then .ok pkg.manifest.toUTF8 else st.read v path := by
  obtain ⟨st₁, hfirst, hslot₁, hread₁⟩ :=
    Storage.exists_write pkg.manifestFile pkg.manifest.toUTF8 hv hslot
  obtain ⟨st₂, hsecond, -, hread₂⟩ := Storage.exists_write pkg.file pkg.archive hv hslot₁
  exact ⟨st₂, by simp only [save, hfirst, hsecond], fun path => by rw [hread₂, hread₁]⟩

namespace Project

variable {resolve : Resolver} {st : Storage} {p : Project} {s : Selection} {style : Style}
  {pkg : Package}

/-- The name that is asked for a package. -/
def requested (p : Project) (s : Selection) : String := s.file.getD p.name

theorem files_package (h : p.package resolve st s style = .ok pkg) :
    pkg.file = FileName.package (p.requested s)
      ∧ FileName.manifest pkg.file = .ok pkg.manifestFile := by
  obtain ⟨_, _, -, -, hmanifest, hfile, -⟩ := package_parts h
  rw [requested, hfile]
  exact ⟨rfl, hmanifest⟩

theorem package_error {e : Error}
    (h : FileName.manifest (FileName.package (p.requested s)) = .error e) :
    p.package resolve st s style = .error e := by
  rw [requested] at h
  simp only [package, h, bind, Except.bind]

/-- The names of an archive and its manifest can be told unless slashes that follow the extension
let the second cut it inside a character. The names differ unless the extension is that of
manifests and nothing follows it. If they do, both files are in the memory that they are saved to,
and else just the archive. -/
theorem package_saved (resolve : Resolver) (st : Storage) (p : Project) (s : Selection)
    (style : Style) :
    ((∃ file, FileName.manifest (FileName.package (p.requested s)) = .ok file) ↔
        FileName.CutsWhole (p.requested s))
      ∧ (¬ FileName.CutsWhole (p.requested s) → p.package resolve st s style =
        .error (.brokenName (FileName.package (p.requested s))))
      ∧ ∀ pkg, p.package resolve st s style = .ok pkg →
        pkg.file = FileName.package (p.requested s)
          ∧ FileName.manifest pkg.file = .ok pkg.manifestFile
          ∧ (pkg.manifestFile = pkg.file ↔ Path.extension? (p.requested s) = some ".json"
            ∧ Path.endSlashes (p.requested s) = 0)
          ∧ ∀ (st : Storage) (v : Volume) (slot : Nat), v.medium = .memory slot →
            slot < st.memories.length → ∃ st', pkg.save st v = (st', none)
              ∧ ∀ path, st'.read v path = if path = pkg.file then .ok pkg.archive
                else if path = pkg.manifestFile then .ok pkg.manifest.toUTF8
                else st.read v path := by
  refine ⟨FileName.exists_manifest_package_iff, fun hcut => ?_, fun pkg h => ?_⟩
  · rcases hfile : FileName.manifest (FileName.package (p.requested s)) with e | file
    · rw [package_error hfile, FileName.manifest_error hfile]
    · exact absurd (FileName.exists_manifest_package_iff.1 ⟨file, hfile⟩) hcut
  · obtain ⟨hfile, hmanifest⟩ := files_package h
    have hself : pkg.manifestFile = pkg.file ↔ FileName.manifest pkg.file = .ok pkg.file := by
      rw [hmanifest, Except.ok.injEq]
    refine ⟨hfile, hmanifest, ?_, fun st v slot hv hslot => pkg.exists_save hv hslot⟩
    rw [hself, FileName.manifest_eq_self_iff, hfile, FileName.package_json_iff]

open Plan (pairStorage pairVolume)

/-- A project of no files. -/
def bareProject (name : String) : Project := new name pairVolume

theorem exists_package_bare {name file : String}
    (h : FileName.manifest (FileName.package name) = .ok file) :
    ∃ pkg, (bareProject name).package Plan.ofSources (pairStorage "" "") .standard .standard =
      .ok pkg := by
  have hmodules : (bareProject name).modules (pairStorage "" "") = [] := rfl
  have hno : ∀ d n, ¬ Plan.Requires (pairStorage "" "") (bareProject name).search [] d n := by
    rintro d n ⟨m, hm, -⟩
    cases hm
  refine exists_package_iff.2 ⟨⟨file, h⟩, ?_, ?_, by decide⟩
  · rw [hmodules]
    exact fun m hm => nomatch hm
  · rw [hmodules]
    rintro ⟨n, hn⟩
    cases hn with
    | single h => exact hno _ _ h
    | tail _ h => exact hno _ _ h

theorem package_saved_slash :
    ∃ pkg, (bareProject "a.json/").package Plan.ofSources (pairStorage "" "") .standard .standard =
        .ok pkg
      ∧ pkg.file = "a.json/" ∧ pkg.manifestFile = "a..json"
      ∧ ∃ st', pkg.save (pairStorage "" "") pairVolume = (st', none)
        ∧ st'.read pairVolume "a.json/" = .ok pkg.archive
        ∧ st'.read pairVolume "a..json" = .ok pkg.manifest.toUTF8 := by
  obtain ⟨-, -, hpkg⟩ := package_saved Plan.ofSources (pairStorage "" "") (bareProject "a.json/")
    .standard .standard
  have hcut : FileName.manifest "a.json/" = .ok "a..json" := by decide +kernel
  have hname : FileName.package "a.json/" = "a.json/" := by decide +kernel
  obtain ⟨pkg, h⟩ := exists_package_bare (hname ▸ hcut)
  obtain ⟨hfile, hmanifest, -, hsave⟩ := hpkg pkg h
  have hfile : pkg.file = "a.json/" := hfile.trans hname
  have hmanifestFile : pkg.manifestFile = "a..json" := by
    rw [hfile] at hmanifest
    exact Except.ok.inj (hmanifest.symm.trans hcut)
  obtain ⟨st', hst', hread⟩ := hsave (pairStorage "" "") pairVolume 0 rfl (by decide)
  rw [hfile, hmanifestFile] at hread
  exact ⟨pkg, h, hfile, hmanifestFile, st', hst', hread _, hread _⟩

/-- The archive takes the place of its manifest, or there is no name for it. -/
theorem package_saved_over :
    (∃ pkg st', (bareProject "p.json").package Plan.ofSources (pairStorage "" "") .standard
          .standard = .ok pkg
        ∧ pkg.manifestFile = pkg.file
        ∧ pkg.save (pairStorage "" "") pairVolume = (st', none)
        ∧ st'.read pairVolume pkg.manifestFile = .ok pkg.archive)
      ∧ (bareProject "a.é//").package Plan.ofSources (pairStorage "" "") .standard .standard =
        .error (.brokenName "a.é//") := by
  constructor
  · have hself : FileName.manifest "p.json" = .ok "p.json" := by decide +kernel
    have hname : FileName.package "p.json" = "p.json" := by decide +kernel
    obtain ⟨pkg, h⟩ := exists_package_bare (hname ▸ hself)
    obtain ⟨hfile, hmanifest⟩ := files_package h
    have hsame : pkg.manifestFile = pkg.file := by
      rw [hfile.trans hname] at hmanifest ⊢
      exact Except.ok.inj (hmanifest.symm.trans hself)
    have hslot : 0 < (pairStorage "" "").memories.length := by decide
    have hmedium : pairVolume.medium = .memory 0 := rfl
    obtain ⟨st', hst', hread⟩ := pkg.exists_save hmedium hslot
    exact ⟨pkg, st', h, hsame, hst', by rw [hread, if_pos hsame]⟩
  · have hbroken : FileName.manifest (FileName.package "a.é//") = .error (.brokenName "a.é//") := by
      decide +kernel
    exact package_error hbroken

end Project

end Bindery
