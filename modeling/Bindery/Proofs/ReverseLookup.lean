import Bindery.Proofs.SearchAnswers
import Bindery.Proofs.CurrentIndex
import Bindery.Proofs.Enumeration

/-!
# Looking up files

The logical path of a file is told by the first entry of its directory. Entries are in normal form,
`Reached.normal`, so the file of an enumerated module leads back to the directory of its entry,
`Entry.toLogical_module`, and registering more puts entries behind those that are there:
`Later.entries`. So the file of a module has the logical path of the module below the first entry of
the directory, and keeps it whatever is registered later: `toLogical_modules`.
-/

namespace Bindery

open Bindery.Path (AllSteps)

namespace SearchPath

variable {s s' : SearchPath} {seen : Storage → Prop} {st : Storage}

theorem entries_addRecursive (st : Storage) (s : SearchPath) (e : Entry) :
    (s.addRecursive st e).1.entries = s.entries ++ (e.scan st).entries := by
  simp only [addRecursive]
  split_ifs with h
  · rw [h, List.append_nil]
  · rfl

/-- The search paths that one becomes when more is registered, from any storage. -/
inductive Later (s : SearchPath) : SearchPath → Prop where
  | refl : Later s s
  | add {s' : SearchPath} (e : Entry) (h : Later s s') : Later s (s'.add e)
  | addRecursive {s' : SearchPath} (st : Storage) (e : Entry) (h : Later s s') :
    Later s (s'.addRecursive st e).1
  | addFrom {s' : SearchPath} (other : SearchPath) (h : Later s s') : Later s (s'.addFrom other)

theorem Later.entries (h : s.Later s') : s.entries <+: s'.entries := by
  induction h with
  | refl => exact List.prefix_rfl
  | add e _ ih => exact ih.trans (List.prefix_append _ _)
  | @addRecursive s' st e _ ih =>
    rw [entries_addRecursive]
    exact ih.trans (List.prefix_append _ _)
  | addFrom other _ ih => exact ih.trans (List.prefix_append _ _)

/-- A file that has a logical path keeps it behind more entries. -/
theorem toLogical_of_prefix (h : s.entries <+: s'.entries) {file : String} {logical : Logical}
    (hl : s.toLogical file = some logical) : s'.toLogical file = some logical := by
  obtain ⟨e, hfind, rfl⟩ := Option.map_eq_some_iff.1 hl
  obtain ⟨more, hmore⟩ := h
  rw [toLogical, ← hmore, List.find?_append, hfind]
  rfl

theorem Reached.normal (h : s.Reached seen) : ∀ e ∈ s.entries, e.normal = e := by
  induction h with
  | new v => exact fun e he => absurd he List.not_mem_nil
  | add e _ ih => exact List.forall_mem_append.2 ⟨ih, by simp [e.normal_normal]⟩
  | @addRecursive s st e _ _ ih =>
    rw [entries_addRecursive]
    exact List.forall_mem_append.2 ⟨ih, Scan.levels_normal _ e⟩
  | addFrom _ _ ih ih' => exact List.forall_mem_append.2 ⟨ih, ih'⟩
  | createIndex _ _ ih => exact ih
  | provide _ _ ih => exact ih

end SearchPath

/-- The file of an enumerated module lies in the directory of the entry. -/
theorem Entry.toLogical_module {e : Entry} {file stem : String} {m : Record} (he : e.normal = e)
    (hslash : '/' ∉ file.toList) (hstem : moduleStem? file = some stem)
    (hm : e.module? file = some m) (s : SearchPath) :
    s.toLogical m.physical =
      (s.entries.find? (·.physical = e.physical)).map (·.logical ++ [stem]) := by
  obtain ⟨x, -, rfl⟩ := Option.map_eq_some_iff.1 hm
  have hjoin : Path.join [e.physical] = e.physical := congrArg Entry.physical he
  have hsteps : AllSteps (Path.steps e.physical) := Path.allSteps_steps _
  have hfile := isStep_of_moduleStem? hstem hslash
  have hdir := Path.eq_text_of_join hjoin
  have hpath : Path.join [e.physical, file] =
      Path.text (Path.isAbsolute [e.physical]) (Path.steps e.physical ++ [file]) := by
    rw [hdir, Path.join_text_step _ hsteps hfile, ← hdir]
  rw [SearchPath.toLogical, hpath, Path.basename_text _ hfile, Path.dirname_text _ hsteps hfile,
    ← hdir, hjoin, hstem]
  rfl

namespace SearchPath

variable {s : SearchPath} {seen : Storage → Prop}

/-- If no name in the directory of an entry has a slash in it, the file of each module that is
enumerated there has the logical path that the first entry of the directory gives to its stem, which
is that of the module if the directory is registered below one logical path only. A file that has a
logical path keeps it when more is registered. -/
theorem toLogical_modules (h : s.Reached seen) (st : Storage) :
    (∀ e ∈ s.entries, (∀ c ∈ e.files st, '/' ∉ c.toList) → ∀ m ∈ e.modules st,
      ∃ file ∈ e.files st, ∃ stem first, moduleStem? file = some stem
        ∧ e.module? file = some m
        ∧ s.entries.find? (·.physical = e.physical) = some first
        ∧ s.toLogical m.physical = some (first.logical ++ [stem])
        ∧ ((∀ e' ∈ s.entries, e'.physical = e.physical → e'.logical = e.logical) →
          s.toLogical m.physical = some m.logical))
      ∧ ∀ s', s.Later s' → ∀ file logical, s.toLogical file = some logical →
        s'.toLogical file = some logical := by
  refine ⟨fun e he hslash m hm => ?_, fun s' hs' file logical hl => ?_⟩
  · rw [Entry.modules_eq] at hm
    obtain ⟨file, hfile, hm⟩ := List.mem_filterMap.1 hm
    obtain ⟨stem, hstem, hrecord⟩ := Option.map_eq_some_iff.1 hm
    obtain ⟨first, hfirst⟩ : ∃ first, s.entries.find? (·.physical = e.physical) = some first :=
      Option.isSome_iff_exists.1 (List.find?_isSome.2 ⟨e, he, by simp⟩)
    have hlogical : s.toLogical m.physical = some (first.logical ++ [stem]) := by
      rw [e.toLogical_module (h.normal e he) (hslash file hfile) hstem hm, hfirst]
      rfl
    refine ⟨file, hfile, stem, first, hstem, hm, hfirst, hlogical, fun honce => ?_⟩
    have hsame : first.logical = e.logical :=
      honce first (List.mem_of_find?_eq_some hfirst) (by simpa using List.find?_some hfirst)
    rw [hlogical, hsame, ← hrecord]
  · exact toLogical_of_prefix hs'.entries hl

/-- A directory that is registered twice, in two spellings, and one that is registered once. -/
def twicePath : SearchPath :=
  (((new astrayVolume).add ⟨astrayVolume, ["P"], "/d/", none⟩).add
    ⟨astrayVolume, ["Q"], "//d", none⟩).add ⟨astrayVolume, ["E"], "/e", none⟩

/-- Then it is registered once more, up to a name that is listed in it and is not there. -/
def thricePath : SearchPath × Option Error :=
  twicePath.addRecursive (astrayStorage "") ⟨astrayVolume, ["R"], "/d/.", none⟩

theorem toLogical_modules_twice :
    twicePath.Reached (fun _ => False)
      ∧ (∀ e ∈ twicePath.entries, ∀ c ∈ e.files (astrayStorage ""), '/' ∉ c.toList)
      ∧ twicePath.modules (astrayStorage "")
        = [⟨some astrayVolume, ["P", "A"], "/d/A.v", none⟩,
          ⟨some astrayVolume, ["Q", "A"], "/d/A.v", none⟩,
          ⟨some astrayVolume, ["E", "B"], "/e/B.v", none⟩]
      ∧ twicePath.toLogical "/d/A.v" = some ["P", "A"]
      ∧ twicePath.toLogical "/e/B.v" = some ["E", "B"]
      ∧ thricePath.2 = some (.notFound "/d/x")
      ∧ thricePath.1.toLogical "/d/A.v" = some ["P", "A"] := by
  have hreached : twicePath.Reached (fun _ => False) := .add _ (.add _ (.add _ (.new _)))
  have hslash : ∀ e ∈ twicePath.entries, ∀ c ∈ e.files (astrayStorage ""), '/' ∉ c.toList := by
    decide
  have hmodules : twicePath.modules (astrayStorage "")
      = [⟨some astrayVolume, ["P", "A"], "/d/A.v", none⟩,
        ⟨some astrayVolume, ["Q", "A"], "/d/A.v", none⟩,
        ⟨some astrayVolume, ["E", "B"], "/e/B.v", none⟩] := by decide
  obtain ⟨hfiles, hlater⟩ := toLogical_modules hreached (astrayStorage "")
  obtain ⟨file, -, stem, first, hstem, hmodule, hfirst, hlogical, -⟩ :=
    hfiles ⟨astrayVolume, ["Q"], "/d", none⟩ (by decide) (hslash _ (by decide))
      ⟨some astrayVolume, ["Q", "A"], "/d/A.v", none⟩ (by decide)
  obtain rfl : stem = "A" := by
    have := congrArg (Option.map Record.logical) hmodule
    simpa [Entry.module?, hstem] using this
  have hentry : twicePath.entries.find? (·.physical = "/d")
      = some ⟨astrayVolume, ["P"], "/d", none⟩ := by decide
  cases hfirst.symm.trans hentry
  obtain ⟨-, -, -, -, -, -, -, -, honce⟩ :=
    hfiles ⟨astrayVolume, ["E"], "/e", none⟩ (by decide) (hslash _ (by decide))
      ⟨some astrayVolume, ["E", "B"], "/e/B.v", none⟩ (by decide)
  exact ⟨hreached, hslash, hmodules, hlogical, honce (by decide), by decide,
    hlater _ (.addRecursive _ _ .refl) _ _ hlogical⟩

end SearchPath

end Bindery
