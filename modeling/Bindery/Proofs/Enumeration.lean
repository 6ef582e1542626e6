import Bindery.Proofs.ModuleFile
import Bindery.Proofs.Registration
import Mathlib.Data.List.Nodup

/-!
# Enumerated modules

Different files of different entries are enumerated as different modules: `pairwise_modules`. Below
a directory of a memory where no file is on the way to another the modules are the files with the
name of a module, each once, and with them the directories that have such a name, which cannot be
read: `modules_memory`.
-/

namespace Bindery

open Bindery.Path (IsStep AllSteps)

/-- The names in the directory of an entry; none if it cannot be listed. -/
def Entry.files (st : Storage) (e : Entry) : List String :=
  (st.list e.volume e.physical).toOption.getD []

theorem Entry.modules_eq (st : Storage) (e : Entry) :
    e.modules st = (e.files st).filterMap e.module? := by
  unfold modules files
  rcases st.list e.volume e.physical with err | names <;> rfl

theorem SearchPath.pairwise_modules {st : Storage} {s : SearchPath} {R : Record → Record → Prop}
    (he : s.entries.Nodup) (hf : ∀ e ∈ s.entries, (e.files st).Nodup)
    (hR : ∀ e ∈ s.entries, ∀ e' ∈ s.entries, ∀ c ∈ e.files st, ∀ c' ∈ e'.files st, ∀ m m',
      e.module? c = some m → e'.module? c' = some m' → e ≠ e' ∨ c ≠ c' → R m m') :
    (s.modules st).Pairwise R := by
  rw [modules, List.pairwise_flatMap]
  simp only [Entry.modules_eq]
  refine ⟨fun e hmem => ?_, he.imp_of_mem fun {e e'} hmem hmem' hne m hm m' hm' => ?_⟩
  · rw [List.pairwise_filterMap]
    exact (hf e hmem).imp_of_mem fun hc hc' hne m hm m' hm' =>
      hR e hmem e hmem _ hc _ hc' m m' hm hm' (.inr hne)
  · obtain ⟨c, hc, hm⟩ := List.mem_filterMap.1 hm
    obtain ⟨c', hc', hm'⟩ := List.mem_filterMap.1 hm'
    exact hR e hmem e' hmem' c hc c' hc' m m' hm hm' (.inl hne)

/-- Below the directory of an entry a path ends in the name of a module, of which this is the
record. -/
inductive Entry.Names (e : Entry) : String → Record → Prop where
  | intro {dirs : List String} {stem ext : String} (hs : AllSteps (dirs ++ [stem ++ ext]))
      (hstem : stem ≠ "") (hext : ext ∈ moduleExtensions) :
      e.Names (Path.join (e.physical :: (dirs ++ [stem ++ ext])))
        ⟨some e.volume, e.logical ++ dirs ++ [stem],
          Path.join (e.physical :: (dirs ++ [stem ++ ext])), e.package⟩

theorem SearchPath.addRecursive_of_scan {st : Storage} {e : Entry} {entries : List Entry}
    (h : e.scan st = ⟨entries, none⟩) (hne : entries ≠ []) (s : SearchPath) :
    s.addRecursive st e = (s.append entries, none) := by
  simp only [addRecursive, h, if_neg hne]

section Memory

variable {st : Storage} {e : Entry} {slot : Nat} {base : List String}
  (hm : e.volume.medium = .memory slot) (hn : Listing.Normal true (st.files slot).keys)
  (hfree : ∀ k ∈ (st.files slot).keys, ∀ rest, k ++ "/" ++ rest ∉ (st.files slot).keys)
  (hb : AllSteps base)

include hn hb hfree in
/-- What the files below a directory show next is a file or a directory. -/
theorem exists_below_iff {cs : List String} {c : String} (hc : AllSteps (cs ++ [c])) :
    (∃ r, AllSteps (cs ++ c :: r)
        ∧ Path.text true (base ++ (cs ++ c :: r)) ∈ (st.files slot).keys) ↔
      Path.text true (base ++ (cs ++ [c])) ∈ (st.files slot).keys
        ∨ HasDirectory (st.files slot).keys (Path.text true (base ++ (cs ++ [c]))) := by
  have hne : base ++ (cs ++ [c]) ≠ [] := by simp
  have hsplit : ∀ x r, base ++ (cs ++ c :: x :: r) = base ++ (cs ++ [c]) ++ x :: r := by simp
  rw [hasDirectory_text hn (hb.append hc) hne]
  constructor
  · rintro ⟨_ | ⟨x, r⟩, hsteps, hmem⟩
    · exact .inl hmem
    · refine .inr ⟨fun hk => ?_, x, r, hsplit x r ▸ hb.append hsteps, hsplit x r ▸ hmem⟩
      rw [hsplit, Listing.text_append (List.cons_ne_nil x r), if_neg hne] at hmem
      exact hfree _ hk _ hmem
  · rintro (hmem | ⟨-, x, r, hsteps, hmem⟩)
    · exact ⟨[], hc, hmem⟩
    · rw [← hsplit] at hsteps hmem
      exact ⟨x :: r, hsteps.right, hmem⟩

include hfree in
/-- What is below a directory of the memory is below directories. -/
theorem isDirectory_of_below {cs r : List String} {c : String}
    (hr : AllSteps (cs ++ c :: r)
      ∧ Path.text true (base ++ (cs ++ c :: r)) ∈ (st.files slot).keys) :
    IsDirectory (fun f => AllSteps f ∧ Path.text true (base ++ f) ∈ (st.files slot).keys) cs := by
  refine ⟨.inr ⟨c, r, hr⟩, ?_⟩
  rintro front back rfl hne ⟨-, hmem⟩
  have hsplit : base ++ (front ++ back ++ c :: r) = base ++ front ++ (back ++ c :: r) := by simp
  have hlong := hr.2
  rw [hsplit, Listing.text_append (by simp), if_neg (by simp [hne])] at hlong
  exact hfree _ hmem _ hlong

include hm hn hb

/-- A scan of a memory registers the directories of the tree, each once. -/
theorem exists_entries_memory (hd : e.physical = Path.text true base) :
    ∃ dirs : List (List String), e.scan st = ⟨dirs.map (e.within true base), none⟩
      ∧ (dirs.map (e.within true base)).Nodup ∧ dirs ≠ []
      ∧ ∀ cs, cs ∈ dirs ↔ IsDirectory
          (fun f => AllSteps f ∧ Path.text true (base ++ f) ∈ (st.files slot).keys) cs := by
  obtain ⟨dirs, hlevels, hdirs, hfirst⟩ := exists_dirs_memory hm hn hb
  have he : e = e.within true base [] := by simp [Entry.within, ← hd]
  have hscan := hlevels _ (Nat.le_refl _)
  rw [← he] at hscan
  refine ⟨dirs, hscan, ?_, List.ne_nil_of_mem ((hdirs []).2 .nil), hdirs⟩
  refine List.Nodup.map within_injective (hfirst.imp ?_)
  rintro cs _ h rfl
  exact h List.prefix_rfl

theorem files_within {dir : List String} (hdir : AllSteps dir) {c : String} :
    c ∈ (e.within true base dir).files st ↔ ∃ r, AllSteps (dir ++ c :: r)
      ∧ Path.text true (base ++ (dir ++ c :: r)) ∈ (st.files slot).keys := by
  obtain ⟨names, hl, hnames⟩ := (Storage.shows_memory hm hn hb).list dir hdir
  have hl' : st.list (e.within true base dir).volume (e.within true base dir).physical =
      .ok names := hl
  rw [Entry.files, hl']
  exact hnames c

/-- The path of a module tells its directory and its file. -/
theorem physical_ne_of_within {dir dir' : List String} {c c' : String} {m m' : Record}
    (hdir : AllSteps dir) (hdir' : AllSteps dir') (hc : c ∈ (e.within true base dir).files st)
    (hc' : c' ∈ (e.within true base dir').files st)
    (hmod : (e.within true base dir).module? c = some m)
    (hmod' : (e.within true base dir').module? c' = some m')
    (hne : e.within true base dir ≠ e.within true base dir' ∨ c ≠ c') :
    m.physical ≠ m'.physical := by
  have hphysical : ∀ {dir : List String} {c : String} {m : Record}, AllSteps dir →
      c ∈ (e.within true base dir).files st → (e.within true base dir).module? c = some m →
      AllSteps (base ++ (dir ++ [c])) ∧ m.physical = Path.text true (base ++ (dir ++ [c])) := by
    intro dir c m hdir hc hmod
    obtain ⟨r, hr, -⟩ := (files_within hm hn hb hdir).1 hc
    have hstep : IsStep c := hr c (by simp)
    obtain ⟨stem, -, rfl⟩ := Option.map_eq_some_iff.1 hmod
    refine ⟨hb.append (hdir.append hstep.allSteps), ?_⟩
    simp only [Entry.within]
    rw [Path.join_text_step true (hb.append hdir) hstep, List.append_assoc]
  obtain ⟨hsteps, hm⟩ := hphysical hdir hc hmod
  obtain ⟨hsteps', hm'⟩ := hphysical hdir' hc' hmod'
  intro heq
  rw [hm, hm'] at heq
  have hfile := List.append_cancel_left (Path.text_injective hsteps hsteps' heq).2
  obtain ⟨rfl, hlast⟩ := List.append_inj' hfile rfl
  obtain rfl : c = c' := by simpa using hlast
  exact hne.elim (fun h => h rfl) fun h => h rfl

include hfree

theorem mem_modules_below (hd : e.physical = Path.text true base) {m : Record} :
    (∃ dir, IsDirectory
        (fun f => AllSteps f ∧ Path.text true (base ++ f) ∈ (st.files slot).keys) dir
        ∧ m ∈ (e.within true base dir).modules st) ↔
      ∃ path, (path ∈ (st.files slot).keys ∨ HasDirectory (st.files slot).keys path)
        ∧ e.Names path m := by
  have hst := Storage.shows_memory hm hn hb
  constructor
  · rintro ⟨dir, hdir, hmem⟩
    have hsteps := hdir.allSteps hst.file_steps
    obtain ⟨c, r, stem, hr, hstem, rfl⟩ := (hst.mem_modules_within hsteps m).1 hmem
    obtain ⟨hne, ext, hext, rfl⟩ := moduleStem?_eq_some.1 hstem
    have hc : AllSteps (dir ++ [stem ++ ext]) := hsteps.append (hst.isStep hr).allSteps
    refine ⟨_, (exists_below_iff hn hfree hb hc).1 ⟨r, hr⟩, ?_⟩
    have hnames := Entry.Names.intro (e := e) hc hne hext
    rw [hd, Path.join_text_cons hb hc, List.append_assoc] at hnames
    exact hnames
  · rintro ⟨_, hpath, ⟨hc, hne, hext⟩⟩
    rename_i dir stem ext
    rw [hd, Path.join_text_cons hb hc] at hpath ⊢
    obtain ⟨r, hr⟩ := (exists_below_iff hn hfree hb hc).2 hpath
    refine ⟨dir, isDirectory_of_below hfree hr, (hst.mem_modules_within hc.left _).2 ?_⟩
    refine ⟨_, r, stem, hr, moduleStem?_eq_some.2 ⟨hne, ext, hext, rfl⟩, ?_⟩
    rw [List.append_assoc]

end Memory

namespace SearchPath

/-- Below a directory of a memory where no file is on the way to another, each file and each
directory that has the name of a module is enumerated as one, once, and nothing else is. The
directories among them cannot be read; where there are none, the modules are the files. -/
theorem modules_memory {st : Storage} {e : Entry} {slot : Nat} (hm : e.volume.medium = .memory slot)
    (hk : ∀ k ∈ (st.files slot).keys, Path.join [k] = k ∧ Path.startsAtRoot k = true)
    (hfree : ∀ k ∈ (st.files slot).keys, ∀ rest, k ++ "/" ++ rest ∉ (st.files slot).keys)
    (hd : Path.join [e.physical] = e.physical ∧ Path.startsAtRoot e.physical = true) (v : Volume) :
    ∃ s, (new v).addRecursive st e = (s, none)
      ∧ ((s.modules st).map (·.physical)).Nodup
      ∧ (∀ m, m ∈ s.modules st ↔
          ∃ path, (path ∈ (st.files slot).keys ∨ HasDirectory (st.files slot).keys path)
            ∧ e.Names path m)
      ∧ (∀ m ∈ s.modules st, (∃ content, st.read e.volume m.physical = .ok content) ↔
          ¬ HasDirectory (st.files slot).keys m.physical)
      ∧ ((∀ path m, e.Names path m → ¬ HasDirectory (st.files slot).keys path) →
          ∀ m, m ∈ s.modules st ↔ ∃ path ∈ (st.files slot).keys, e.Names path m) := by
  have hn := Listing.normal_of_join hk
  obtain ⟨base, hb, hbase⟩ := Listing.normal_of_join (List.forall_mem_singleton.2 hd) _
    (List.mem_singleton.2 rfl)
  obtain ⟨dirs, hscan, hnodup, hne, hdirs⟩ := exists_entries_memory hm hn hb hbase
  have hst := Storage.shows_memory hm hn hb
  have hsteps : ∀ dir ∈ dirs, AllSteps dir := fun dir h => ((hdirs dir).1 h).allSteps hst.file_steps
  let s := (new v).append (dirs.map (e.within true base))
  have hentries : s.entries = dirs.map (e.within true base) := List.nil_append _
  have hmem : ∀ m, m ∈ s.modules st ↔
      ∃ path, (path ∈ (st.files slot).keys ∨ HasDirectory (st.files slot).keys path)
        ∧ e.Names path m := by
    intro m
    rw [← mem_modules_below hm hn hfree hb hbase, modules, hentries, List.mem_flatMap]
    simp only [List.mem_map, exists_exists_and_eq_and, hdirs]
  refine ⟨s, addRecursive_of_scan hscan (by simpa using hne) _, ?_, hmem, fun m hmod => ?_,
    fun hnone m => ?_⟩
  · rw [List.Nodup, List.pairwise_map]
    refine pairwise_modules (hentries ▸ hnodup) ?_ ?_ <;> rw [hentries]
    · intro x hx
      obtain ⟨dir, hdir, rfl⟩ := List.mem_map.1 hx
      have hl : st.list (e.within true base dir).volume (e.within true base dir).physical = _ :=
        Storage.list_memory hm _
      rw [Entry.files, hl]
      exact Plan.nodup_eraseDups _
    · intro x hx y hy c hc c' hc' m m'
      obtain ⟨dir, hdir, rfl⟩ := List.mem_map.1 hx
      obtain ⟨dir', hdir', rfl⟩ := List.mem_map.1 hy
      exact physical_ne_of_within hm hn hb (hsteps dir hdir) (hsteps dir' hdir') hc hc'
  · rw [Storage.exists_read_memory hm]
    obtain ⟨path, hpath, ⟨hc, hstem, hext⟩⟩ := (hmem m).1 hmod
    exact ⟨fun hk hdir => hdir.1 hk, hpath.resolve_right⟩
  · rw [hmem]
    refine exists_congr fun path => and_congr_left fun hnames => ?_
    exact or_iff_left (hnone path m hnames)

/-- A memory with a source and another file in one directory. -/
def flatStorage : Storage :=
  ⟨[.ofList [("/d/A.v", .empty), ("/d/notes", .empty)]], [], default, 1⟩

/-- A memory with a directory that has the name of a source. -/
def nestStorage : Storage :=
  ⟨[.ofList [("/d/A.v", .empty), ("/d/X.v/notes", .empty)]], [], default, 1⟩

theorem not_mem_of_after? {keys : List String}
    (h : ∀ k ∈ keys, ∀ k' ∈ keys, Text.after? (k ++ "/") k' = none) :
    ∀ k ∈ keys, ∀ rest, k ++ "/" ++ rest ∉ keys := by
  intro k hk rest hmem
  have hnone := h k hk _ hmem
  rw [Text.after?_eq_some.2 rfl] at hnone
  cases hnone

theorem modules_memory_flat :
    (∀ k ∈ (flatStorage.files 0).keys, Path.join [k] = k ∧ Path.startsAtRoot k = true)
      ∧ (∀ k ∈ (flatStorage.files 0).keys, ∀ rest, k ++ "/" ++ rest ∉ (flatStorage.files 0).keys)
      ∧ (Path.join ["/d"] = "/d" ∧ Path.startsAtRoot "/d" = true)
      ∧ (∀ path m, (⟨shelfVolume, ["L"], "/d", none⟩ : Entry).Names path m →
          ¬ HasDirectory (flatStorage.files 0).keys path)
      ∧ ∃ s, (new shelfVolume).addRecursive flatStorage ⟨shelfVolume, ["L"], "/d", none⟩ = (s, none)
        ∧ ∀ m, m ∈ s.modules flatStorage ↔ ∃ path ∈ (flatStorage.files 0).keys,
          (⟨shelfVolume, ["L"], "/d", none⟩ : Entry).Names path m := by
  have hk : ∀ k ∈ (flatStorage.files 0).keys, Path.join [k] = k ∧ Path.startsAtRoot k = true := by
    decide
  have hfree : ∀ k ∈ (flatStorage.files 0).keys, ∀ rest,
      k ++ "/" ++ rest ∉ (flatStorage.files 0).keys := not_mem_of_after? (by decide)
  have hd : Path.join ["/d"] = "/d" ∧ Path.startsAtRoot "/d" = true := by decide
  have hnone : ∀ path m, (⟨shelfVolume, ["L"], "/d", none⟩ : Entry).Names path m →
      ¬ HasDirectory (flatStorage.files 0).keys path := by
    rintro _ _ ⟨hc, -, -⟩ hdir
    -- A directory below `/d` would have files three steps deep.
    have hbase : AllSteps ["d"] := IsStep.allSteps ⟨by decide, by decide, by decide⟩
    have hroot : "/d" = Path.text true ["d"] := by decide
    rw [hroot, Path.join_text_cons hbase hc, hasDirectory_text (Listing.normal_of_join hk)
      (hbase.append hc) (by simp)] at hdir
    obtain ⟨-, c, r, hsteps, hmem⟩ := hdir
    have hshort : ∀ k ∈ (flatStorage.files 0).keys, (Path.steps k).length ≤ 2 := by decide
    have hlen := hshort _ hmem
    rw [Path.steps_text true hsteps] at hlen
    simp only [List.length_append, List.length_cons, List.length_nil] at hlen
    omega
  obtain ⟨s, hs, -, -, -, hmem⟩ :=
    modules_memory (e := ⟨shelfVolume, ["L"], "/d", none⟩) rfl hk hfree hd shelfVolume
  exact ⟨hk, hfree, hd, hnone, s, hs, hmem hnone⟩

/-- A directory is enumerated as a source, which no file is. -/
theorem modules_memory_directory :
    (∀ k ∈ (nestStorage.files 0).keys, Path.join [k] = k ∧ Path.startsAtRoot k = true)
      ∧ (∀ k ∈ (nestStorage.files 0).keys, ∀ rest, k ++ "/" ++ rest ∉ (nestStorage.files 0).keys)
      ∧ ∃ m ∈ ((new shelfVolume).addRecursive nestStorage
          ⟨shelfVolume, [], "/d", none⟩).1.modules nestStorage,
        m = ⟨some shelfVolume, ["X"], "/d/X.v", none⟩ ∧ m.physical ∉ (nestStorage.files 0).keys
          ∧ nestStorage.read shelfVolume m.physical = .error (.notFound "/d/X.v") :=
  ⟨by decide, not_mem_of_after? (by decide), _, by decide, rfl, by decide, rfl⟩

end SearchPath

end Bindery
