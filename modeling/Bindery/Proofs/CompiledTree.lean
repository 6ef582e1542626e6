import Bindery.Proofs.ModuleTree
import Bindery.Proofs.OutputLookup
import Bindery.Proofs.RunOutput

/-!
# Trees of compiled files

The files compiled from sources lie below the root of a task, each at the logical path of its
source: `artifact_text`. Where a volume shows just these, the search path of the output finds the
names of the sources, `outputSearch_among`; so it does on a volume that a run alone has filled,
`showsCompiled_of_keys`.
-/

namespace Bindery

open Bindery.Path (IsStep AllSteps isStep_of_length)

/-- The extension of the file that is compiled from a source. -/
def compiledExtension : String := ".vo"

theorem Logical.Identifiers.allSteps {name : Logical} (h : name.Identifiers) : AllSteps name := by
  intro c hc
  obtain ⟨hne, hdot, hslash⟩ := h c hc
  refine ⟨hne, ?_, hslash⟩
  rintro rfl
  exact hdot (by simp)

theorem Logical.Identifiers.left {front back : Logical} (h : Identifiers (front ++ back)) :
    Identifiers front :=
  fun c hc => h c (List.mem_append_left _ hc)

theorem isStep_append {stem e : String} (h : IsStep stem) (he : '/' ∉ e.toList)
    (hlen : 2 ≤ e.length) : IsStep (stem ++ e) := by
  refine isStep_of_length ?_ ?_
  · rw [String.length_append]
    omega
  · rw [String.toList_append, List.mem_append, not_or]
    exact ⟨h.2.2, he⟩

theorem join_append (root : String) {cs : List String} (h : AllSteps cs) :
    Path.join [root, Path.text false cs] =
      Path.text (Path.isAbsolute [root]) (Path.steps root ++ cs) := by
  rw [Path.join_eq_text, Path.isAbsolute_before (Path.isAbsolute_text false h),
    List.flatMap_cons, List.flatMap_singleton, Path.steps_text false h]

section Artifact

variable {t : Task} {m : Record} {front : List String} {stem : String}

theorem allSteps_file {e : String} (h : Logical.Identifiers (front ++ [stem]))
    (he : '/' ∉ e.toList) (hlen : 2 ≤ e.length) : AllSteps (front ++ [stem ++ e]) :=
  h.left.allSteps.append (isStep_append (h.allSteps stem (by simp)) he hlen).allSteps

theorem staged_text (hm : m.logical = front ++ [stem]) (h : m.logical.Identifiers) :
    t.staged m = Path.text (Path.isAbsolute [t.root])
      (Path.steps t.root ++ (front ++ [stem ++ sourceExtension])) := by
  have hsteps : AllSteps (front ++ [stem ++ sourceExtension]) :=
    allSteps_file (hm ▸ h) (by decide) (by decide)
  rw [Task.staged, hm, logical_append_extension, join_append t.root hsteps]

theorem artifact_text (hm : m.logical = front ++ [stem]) (h : m.logical.Identifiers) :
    t.artifact m = Path.text (Path.isAbsolute [t.root])
      (Path.steps t.root ++ (front ++ [stem ++ compiledExtension])) := by
  have hext : sourceExtension ++ "o" = compiledExtension := rfl
  rw [Task.artifact, staged_text hm h, ← List.append_assoc, ← List.append_assoc,
    text_append_extension, text_append_extension, String.append_assoc, hext]

end Artifact

/-- The files compiled from sources, by their steps below the root. -/
def CompiledFile (compiled : List Record) (f : List String) : Prop :=
  ∃ c ∈ compiled, ∃ front stem, c.logical = front ++ [stem]
    ∧ f = front ++ [stem ++ compiledExtension]

/-- Below a directory a volume holds the files compiled from some sources, and nothing else. -/
structure Storage.ShowsCompiled (st : Storage) (v : Volume) (root : String)
    (compiled : List Record) : Prop where
  shows : st.Shows v (Path.isAbsolute [root]) (Path.steps root) (CompiledFile compiled)
  isDirectory : compiled ≠ [] → st.isDirectory v root = .ok true

section Search

variable {st : Storage} {compiled : List Record}

/-- A name of identifiers tells the place of a file, as no component of it has a dot. -/
theorem Logical.Identifiers.storable {name : Logical} (h : name.Identifiers) (hne : name ≠ []) :
    name.Storable := by
  obtain ⟨front, stem, rfl⟩ := (List.eq_nil_or_concat' name).resolve_left hne
  have hstem := h stem (by simp)
  refine ⟨front, stem, rfl, h.left.allSteps, fun c hc => ?_, hstem.1, hstem.2.2⟩
  rw [Option.eq_none_iff_forall_ne_some]
  intro x hx
  obtain ⟨-, e, he, rfl⟩ := moduleStem?_eq_some.1 hx
  obtain ⟨ext, rfl, -⟩ := moduleExtension_dot he
  have hdot := (h.left _ hc).2.1
  exact absurd (by simp) hdot

/-- The entry from which the output is scanned. -/
def outputEntry (t : Task) : Entry := ⟨t.volume, [], t.root, none⟩

theorem outputSearch_inv {t : Task} {o : SearchPath} (h : t.outputSearch st = .ok o)
    (hd : st.isDirectory t.volume t.root = .ok true) :
    ∃ entries, Scan.levels st (st.depth t.volume) ((outputEntry t).within
        (Path.isAbsolute [t.root]) (Path.steps t.root) []) = ⟨entries, none⟩
      ∧ o = ⟨t.volume, entries, none, none⟩ := by
  have hnormal : (outputEntry t).normal = ((outputEntry t).within (Path.isAbsolute [t.root])
      (Path.steps t.root) []).normal := by
    rw [normal_within (Path.allSteps_steps _) .nil]
    simp [Entry.normal, Entry.within, outputEntry, Path.join_eq_text]
  rw [← Scan.levels_congr hnormal]
  rcases hs : Scan.levels st (st.depth t.volume) (outputEntry t) with ⟨entries, stopped⟩
  have hscan : (⟨t.volume, [], t.root, none⟩ : Entry).scan st = ⟨entries, stopped⟩ := hs
  simp only [Task.outputSearch, hd, SearchPath.addRecursive_new, hscan] at h
  rcases stopped with _ | e
  · cases h
    exact ⟨entries, rfl, rfl⟩
  · cases h

theorem outputSearch_among {t : Task} {o : SearchPath} (h : t.outputSearch st = .ok o)
    (hst : st.ShowsCompiled t.volume t.root compiled) (hne : compiled ≠ [])
    (hident : ∀ c ∈ compiled, c.logical.Identifiers ∧ c.logical ≠ []) :
    Plan.Among st o compiled := by
  obtain ⟨entries, hlevels, rfl⟩ := outputSearch_inv h (hst.isDirectory hne)
  have hvo : compiledExtension ∈ moduleExtensions := by decide
  have hstorable : ∀ c ∈ compiled, c.logical.Storable := fun c hc =>
    (hident c hc).1.storable (hident c hc).2
  have hshows : st.Shows (outputEntry t).volume _ _ _ := hst.shows
  have hentries := hshows.mem_levels hlevels
  refine ⟨rfl, rfl, fun name => ?_⟩
  simp only [List.mem_map, SearchPath.modules, List.mem_flatMap]
  constructor
  · rintro ⟨x, ⟨y, hy, hx⟩, rfl⟩
    obtain ⟨dir, hdir, rfl⟩ := (hentries y).1 hy
    obtain ⟨file, r, stem, hfile, hstem, rfl⟩ :=
      (hshows.mem_modules_within (hdir.allSteps hshows.file_steps) x).1 hx
    obtain ⟨c, hc, hname, -⟩ := exists_of_namedFile hstorable hvo hfile hstem
    exact ⟨c, hc, hname⟩
  · rintro ⟨c, hc, rfl⟩
    rcases List.eq_nil_or_concat c.logical with hnil | ⟨front, stem, hm⟩
    · exact absurd hnil (hident c hc).2
    rw [List.concat_eq_append] at hm
    have hstem : stem ≠ "" := ((hident c hc).1 stem (by simp [hm])).1
    have hdir : IsDirectory (CompiledFile compiled) front :=
      isDirectory_named hstorable hvo hc hm
    refine ⟨_, ⟨_, (hentries _).2 ⟨front, hdir, rfl⟩,
      (hshows.mem_modules_within (hdir.allSteps hshows.file_steps) _).2
        ⟨stem ++ compiledExtension, [], stem, ⟨c, hc, front, stem, hm, rfl⟩,
          moduleStem?_append (List.Subset.refl moduleExtensions) hstem hvo, rfl⟩⟩, ?_⟩
    simp [outputEntry, hm]

end Search

theorem exists_artifact (t : Task) {c : Record} (h : c.logical.Identifiers) (hne : c.logical ≠ []) :
    ∃ front stem, c.logical = front ++ [stem] ∧ AllSteps (front ++ [stem ++ compiledExtension])
      ∧ t.artifact c = Path.text (Path.isAbsolute [t.root])
        (Path.steps t.root ++ (front ++ [stem ++ compiledExtension])) := by
  rcases List.eq_nil_or_concat c.logical with hnil | ⟨front, stem, hm⟩
  · exact absurd hnil hne
  rw [List.concat_eq_append] at hm
  exact ⟨front, stem, hm, allSteps_file (hm ▸ h) (by decide) (by decide), artifact_text hm h⟩

theorem showsCompiled_of_keys {st : Storage} {t : Task} {slot : Nat} {compiled : List Record}
    (hm : t.volume.medium = .memory slot) (hroot : Path.join [t.root] = t.root)
    (hident : ∀ c ∈ compiled, c.logical.Identifiers ∧ c.logical ≠ [])
    (hkeys : ∀ k, k ∈ (st.files slot).keys ↔ k ∈ compiled.map t.artifact) :
    st.ShowsCompiled t.volume t.root compiled := by
  have hbase : AllSteps (Path.steps t.root) := Path.allSteps_steps t.root
  have htext : t.root = Path.text (Path.isAbsolute [t.root]) (Path.steps t.root) :=
    Path.eq_text_of_join hroot
  have hsteps : ∀ f, CompiledFile compiled f → AllSteps f := by
    rintro f ⟨c, hc, front, stem, hlogical, rfl⟩
    exact allSteps_file (hlogical ▸ (hident c hc).1) (by decide) (by decide)
  have hfiles : ∀ k, k ∈ (st.files slot).keys ↔ ∃ f, CompiledFile compiled f
      ∧ k = Path.text (Path.isAbsolute [t.root]) (Path.steps t.root ++ f) := by
    intro k
    rw [hkeys, List.mem_map]
    constructor
    · rintro ⟨c, hc, rfl⟩
      obtain ⟨front, stem, hlogical, -, hartifact⟩ :=
        exists_artifact t (hident c hc).1 (hident c hc).2
      exact ⟨_, ⟨c, hc, front, stem, hlogical, rfl⟩, hartifact⟩
    · rintro ⟨f, ⟨c, hc, front, stem, hlogical, rfl⟩, rfl⟩
      exact ⟨c, hc, artifact_text hlogical (hident c hc).1⟩
  have hnormal := Storage.normal_of_keys hbase hsteps hfiles
  constructor
  · exact Storage.shows_of_keys hm hbase hsteps hfiles
  · intro hne
    obtain ⟨c, hc⟩ := List.exists_mem_of_ne_nil _ hne
    obtain ⟨front, stem, -, hsteps, hartifact⟩ :=
      exists_artifact t (hident c hc).1 (hident c hc).2
    have hmem : t.artifact c ∈ (st.files slot).keys := (hkeys _).2 (List.mem_map_of_mem hc)
    have hno : t.root ∉ (st.files slot).keys := by
      intro hk
      obtain ⟨c', hc', he⟩ := List.mem_map.1 ((hkeys _).1 hk)
      obtain ⟨front', stem', -, hsteps', hartifact'⟩ :=
        exists_artifact t (hident c' hc').1 (hident c' hc').2
      obtain ⟨-, hself⟩ := Path.text_injective (hbase.append hsteps') hbase
        (hartifact'.symm.trans (he.trans htext))
      simp at hself
    have hbelow : Listing.isDirectory (st.files slot).keys t.root = true := by
      obtain ⟨x, r, hx⟩ : ∃ x r, front ++ [stem ++ compiledExtension] = x :: r :=
        List.exists_cons_of_ne_nil (by simp)
      rw [hartifact, hx] at hmem
      rw [htext, Listing.isDirectory_text hnormal hbase]
      exact ⟨x, r, hx ▸ hbase.append hsteps, hmem⟩
    rw [Storage.isDirectory, Storage.stat_memory hm, Storage.kindAmong, if_neg hno, if_pos hbelow]
    rfl

end Bindery
