import Bindery.Build.Task
import Bindery.Proofs.Enumeration
import Bindery.Proofs.ModuleTree

/-!
# The files of staged sources

A source is staged below the root as the file that its logical path spells. The sources of a scanned
project are staged each as a file of its own: `Scanned.stagesOnce`.
-/

namespace Bindery

open Bindery.Path (IsStep AllSteps)

/-- The way from the root to the file as which a source is staged. -/
def Logical.steps (logical : Logical) : List String :=
  Path.steps ("/".intercalate logical ++ sourceExtension)

namespace Task

variable {t : Task} {m m' : Record}

theorem steps_staged : Path.steps (t.staged m) = Path.steps t.root ++ m.logical.steps := by
  have hsteps : AllSteps (Path.steps t.root ++ m.logical.steps) :=
    (Path.allSteps_steps _).append (Path.allSteps_steps _)
  have hflat : [t.root, "/".intercalate m.logical ++ sourceExtension].flatMap Path.steps =
      Path.steps t.root ++ m.logical.steps := by
    rw [List.flatMap_cons, List.flatMap_singleton, Logical.steps]
  rw [staged, Path.join_eq_text, hflat, Path.steps_text _ hsteps]

theorem staged_ne (h : m.logical.steps ≠ m'.logical.steps) : t.staged m ≠ t.staged m' := by
  intro he
  have hsteps := congrArg Path.steps he
  rw [steps_staged, steps_staged] at hsteps
  exact h (List.append_cancel_left hsteps)

theorem artifact_ne (h : m.logical.steps ≠ m'.logical.steps) : t.artifact m ≠ t.artifact m' := by
  intro he
  rw [artifact, artifact, String.append_left_inj] at he
  exact staged_ne h he

end Task

/-- No two of the sources are staged as one file. -/
def Project.StagesOnce (st : Storage) (p : Project) : Prop :=
  (((p.modules st).filter (·.isSource)).map (·.logical.steps)).Nodup

instance (st : Storage) (p : Project) : Decidable (p.StagesOnce st) := by
  unfold Project.StagesOnce
  infer_instance

/-- A directory of the volume has no two entries of one name, and none without a name or with a
slash in it. -/
def Storage.ListsNames (st : Storage) (v : Volume) : Prop :=
  ∀ path names, st.list v path = .ok names → names.Nodup ∧ ∀ c ∈ names, c ≠ "" ∧ '/' ∉ c.toList

theorem Listing.mem_children_inv {names : List String} {dir c : String}
    (h : c ∈ children names dir) : c ≠ "" ∧ '/' ∉ c.toList := by
  obtain ⟨name, -, hc⟩ := List.mem_filterMap.1 (List.mem_eraseDups.1 h)
  obtain ⟨rest, -, hfind⟩ := Option.bind_eq_some_iff.1 hc
  obtain ⟨piece, hpiece, rfl⟩ := List.mem_map.1 (List.mem_of_find?_eq_some hfind)
  refine ⟨by simpa using List.find?_some hfind, ?_⟩
  rw [String.toList_ofList]
  exact Text.not_mem_of_mem_splitOn hpiece

/-- Where directories are told from the names of files, names are well formed. -/
theorem Storage.listsNames_of_ne_disk {st : Storage} {v : Volume} (h : v.medium ≠ .disk) :
    st.ListsNames v := by
  have hchildren : ∀ (files : List String) (dir : String), (Listing.children files dir).Nodup
      ∧ ∀ c ∈ Listing.children files dir, c ≠ "" ∧ '/' ∉ c.toList :=
    fun files dir => ⟨Plan.nodup_eraseDups _, fun c => Listing.mem_children_inv⟩
  intro path names hl
  unfold list at hl
  split at hl
  · cases hl
    exact hchildren _ _
  · cases hl
    exact hchildren _ _
  · exact absurd ‹_› h

namespace Scan

variable {st : Storage} {e : Entry} {names : List String}

/-- A scan does not end if the directory holds itself under the name of a dot. -/
theorem levels_dot (hl : st.list e.volume e.normal.physical = .ok names) (hdot : "." ∈ names)
    (hd : st.isDirectory e.volume (e.normal.child ".").physical = .ok true) (n : Nat)
    (entries : List Entry) : levels st n e ≠ ⟨entries, none⟩ := by
  induction n generalizing e entries with
  | zero => exact fun h => by cases h
  | succ n ih =>
    intro h
    obtain ⟨names', below, hl', hc, rfl⟩ := levels_eq h
    cases hl.symm.trans hl'
    obtain ⟨b, hb, hscan⟩ := (children_inv hc).1 "." hdot
    cases hd.symm.trans hb
    obtain ⟨es, hs, -⟩ := hscan rfl
    have hphysical : (e.normal.child ".").normal.physical = e.normal.physical := by
      simp only [Entry.normal, Entry.child, Path.join_dot]
      rw [Path.join_eq_text [e.physical], List.flatMap_singleton]
      exact Path.join_text _ (Path.allSteps_steps _)
    refine ih (e := e.normal.child ".") ?_ ?_ es hs
    · rw [hphysical]
      exact hl
    · show st.isDirectory e.volume (Path.join [(e.normal.child ".").normal.physical, "."]) = _
      rw [hphysical]
      exact hd

/-- The logical path of what a scan registers is made of names of directories. -/
theorem levels_allSteps {v : Volume} (hn : st.ListsNames v) : ∀ {n : Nat} {e : Entry}
    {entries : List Entry}, e.volume = v → levels st n e = ⟨entries, none⟩ → ∀ x ∈ entries,
      x.volume = v ∧ ∃ dirs, AllSteps dirs ∧ x.logical = e.logical ++ dirs
  | 0, _, _, _, h => by cases h
  | n + 1, e, entries, hv, h => by
    obtain ⟨names, below, hl, hc, rfl⟩ := levels_eq h
    intro x hx
    rcases List.mem_cons.1 hx with rfl | hx
    · exact ⟨hv, [], .nil, (List.append_nil _).symm⟩
    · obtain ⟨c, hname, hd, es, hs, hx⟩ := (children_inv hc).2 x hx
      obtain ⟨hxv, dirs, hdirs, hlogical⟩ := levels_allSteps hn (e := e.normal.child c) hv hs x hx
      obtain ⟨hne, hslash⟩ := (hn _ _ (hv ▸ hl)).2 c hname
      have hc : IsStep c := by
        refine ⟨hne, ?_, hslash⟩
        rintro rfl
        exact levels_dot hl hname hd _ _ h
      refine ⟨hxv, c :: dirs, hc.allSteps.append hdirs, hlogical.trans ?_⟩
      exact List.append_assoc _ _ _

end Scan

theorem Entry.steps_module {e : Entry} {c : String} {m : Record} (he : AllSteps e.logical)
    (hslash : '/' ∉ c.toList) (hm : e.module? c = some m) (hsource : m.isSource = true) :
    m.logical.steps = e.logical ++ [c] := by
  obtain ⟨stem, hstem, rfl⟩ := Option.map_eq_some_iff.1 hm
  have hc : IsStep c := isStep_of_moduleStem? hstem hslash
  obtain ⟨-, ext, hext, rfl⟩ := moduleStem?_eq_some.1 hstem
  have hphysical : Path.join [e.physical, stem ++ ext] =
      Path.text (Path.isAbsolute [e.physical, stem ++ ext])
        (Path.steps e.physical ++ [stem ++ ext]) := by
    rw [Path.join_eq_text, List.flatMap_cons, List.flatMap_singleton, hc.steps]
  have hv : sourceExtension ∈ moduleExtensions := by decide
  obtain rfl : sourceExtension = ext := (hasExtension_moduleFile hphysical hext hv).1 hsource
  rw [Logical.steps, logical_append_extension, Path.steps_text _ (he.append hc.allSteps)]

namespace Project

variable {st st' : Storage} {p : Project} {v : Volume} {d : String}

/-- Directories of different logical paths stage their sources as different files. -/
theorem stagesOnce_of_entries (hlisted : p.listed = none)
    (hnodup : (p.search.entries.map (·.logical)).Nodup)
    (hentries : ∀ e ∈ p.search.entries, AllSteps e.logical ∧ st.ListsNames e.volume) :
    p.StagesOnce st := by
  have hfiles : ∀ e ∈ p.search.entries, (e.files st).Nodup
      ∧ ∀ c ∈ e.files st, c ≠ "" ∧ '/' ∉ c.toList := by
    intro e he
    unfold Entry.files
    rcases hl : st.list e.volume e.physical with err | names
    · exact ⟨List.nodup_nil, fun c hc => by cases hc⟩
    · exact (hentries e he).2 _ _ hl
  have hpairs : (p.search.modules st).Pairwise fun m m' => m.isSource = true →
      m'.isSource = true → m.logical.steps ≠ m'.logical.steps := by
    refine SearchPath.pairwise_modules hnodup.of_map (fun e he => (hfiles e he).1) ?_
    intro e he e' he' c hc c' hc' m m' hm hm' hne hsource hsource' heq
    have hslash := ((hfiles e he).2 c hc).2
    have hslash' := ((hfiles e' he').2 c' hc').2
    rw [Entry.steps_module (hentries e he).1 hslash hm hsource,
      Entry.steps_module (hentries e' he').1 hslash' hm' hsource'] at heq
    obtain ⟨hlogical, hlast⟩ := List.append_inj' heq rfl
    obtain rfl : e = e' := List.inj_on_of_nodup_map hnodup he he' hlogical
    obtain rfl : c = c' := by simpa using hlast
    exact hne.elim (fun h => h rfl) fun h => h rfl
  rw [StagesOnce, modules, hlisted, List.Nodup, List.pairwise_map, List.pairwise_filter,
    SearchPath.modulesOf, List.pairwise_filter]
  exact hpairs.imp fun h _ _ => h

/-- The sources of a scanned project are staged each as a file of its own, whatever the files are by
then. -/
theorem Scanned.stagesOnce (hp : p.Scanned st v d) (hn : st.ListsNames v)
    (hn' : st'.ListsNames v) : p.StagesOnce st' := by
  obtain ⟨p₁, hscan, hentries⟩ := hp.entries
  obtain ⟨entries, hlevels, rfl⟩ := scan_eq_ok_iff.1 hscan
  have hsteps := Scan.levels_allSteps hn (e := top p.name v d) rfl hlevels
  have hfirst := Scan.levels_holdersFirst (fun path names hl => (hn path names hl).1)
    (e := top p.name v d) rfl hlevels
  refine stagesOnce_of_entries hp.listed ?_ fun e he => ?_
  · rw [hentries, List.Nodup, List.pairwise_map]
    refine hfirst.imp fun {x y} h heq => h ?_
    exact heq.symm ▸ List.prefix_refl y.logical
  · rw [hentries] at he
    obtain ⟨hv, dirs, hdirs, hlogical⟩ := hsteps e he
    rw [hlogical, hv]
    exact ⟨hdirs, hn'⟩

end Project

end Bindery
