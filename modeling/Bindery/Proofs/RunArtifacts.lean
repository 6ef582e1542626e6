import Bindery.Proofs.OutputManifest
import Bindery.Proofs.StagedFiles

/-!
# What a run stages and compiles

A run stages and compiles each of its sources once, so it has no path twice if no two sources are
staged as one file, as is so for a scanned project: `run_artifacts`. A task that is run again
compiles its sources again, to the same paths.
-/

namespace Bindery

variable {ρ : Type}

namespace Command

/-- The path at which a command stages a source. -/
def staged? : Command → Option String
  | .put path _ => some path
  | .init _ | .load _ | .compile _ | .get _ | .loadPackages _ => none

/-- The path of the file that a command has compiled. -/
def compiled? : Command → Option String
  | .compile path => some path
  | .init _ | .put _ _ | .load _ | .get _ | .loadPackages _ => none

end Command

namespace Task

variable {tr : Transport ρ} {t : Task} {as : List (Attempt ρ)}

/-- What one kind of command says once at most in a compile sequence, the compile sequences of a run
say in their order. -/
theorem sublist_talks {path? : Command → Option String} {path : Record → String}
    (h : ∀ m source, (t.commandsOf m source).filterMap path? = [path m]) :
    ∀ {as : List (Attempt ρ)}, (∀ a ∈ as, a.Ran tr t) →
      ((commands (as.flatMap (·.talk))).filterMap path?).Sublist (as.map fun a => path a.record)
  | [], _ => by simp
  | a :: r, hran => by
    obtain ⟨ha, hr⟩ := List.forall_mem_cons.1 hran
    obtain ⟨-, -, -, ⟨source, hfront⟩, -⟩ := ha.compiles.talk
    have hfirst := hfront.sublist.filterMap path?
    rw [h] at hfirst
    rw [List.flatMap_cons, commands_append, List.filterMap_append]
    exact hfirst.append (sublist_talks h hr)

/-- Nothing is staged or compiled while packages are loaded. -/
theorem Builds.sublist_paths {planned : Except Error Plan} {loading notes : List Exchange}
    {out : Except Halt Unit} (path? : Command → Option String) (path : Record → String)
    (hb : Builds tr t planned loading as notes out)
    (hload : ∀ names, path? (.loadPackages names) = none)
    (h : ∀ m source, (t.commandsOf m source).filterMap path? = [path m]) :
    ((commands notes).filterMap path?).Sublist (as.map fun a => path a.record) := by
  have hran : ∀ a ∈ as, a.Ran tr t := by
    rcases hb.walk with rfl | ⟨plan, walked, -, hw⟩
    · simp
    · exact hw.ran
  have hnone : (commands loading).filterMap path? = [] := by
    rw [List.filterMap_eq_nil_iff]
    intro c hc
    rcases hb.opening.2.2 with rfl | ⟨plan, -, -, hfront⟩
    · cases hc
    · rw [List.mem_singleton.1 (hfront.subset hc)]
      exact hload _
  rw [← commands_filter_isLook, hb.talks, commands_append, List.filterMap_append, hnone,
    List.nil_append]
  exact sublist_talks h hran

theorem staged?_commandsOf (m : Record) (source : ByteArray) :
    (t.commandsOf m source).filterMap (·.staged?) = [t.staged m] := by
  unfold commandsOf
  split <;> rfl

theorem compiled?_commandsOf (m : Record) (source : ByteArray) :
    (t.commandsOf m source).filterMap (·.compiled?) = [t.artifact m] := by
  unfold commandsOf
  split <;> rfl

/-- Each attempt of a run is of another file. -/
theorem Builds.nodup_steps {st : Storage} {loading notes : List Exchange} {out : Except Halt Unit}
    (hb : Builds tr t (t.input.plan Plan.ofSources st) loading as notes out)
    (h : t.input.StagesOnce st) : (as.map fun a => a.record.logical.steps).Nodup := by
  rcases hb.walk with rfl | ⟨plan, walked, hplan, hw⟩
  · exact List.nodup_nil
  · have hperm := (Plan.order_perm hplan).filter (·.isSource)
    have horder : ((plan.order.filter (·.isSource)).map (·.logical.steps)).Nodup :=
      (hperm.map _).nodup_iff.2 h
    have hrecords := horder.sublist (hw.records_prefix.sublist.map (·.logical.steps))
    rwa [List.map_map] at hrecords

theorem run_distinct (ht : t.resolve = Plan.ofSources) (name : Option String) (s : Site ρ)
    (h : t.input.StagesOnce (tr.meanwhile s).storage) :
    ∃ t' s' result notes added, t.run tr name s = (t', s', result)
      ∧ t.run tr.recorded name (s.note []) = (t', s'.note notes, result)
      ∧ t'.outfiles = t.outfiles ++ added ∧ (added.map (·.physical)).Nodup
      ∧ ((commands notes).filterMap (·.staged?)).Nodup
      ∧ ((commands notes).filterMap (·.compiled?)).Nodup := by
  obtain ⟨t', s', result, notes, as, hrun, hrec, hx, hnotes⟩ := run_recorded tr t name s
  refine ⟨t', s', result, notes, _, hrun, hrec, hx.outfiles, ?_⟩
  rcases hnotes with ⟨rfl, rfl⟩ | ⟨loading, walked, out, rfl, hb, -⟩
  · exact ⟨List.nodup_nil, List.nodup_nil, List.nodup_nil⟩
  rw [ht] at hb
  have hsteps : as.Pairwise fun a b => a.record.logical.steps ≠ b.record.logical.steps :=
    List.pairwise_map.1 (hb.nodup_steps h)
  have hstaged : (as.map fun a => t.staged a.record).Nodup :=
    List.pairwise_map.2 (hsteps.imp fun h => staged_ne h)
  have hartifacts : (as.map fun a => t.artifact a.record).Nodup :=
    List.pairwise_map.2 (hsteps.imp fun h => artifact_ne h)
  have hputs := hb.sublist_paths (·.staged?) t.staged (fun _ => rfl) staged?_commandsOf
  have hcompiles := hb.sublist_paths (·.compiled?) t.artifact (fun _ => rfl) compiled?_commandsOf
  refine ⟨?_, hstaged.sublist hputs, hartifacts.sublist hcompiles⟩
  simp only [List.map_map, Function.comp_def, Attempt.outfile]
  exact hartifacts.sublist (List.filter_sublist.map _)

/-- The task after some runs, each with the name for its output and the site where it starts. -/
def runs (tr : Transport ρ) (t : Task) (calls : List (Option String × Site ρ)) : Task :=
  calls.foldl (fun t call => (t.run tr call.1 call.2).1) t

/-- Runs change neither what a task compiles nor where to. -/
theorem runs_alike (tr : Transport ρ) : ∀ (calls : List (Option String × Site ρ)) (t : Task),
    (runs tr t calls).Alike t
  | [], t => .refl t
  | call :: r, t => by
    obtain ⟨t', s', result, notes, as, hrun, -, hx, -⟩ := run_recorded tr t call.1 call.2
    have hfirst : (t.run tr call.1 call.2).1.Alike t := by
      rw [hrun]
      exact hx.alike
    exact (runs_alike tr r (t.run tr call.1 call.2).1).trans hfirst

/-- However often a task has been run, a further run adds no two compiled files of one path, and
stages and compiles no path twice, if no two sources of the project are staged as one file, and so
for a project from the scan of a directory. -/
theorem run_artifacts (tr : Transport ρ) (input : Project) (root : String) (legacy : Bool)
    (volume : Volume) (shared : Bool) (before : List (Option String × Site ρ))
    (name : Option String) (s : Site ρ)
    (h : input.StagesOnce (tr.meanwhile s).storage ∨ ∃ st v d, input.Scanned st v d
      ∧ (v.medium = .disk → st.ListsNames v ∧ (tr.meanwhile s).storage.ListsNames v)) :
    let t := runs tr (new input root legacy volume shared) before
    ∃ t' s' result notes added, t.run tr name s = (t', s', result)
      ∧ t.run tr.recorded name (s.note []) = (t', s'.note notes, result)
      ∧ t'.outfiles = t.outfiles ++ added ∧ (added.map (·.physical)).Nodup
      ∧ ((commands notes).filterMap (·.staged?)).Nodup
      ∧ ((commands notes).filterMap (·.compiled?)).Nodup := by
  intro t
  have halike := runs_alike tr before (new input root legacy volume shared)
  refine run_distinct halike.resolve name s ?_
  have hinput : t.input = input := halike.input
  rw [hinput]
  rcases h with h | ⟨st, v, d, hscanned, hdisk⟩
  · exact h
  · have hlists : st.ListsNames v ∧ (tr.meanwhile s).storage.ListsNames v := by
      by_cases hm : v.medium = .disk
      · exact hdisk hm
      · exact ⟨Storage.listsNames_of_ne_disk hm, Storage.listsNames_of_ne_disk hm⟩
    exact hscanned.stagesOnce hlists.1 hlists.2

open Transport (faultless)

theorem scanned_mixedProject : mixedProject.Scanned mixedSite.storage mixedVolume "/src" := by
  have hscan : (Project.new "p" mixedVolume).scan mixedSite.storage "/src" = .ok mixedProject := by
    decide +kernel
  exact ⟨⟨mixedProject, hscan, rfl⟩, rfl⟩

theorem run_artifacts_again :
    mixedProject.Scanned mixedSite.storage mixedVolume "/src"
      ∧ ∃ t' s' result notes added, mixedRun.1.run faultless none mixedRun.2.1 = (t', s', result)
        ∧ mixedRun.1.run faultless.recorded none (mixedRun.2.1.note []) =
          (t', s'.note notes, result)
        ∧ t'.outfiles = mixedRun.1.outfiles ++ added ∧ (added.map (·.physical)).Nodup
        ∧ ((commands notes).filterMap (·.staged?)).Nodup
        ∧ ((commands notes).filterMap (·.compiled?)).Nodup := by
  have hmemory : mixedVolume.medium ≠ .disk := by decide
  exact ⟨scanned_mixedProject, run_artifacts faultless mixedProject "/lib" false mixedOutput false
    [(none, mixedSite)] none mixedRun.2.1
    (.inr ⟨_, _, _, scanned_mixedProject, fun hdisk => absurd hdisk hmemory⟩)⟩

def nestedSite : Site (List Reply) where
  remote := []
  storage := ⟨[.ofList [("/src/C/A.v", .empty)], .empty], [], default, 2⟩
  stopped := false

/-- Two directories, of which one is in the other. -/
def nestedRoots : Roots := .ofList [("src", ⟨none, ["", "C"]⟩)]

def nestedProject : Project where
  name := "p"
  volume := mixedVolume
  search := ⟨mixedVolume, [⟨mixedVolume, [], "/src", some "p"⟩,
    ⟨mixedVolume, ["C"], "/src/C", some "p"⟩, ⟨mixedVolume, ["C"], "/src/C", some "p"⟩], none, none⟩
  deps := []
  listed := none

/-- A task that is run twice compiles to its paths twice, and so does a run of a project with a
directory that is declared twice. -/
theorem run_artifacts_repeated :
    mixedProject.Scanned mixedSite.storage mixedVolume "/src"
      ∧ (runs faultless mixedTask [(none, mixedSite), (none, mixedRun.2.1)]).outfiles.map
        (·.physical) = ["/lib/A.vo", "/lib/B.vo", "/lib/A.vo", "/lib/B.vo"]
      ∧ Roots.parse "\x7b\x22src\x22: \x7b\x22dirpaths\x22: [\x22\x22, \x22C\x22]\x7d\x7d" =
        .ok nestedRoots
      ∧ (Project.new "p" mixedVolume).addRoots nestedSite.storage nestedRoots "/" =
        .ok nestedProject
      ∧ (runs faultless (new nestedProject "/lib" false mixedOutput false)
        [(none, nestedSite)]).outfiles.map (·.physical) = ["/lib/C/A.vo", "/lib/C/A.vo"] := by
  refine ⟨scanned_mixedProject, ?_, ?_, ?_, ?_⟩
  · decide +kernel
  · decide +kernel
  · decide +kernel
  · decide +kernel

end Task

end Bindery
