import Bindery.Proofs.CompiledTree
import Bindery.Proofs.PackageRoundTrip

/-!
# The manifest of an output

The output of a completed run is planned anew when it is packaged, over the compiled files alone.
Of what the plan of the run records for a source, its manifest has the compiled modules, provided
that no requirement of the source can be mistaken for another of them:
`package_deps`.
-/

namespace Bindery

variable {ρ : Type}

theorem Table.find?_foldl_map {α : Type} (f : String → α) (n : String) :
    ∀ (names : List String) (t : Table α),
      ((names.map fun k => (k, f k)).foldl (fun t e => t.insert e.1 e.2) t).find? n =
        if n ∈ names then some (f n) else t.find? n
  | [], _ => rfl
  | k :: r, t => by
    rw [List.map_cons, List.foldl_cons, find?_foldl_map f n r, Table.find?_insert]
    by_cases hr : n ∈ r
    · rw [if_pos hr, if_pos (List.mem_cons_of_mem k hr)]
    · rw [if_neg hr]
      by_cases hk : n = k
      · rw [if_pos hk, if_pos (hk ▸ List.mem_cons_self), hk]
      · rw [if_neg hk, if_neg (by simp [hk, hr])]

theorem Table.find?_ofList_map {α : Type} (f : String → α) (names : List String) (n : String) :
    (Table.ofList (names.map fun k => (k, f k))).find? n =
      if n ∈ names then some (f n) else none :=
  Table.find?_foldl_map f n names .empty

theorem NameSet.mem_toList_ofList {names : List String} {n : String} :
    n ∈ (NameSet.ofList names).toList ↔ n ∈ names := by
  have hkeys : n ∈ (NameSet.ofList names).toList ↔
      ((Table.ofList (names.map fun n => (n, ()))).find? n).isSome = true :=
    (Table.isSome_find? _ n).symm
  rw [hkeys, Table.find?_ofList_map]
  split <;> simp [*]

namespace Project

variable {st : Storage} {p : Project}

theorem find?_manifest {m : Manifest} (h : p.manifest Plan.ofSources st = .ok m) :
    ∃ plan, Plan.ofSources st p.search (p.modules st) = .ok plan
      ∧ ∀ n ∈ (p.modules st).map (·.dotted), m.modules.find? n = some (plan.deps.find? n) := by
  obtain ⟨plan, hplan, rfl⟩ := exists_plan h
  refine ⟨plan, hplan, fun n hn => ?_⟩
  have hname : n ∈ (p.names st).toList := NameSet.mem_toList_ofList.2 hn
  show (Table.ofList ((p.names st).toList.map fun n => (n, plan.deps.find? n))).find? n = _
  rw [Table.find?_ofList_map, if_pos hname]

/-- The search path of a project is regular, and the listed sources lie in it. -/
structure Regular (st : Storage) (p : Project) : Prop where
  search : p.search.Regular st
  listed : ∀ m ∈ p.modules st, m.isSource = true →
    m.logical ∈ (p.search.modules st).map (·.logical)

theorem Regular.identifiers (h : p.Regular st) {m : Record} (hm : m ∈ p.modules st)
    (hs : m.isSource = true) : m.logical.Identifiers ∧ m.logical ≠ [] := by
  obtain ⟨x, hx, hlogical⟩ := List.mem_map.1 (h.listed m hm hs)
  obtain ⟨-, front, stem, hstem, -⟩ := SearchPath.mem_modules_inv hx
  rw [← hlogical]
  exact ⟨h.search.identifiers x hx, by simp [hstem]⟩

end Project

/-- The record of a module as one that a package owns. -/
def Record.ownedBy (package : String) (m : Record) : Record := { m with package := some package }

namespace Plan

variable {st st' : Storage} {s o : SearchPath} {modules listed : List Record} {package : String}

theorem sourceText_ownedBy {m : Record} (package : String)
    (h : ∀ v, m.volume = some v → st'.read v m.physical = st.read v m.physical) :
    sourceText st' (m.ownedBy package) = sourceText st m := by
  rcases hv : m.volume with _ | v
  · simp only [sourceText, Record.ownedBy, hv]
  · simp only [sourceText, Record.ownedBy, hv, Storage.readText, h v hv]

theorem targetNames_compiled {compiled : List Record} {m : Record} (hs : s.Regular st)
    (ho : Among st' o compiled)
    (hname : ∀ c ∈ compiled, c.logical.Identifiers ∧ c.logical ≠ [])
    (hin : ∀ c ∈ compiled, c.logical ∈ (s.modules st).map (·.logical))
    (htext : sourceText st' (m.ownedBy package) = sourceText st m)
    (hclear : ∀ r ∈ Requirement.parse (sourceText st m), Clear st s compiled m r) :
    targetNames st' o (m.ownedBy package) =
      (targetNames st s m).filter (· ∈ compiled.map (·.dotted)) := by
  unfold targetNames targets
  rw [htext, List.map_filterMap, List.map_filterMap, List.filter_filterMap]
  exact List.filterMap_congr fun r hr =>
    name_target?_compiled hs ho (Requirement.isNamed_of_mem_parse hr) hname hin rfl (hclear r hr)

theorem filter_owned {plan : Plan} (hplan : ofSources st s modules = .ok plan)
    (hlisted : listed.filter (·.isSource) =
      (plan.order.filter (·.isSource)).map (·.ownedBy package)) (n : String) :
    listed.filter (fun m => m.isSource && m.volume.isSome && m.dotted = n) =
      (modules.filter fun m => m.isSource && m.volume.isSome && m.dotted = n).map
        (·.ownedBy package) := by
  let q : Record → Bool := fun m => m.isSource && m.volume.isSome && m.dotted = n
  have habsorb : ∀ (p : Record → Bool) (l : List Record), (∀ m, q m = true → p m = true) →
      (l.filter p).filter q = l.filter q := by
    intro p l hp
    rw [List.filter_filter]
    refine List.filter_congr fun m _ => ?_
    by_cases hq : q m = true
    · simp [hq, hp m hq]
    · simp [hq]
  have hsource : ∀ m, q m = true → m.isSource = true := by
    intro m hq
    simp only [q, Bool.and_eq_true] at hq
    exact hq.1.1
  have hdotted : ∀ m, q m = true → decide (m.dotted = n) = true := by
    intro m hq
    simp only [q, Bool.and_eq_true] at hq
    exact hq.2
  calc listed.filter q
      = (listed.filter (·.isSource)).filter q := (habsorb _ _ hsource).symm
    _ = ((plan.order.filter (·.isSource)).filter q).map (·.ownedBy package) := by
        rw [hlisted, List.filter_map]
        rfl
    _ = (plan.order.filter q).map (·.ownedBy package) := by rw [habsorb _ _ hsource]
    _ = ((plan.order.filter (·.dotted = n)).filter q).map (·.ownedBy package) := by
        rw [habsorb _ _ hdotted]
    _ = (modules.filter q).map (·.ownedBy package) := by
        rw [filter_dotted_order hplan, habsorb _ _ hdotted]

/-- Planned anew among the compiled files, the sources of a name require what they required before,
as far as it is compiled. -/
theorem find?_deps_compiled {plan out : Plan} {compiled : List Record} {n : String}
    (hplan : ofSources st s modules = .ok plan) (hout : ofSources st' o listed = .ok out)
    (hlisted : listed.filter (·.isSource) =
      (plan.order.filter (·.isSource)).map (·.ownedBy package))
    (hs : s.Regular st) (ho : Among st' o compiled)
    (hname : ∀ c ∈ compiled, c.logical.Identifiers ∧ c.logical ≠ [])
    (hin : ∀ c ∈ compiled, c.logical ∈ (s.modules st).map (·.logical))
    (hsources : ∀ m ∈ modules, m.isSource = true → m.dotted = n →
      sourceText st' (m.ownedBy package) = sourceText st m
        ∧ ∀ r ∈ Requirement.parse (sourceText st m), Clear st s compiled m r) :
    out.deps.find? n = kept (· ∈ compiled.map (·.dotted)) (plan.deps.find? n) := by
  rw [find?_deps hout, find?_deps hplan, kept_noted, filter_owned hplan hlisted, List.flatMap_map,
    List.filter_flatMap]
  refine congrArg noted (List.flatMap_congr fun m hm => ?_)
  simp only [List.mem_filter, Bool.and_eq_true, decide_eq_true_eq] at hm
  obtain ⟨hmem, ⟨hsource, -⟩, hdotted⟩ := hm
  obtain ⟨htext, hclear⟩ := hsources m hmem hsource hdotted
  exact targetNames_compiled hs ho hname hin htext hclear

end Plan

namespace Task

/-- Nobody but a run between two sites writes to the volumes of a task: neither the volume in memory
that the run fills nor the sources are written by others. A shared volume holds at the end the
compiled files of the sources below the root, which is what the other side is to write there. -/
inductive Undisturbed (tr : Transport ρ) (t : Task) (s s' : Site ρ) (sources : List Record) :
    Prop where
  | alone {slot : Nat} : t.shared = false → t.volume.medium = .memory slot →
      slot < s.storage.memories.length → (s.storage.files slot).keys = [] →
      (∀ m ∈ sources, ∀ v, m.volume = some v → v.medium ≠ .memory slot) → tr.LeavesFiles →
      Undisturbed tr t s s' sources
  | shared : t.shared = true →
      (∀ m ∈ sources, ∀ v, m.volume = some v →
        s'.storage.read v m.physical = s.storage.read v m.physical) →
      s'.storage.ShowsCompiled t.volume t.root sources → Undisturbed tr t s s' sources

/-- No requirement of the sources of a name can mean a listed source that it does not mean. -/
def Unmistaken (st : Storage) (p : Project) (n : String) : Prop :=
  ∀ m ∈ p.modules st, m.isSource = true → m.dotted = n →
    ∀ r ∈ Requirement.parse (Plan.sourceText st m),
      Plan.Clear st p.search ((p.modules st).filter (·.isSource)) m r

instance (st : Storage) (p : Project) (n : String) : Decidable (Unmistaken st p n) :=
  inferInstanceAs (Decidable (∀ m ∈ p.modules st, m.isSource = true → m.dotted = n →
    ∀ r ∈ Requirement.parse (Plan.sourceText st m),
      Plan.Clear st p.search ((p.modules st).filter (·.isSource)) m r))

section Output

variable {tr : Transport ρ} {t t' : Task} {name : Option String} {s s' : Site ρ} {p : Project}
  {plan : Plan} {as : List (Attempt ρ)} {m' : Record}

theorem Undisturbed.shows {sources : List Record} (h : Undisturbed tr t (tr.meanwhile s) s' sources)
    (hc : Completes tr t t' name s s' p plan as)
    (hmem : ∀ m, m ∈ sources ↔ m ∈ as.map (·.record))
    (hroot : Path.join [t.root] = t.root)
    (hident : ∀ m ∈ sources, m.logical.Identifiers ∧ m.logical ≠ []) :
    s'.storage.ShowsCompiled t.volume t.root sources
      ∧ ∀ m ∈ sources, ∀ v, m.volume = some v →
        s'.storage.read v m.physical = (tr.meanwhile s).storage.read v m.physical := by
  cases h with
  | shared _ hread hshows => exact ⟨hshows, hread⟩
  | @alone slot hshared hm hlt hempty hvolumes hleaves =>
    have hload := storage_loadPackages hleaves plan.external.toList (tr.meanwhile s)
    rw [← hload] at hlt hempty
    have hadds := hc.course.adds hleaves hm hshared hc.completed hlt
    constructor
    · refine showsCompiled_of_keys hm hroot hident fun k => ?_
      rw [hadds.keys, hempty]
      simp only [List.not_mem_nil, false_or, List.mem_map, hmem]
      constructor
      · rintro ⟨a, ha, rfl⟩
        exact ⟨a.record, ⟨a, ha, rfl⟩, rfl⟩
      · rintro ⟨m, ⟨a, ha, rfl⟩, rfl⟩
        exact ⟨a, ha, rfl⟩
    · intro m hmem v hv
      rw [hadds.read v (hvolumes m hmem v hv), hload]

theorem outputProject_inv (h : t.outputProject s.storage name = .ok p) :
    t.outputSearch s.storage = .ok p.search
      ∧ p.listed = some ((t.infiles ++ t.outfiles).map (·.ownedBy (t.outputName name))) := by
  unfold outputProject at h
  rcases ho : t.outputSearch s.storage with e | o
  · rw [ho] at h
    cases h
  · rw [ho] at h
    cases h
    exact ⟨rfl, rfl⟩

theorem not_isSource_artifact (m : Record) (h : m.physical = t.artifact m') :
    m.isSource = false := by
  rw [Record.isSource, Record.hasExtension, Option.isSome_eq_false_iff, Option.isNone_iff_eq_none]
  rcases hb : Text.before? sourceExtension m.physical with _ | rest
  · rfl
  · have hlast := congrArg String.toList (Text.before?_eq_some.1 hb)
    rw [h, Task.artifact, String.toList_append, String.toList_append] at hlast
    have hv : sourceExtension.toList = ['.', 'v'] := by decide
    have hend := congrArg List.getLast? hlast
    simp [hv] at hend

theorem Completes.filter_listed (hc : Completes tr t t' name s s' p plan as) :
    (p.modules s'.storage).filter (·.isSource) =
      (plan.order.filter (·.isSource)).map (·.ownedBy (t'.outputName name)) := by
  obtain ⟨-, hlisted⟩ := outputProject_inv hc.project
  have hin : (as.map (·.record)).filter (·.isSource) = plan.order.filter (·.isSource) := by
    rw [hc.records, List.filter_filter]
    simp only [Bool.and_self]
  have hout : (as.map (·.outfile t)).filter (·.isSource) = [] := by
    rw [List.filter_eq_nil_iff]
    intro m hm
    obtain ⟨a, -, rfl⟩ := List.mem_map.1 hm
    rw [not_isSource_artifact _ rfl]
    exact Bool.false_ne_true
  rw [Project.modules, hlisted, List.filter_map]
  show ((t'.infiles ++ t'.outfiles).filter (·.isSource)).map _ = _
  rw [hc.infiles, hc.outfiles, List.filter_append, hin, hout, List.append_nil]

/-- The manifest of an output that is packaged as it was delivered. -/
theorem package_ok {st : Storage} {selection : Selection} {style : Style} {pkg : Package}
    (hout : t.output = some p) (hlegacy : t.legacy = false)
    (h : t.package st selection style = .ok pkg) :
    ∃ manifest file, p.manifest t.resolve st = .ok manifest
      ∧ pkg.manifest = style.layout.text (selection.describe manifest file) := by
  rw [package, hout, hlegacy] at h
  obtain ⟨manifest, stamp, hmanifest, -, htext, -⟩ := Project.package_inv h
  exact ⟨manifest, _, hmanifest, htext⟩

theorem Completes.find?_manifest {sources : List Record} {manifest : Manifest}
    (hc : Completes tr t t' name s s' p plan as) (hresolve : t.resolve = Plan.ofSources)
    (hinput : t.input.Regular (tr.meanwhile s).storage) (hroot : Path.join [t.root] = t.root)
    (hsources : (t.input.modules (tr.meanwhile s).storage).filter (·.isSource) = sources)
    (hundisturbed : Undisturbed tr t (tr.meanwhile s) s' sources)
    (hmanifest : p.manifest Plan.ofSources s'.storage = .ok manifest) {m : Record}
    (hm : m ∈ sources) (hclear : Unmistaken (tr.meanwhile s).storage t.input m.dotted) :
    manifest.modules.find? m.dotted = some (Plan.kept (· ∈ sources.map (·.dotted))
      (plan.deps.find? m.dotted)) := by
  have hplan : t.input.plan Plan.ofSources (tr.meanwhile s).storage = .ok plan :=
    hresolve ▸ hc.planned
  have hlisted : ∀ c, c ∈ sources ↔
      c ∈ t.input.modules (tr.meanwhile s).storage ∧ c.isSource = true := by
    intro c
    rw [← hsources, List.mem_filter]
  have hident : ∀ c ∈ sources, c.logical.Identifiers ∧ c.logical ≠ [] := fun c hc =>
    hinput.identifiers ((hlisted c).1 hc).1 ((hlisted c).1 hc).2
  -- The order of a plan loses no listed source, so a completed run has compiled them all.
  have hrecords : ∀ c, c ∈ sources ↔ c ∈ as.map (·.record) := by
    intro c
    rw [hc.records, hlisted, List.mem_filter, Plan.mem_order hplan]
  obtain ⟨hshows, hread⟩ := hundisturbed.shows hc hrecords hroot hident
  obtain ⟨hsearch, -⟩ := outputProject_inv hc.project
  have hamong : Plan.Among s'.storage p.search sources := by
    refine outputSearch_among hsearch ?_ (List.ne_nil_of_mem hm) hident
    rwa [hc.alike.volume, hc.alike.root]
  obtain ⟨out, hout, hfind⟩ := Project.find?_manifest hmanifest
  have hnamed : m.dotted ∈ (p.modules s'.storage).map (·.dotted) := by
    refine List.mem_map.2 ⟨m.ownedBy (t'.outputName name), ?_, rfl⟩
    refine List.mem_of_mem_filter (p := (·.isSource)) ?_
    rw [hc.filter_listed, ← hc.records]
    exact List.mem_map_of_mem ((hrecords m).1 hm)
  refine (hfind m.dotted hnamed).trans (congrArg some ?_)
  refine Plan.find?_deps_compiled hplan hout hc.filter_listed hinput.search hamong hident
    (fun c hc => hinput.listed c ((hlisted c).1 hc).1 ((hlisted c).1 hc).2)
    fun x hx hxs hxn => ⟨?_, hsources ▸ hclear x hx hxs hxn⟩
  exact Plan.sourceText_ownedBy _ (hread x ((hlisted x).2 ⟨hx, hxs⟩))

/-- Of what a plan records for a name, the manifest of the output of a run that completes it has
the names of compiled modules. -/
theorem package_deps {tr : Transport ρ} {input : Project} {root : String} {volume : Volume}
    {shared : Bool} {name : Option String} {s s' : Site ρ} {t' : Task} {p : Project} {plan : Plan}
    {selection : Selection} {style : Style} {pkg : Package}
    (hrun : (new input root false volume shared).run tr name s = (t', s', .ok p))
    (hphase : t'.phase = .completed)
    (hplan : input.plan Plan.ofSources (tr.meanwhile s).storage = .ok plan)
    (hinput : input.Regular (tr.meanwhile s).storage)
    (hroot : Path.join [root] = root)
    (hundisturbed : Undisturbed tr (new input root false volume shared) (tr.meanwhile s) s'
      ((input.modules (tr.meanwhile s).storage).filter (·.isSource)))
    (hpackage : t'.package s'.storage selection style = .ok pkg) :
    ∃ manifest file, pkg.manifest = style.layout.text (selection.describe manifest file)
      ∧ (selection.describe manifest file = manifest.toJson →
        Manifest.parse pkg.manifest = .ok manifest)
      ∧ ∀ m ∈ (input.modules (tr.meanwhile s).storage).filter (·.isSource),
        Unmistaken (tr.meanwhile s).storage input m.dotted →
        manifest.modules.find? m.dotted = some (Plan.kept
          (· ∈ ((input.modules (tr.meanwhile s).storage).filter (·.isSource)).map (·.dotted))
          (plan.deps.find? m.dotted)) := by
  obtain ⟨plan', as, hc⟩ := run_completed rfl rfl hrun hphase
  obtain rfl : plan' = plan := Except.ok.inj (hc.planned.symm.trans hplan)
  obtain ⟨manifest, file, hmanifest, htext⟩ := package_ok hc.output hc.alike.legacy hpackage
  have hresolve : t'.resolve = Plan.ofSources := hc.alike.resolve
  rw [hresolve] at hmanifest
  refine ⟨manifest, file, htext, fun hdescribe => ?_, fun m hm hclear => ?_⟩
  · rw [htext, hdescribe]
    exact Manifest.parse_layout_text _ _
  · exact hc.find?_manifest rfl hinput hroot rfl hundisturbed hmanifest hm hclear

end Output

end Task

/-- What a compiler that finds no fault answers to a command. -/
def Command.faultless? : Command → Option Reply
  | .load path => some (.loaded path)
  | .compile path => some (.compiled path)
  | .get path => some (.got path .empty)
  | .loadPackages _ => some .packagesLoaded
  | .init _ | .put _ _ => none

/-- The transport to a compiler that answers at once and finds no fault. -/
def Transport.faultless : Transport (List Reply) where
  send c s := ({ s with remote := s.remote ++ c.faultless?.toList }, .ok ())
  receive s :=
    match s.remote with
    | [] => (s, .error .stalled)
    | r :: rest => ({ s with remote := rest }, .ok r)
  pending s := s.remote.length
  pending_lt {s s' r} h := by
    rcases hs : s.remote with _ | ⟨x, rest⟩ <;>
      simp only [hs, Prod.mk.injEq, reduceCtorEq, and_false] at h
    simp [← h.1]

theorem Transport.leavesFiles_faultless : faultless.LeavesFiles where
  send _ _ := rfl
  receive s := by
    rcases hs : s.remote with _ | ⟨x, rest⟩ <;> simp only [faultless, hs]
  meanwhile _ := rfl

namespace Task

open Transport (faultless leavesFiles_faultless)

def mixedVolume : Volume := ⟨0, .memory 0⟩

def mixedOutput : Volume := ⟨1, .memory 1⟩

def mixedSite : Site (List Reply) where
  remote := []
  storage := ⟨[.ofList [("/src/A.v", .empty), ("/src/B.v", "Require A C.".toUTF8),
    ("/src/C.vo", .empty)], .empty], [], default, 2⟩
  stopped := false

/-- A project of two sources and a file that is compiled already. -/
def mixedProject : Project where
  name := "p"
  volume := mixedVolume
  search := ⟨mixedVolume, [⟨mixedVolume, [], "/src", some "p"⟩], none, none⟩
  deps := []
  listed := none

def mixedPlan : Plan where
  order := [⟨some mixedVolume, ["C"], "/src/C.vo", some "p"⟩,
    ⟨some mixedVolume, ["A"], "/src/A.v", some "p"⟩,
    ⟨some mixedVolume, ["B"], "/src/B.v", some "p"⟩]
  external := .empty
  deps := .ofList [("B", ["A", "C"])]

def mixedTask : Task := .new mixedProject "/lib" false mixedOutput false

def mixedRun : Task × Site (List Reply) × Except Halt Project :=
  mixedTask.run faultless none mixedSite

def mixedResult : Project where
  name := "p"
  volume := mixedOutput
  search := ⟨mixedOutput, [⟨mixedOutput, [], "/lib", none⟩], none, none⟩
  deps := []
  listed := some [⟨some mixedVolume, ["A"], "/src/A.v", some "p"⟩,
    ⟨some mixedVolume, ["B"], "/src/B.v", some "p"⟩,
    ⟨some mixedOutput, ["A"], "/lib/A.vo", some "p"⟩,
    ⟨some mixedOutput, ["B"], "/lib/B.vo", some "p"⟩]

def mixedManifest : Manifest where
  name := "p"
  deps := []
  modules := .ofList [("A", none), ("B", some ["A"])]
  archive := none

theorem mixedRun_eq :
    mixedTask.run faultless none mixedSite = (mixedRun.1, mixedRun.2.1, .ok mixedResult) := by
  have hresult : mixedRun.2.2 = .ok mixedResult := by decide +kernel
  rw [← hresult]
  rfl

theorem mixedRun_phase : mixedRun.1.phase = .completed := by decide +kernel

theorem mixedProject_plan :
    mixedProject.plan Plan.ofSources mixedSite.storage = .ok mixedPlan := by decide +kernel

theorem exists_of_isOk {ε α : Type} {x : Except ε α} (h : x.isOk = true) : ∃ a, x = .ok a := by
  rcases x with e | a
  · cases h
  · exact ⟨a, rfl⟩

theorem mixedRun_package :
    ∃ pkg, mixedRun.1.package mixedRun.2.1.storage .standard .standard = .ok pkg := by
  have hok : (mixedRun.1.package mixedRun.2.1.storage .standard .standard).isOk = true := by
    decide +kernel
  exact exists_of_isOk hok

theorem package_deps_mixed :
    mixedTask.run faultless none mixedSite = (mixedRun.1, mixedRun.2.1, .ok mixedResult)
      ∧ mixedRun.1.phase = .completed
      ∧ mixedProject.plan Plan.ofSources mixedSite.storage = .ok mixedPlan
      ∧ mixedProject.Regular mixedSite.storage
      ∧ Path.join ["/lib"] = "/lib"
      ∧ Undisturbed faultless mixedTask mixedSite mixedRun.2.1
        ((mixedProject.modules mixedSite.storage).filter (·.isSource))
      ∧ ∃ pkg, mixedRun.1.package mixedRun.2.1.storage .standard .standard = .ok pkg
        ∧ ∃ manifest, Manifest.parse pkg.manifest = .ok manifest
          ∧ Unmistaken mixedSite.storage mixedProject "B"
          ∧ manifest.modules.find? "B" =
            some (Plan.kept (· ∈ ["A", "B"]) (mixedPlan.deps.find? "B")) := by
  have hinput : mixedProject.Regular mixedSite.storage := by
    refine ⟨⟨?_, ?_, ?_⟩, ?_⟩
    · decide +kernel
    · rintro p ⟨⟩
    · rintro i ⟨⟩
    · decide +kernel
  have hundisturbed : Undisturbed faultless mixedTask mixedSite mixedRun.2.1
      ((mixedProject.modules mixedSite.storage).filter (·.isSource)) := by
    have hmedium : mixedTask.volume.medium = .memory 1 := rfl
    refine .alone rfl hmedium (by decide) rfl ?_ leavesFiles_faultless
    decide +kernel
  have hclear : Unmistaken mixedSite.storage mixedProject "B" := by decide +kernel
  have hB : ⟨some mixedVolume, ["B"], "/src/B.v", some "p"⟩ ∈
      (mixedProject.modules mixedSite.storage).filter (·.isSource) := by decide +kernel
  have hnames : ((mixedProject.modules mixedSite.storage).filter (·.isSource)).map (·.dotted) =
      ["A", "B"] := by decide +kernel
  have hroot : Path.join ["/lib"] = "/lib" := by decide +kernel
  obtain ⟨pkg, hpackage⟩ := mixedRun_package
  obtain ⟨manifest, file, -, hparse, hdeps⟩ :=
    package_deps mixedRun_eq mixedRun_phase mixedProject_plan hinput hroot hundisturbed hpackage
  refine ⟨mixedRun_eq, mixedRun_phase, mixedProject_plan, hinput, hroot, hundisturbed, pkg,
    hpackage, manifest, hparse rfl, hclear, ?_⟩
  have hfind := hdeps _ hB hclear
  have hstill : faultless.meanwhile mixedSite = mixedSite := rfl
  rw [hstill, hnames] at hfind
  exact hfind

/-- What is compiled already is in the plan of a run, and not in the manifest of its output. -/
theorem package_deps_precompiled :
    mixedTask.run faultless none mixedSite = (mixedRun.1, mixedRun.2.1, .ok mixedResult)
      ∧ mixedRun.1.phase = .completed
      ∧ mixedProject.plan Plan.ofSources mixedSite.storage = .ok mixedPlan
      ∧ mixedPlan.deps.find? "B" = some ["A", "C"]
      ∧ ∃ pkg, mixedRun.1.package mixedRun.2.1.storage .standard .standard = .ok pkg
        ∧ ∃ manifest, Manifest.parse pkg.manifest = .ok manifest
          ∧ manifest.modules.find? "B" = some (some ["A"]) := by
  have hmanifest : mixedResult.manifest Plan.ofSources mixedRun.2.1.storage =
      .ok mixedManifest := by decide +kernel
  obtain ⟨pkg, hpackage⟩ := mixedRun_package
  obtain ⟨plan, as, hc⟩ := run_completed rfl rfl mixedRun_eq mixedRun_phase
  obtain ⟨manifest, file, hm, htext⟩ := package_ok hc.output hc.alike.legacy hpackage
  have hresolve : mixedRun.1.resolve = Plan.ofSources := hc.alike.resolve
  rw [hresolve] at hm
  obtain rfl := Except.ok.inj (hmanifest.symm.trans hm)
  have hparse : Manifest.parse pkg.manifest = .ok mixedManifest := by
    rw [htext]
    exact Manifest.parse_layout_text _ _
  exact ⟨mixedRun_eq, mixedRun_phase, mixedProject_plan, rfl, pkg, hpackage, mixedManifest, hparse,
    rfl⟩

end Task

end Bindery
