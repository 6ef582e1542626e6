import Bindery.Proofs.OutputManifest
import Bindery.Proofs.SearchAnswers

/-!
# External packages of plans

A requirement that no module of the project answers means one of the external modules that answer
it, and this one is recorded. Its packages are external packages of the plan, and so are those of
the other external modules that answer the requirement, if it is looked up in part. There are no
others: `ofSources_external`.
-/

namespace Bindery

namespace SearchPath

variable {st : Storage} {s : SearchPath} {front back : Logical} {exact : Bool} {package : String}

/-- Whether a package provides a module. -/
def ProvidedBy (s : SearchPath) (package : String) (name : Logical) : Prop :=
  ∃ p ∈ s.packages, ∃ e ∈ p.modules.entries, e.1 = package ∧ name ∈ e.2

theorem provides_iff {name : Logical} : s.Provides name ↔ ∃ package, s.ProvidedBy package name := by
  constructor
  · rintro ⟨p, hp, e, he, hname⟩
    exact ⟨e.1, p, hp, e, he, rfl, hname⟩
  · rintro ⟨-, p, hp, e, he, -, hname⟩
    exact ⟨p, hp, e, he, hname⟩

/-- The packages that provide the external modules answering a query. -/
def providers (s : SearchPath) (front back : Logical) (exact : Bool) : NameSet :=
  (s.packages.map (·.providers front back exact)).getD .empty

theorem mem_providers : package ∈ (s.providers front back exact).toList ↔
    ∃ name, name.answers front back exact = true ∧ s.ProvidedBy package name := by
  unfold providers ProvidedBy
  rcases s.packages with _ | p
  · simp [NameSet.empty]
  · simp only [Option.map_some, Option.getD_some, Packages.providers, NameSet.mem_toList_ofList,
      List.mem_map, Packages.mem_answering, Option.mem_some_iff, exists_eq_left']
    constructor
    · rintro ⟨a, ⟨hprovided, ha⟩, rfl⟩
      exact ⟨a.2, ha, hprovided⟩
    · rintro ⟨name, ha, hprovided⟩
      exact ⟨(package, name), ⟨hprovided, ha⟩, rfl⟩

/-- External answers are modules that some package provides. -/
theorem Sound.external_answer (hs : s.Sound) {a : Record} (ha : a ∈ s.find st front back exact)
    (he : a.isExternal = true) :
    s.Provides a.logical ∧ a.logical.answers front back exact = true := by
  rcases mem_find ha with hlocal | hexternal
  · have hknown : a ∈ s.known st := by
      cases exact with
      | false => exact (List.mem_filter.1 (findLocal_partial ▸ hlocal)).1
      | true => exact (mem_findLocal_exact hlocal).1
    rw [(hs.known hknown).1] at he
    cases he
  · obtain ⟨name, hname, hanswers, rfl⟩ := mem_findExternal.1 hexternal
    exact ⟨hname, hanswers⟩

end SearchPath

namespace Plan

variable {st : Storage} {s : SearchPath} {modules : List Record} {plan : Plan} {m a : Record}
  {r : Requirement} {package : String}

/-- A listed source has a requirement that means an external module. -/
structure Chooses (st : Storage) (s : SearchPath) (modules : List Record) (m : Record)
    (r : Requirement) (a : Record) : Prop where
  listed : m ∈ modules
  source : m.isSource = true
  required : r ∈ Requirement.parse (sourceText st m)
  nearest : nearest? m ((answers st s r).1.filter (·.logical ≠ m.logical)) = some a
  external : a.isExternal = true

/-- A plan records that a module requires another. -/
def Records (plan : Plan) (m a : Record) : Prop :=
  ∃ deps, plan.deps.find? m.dotted = some deps ∧ a.dotted ∈ deps

/-- A package provides an external module that some requirement means and the plan records. -/
def Needs (st : Storage) (s : SearchPath) (modules : List Record) (plan : Plan)
    (package : String) : Prop :=
  ∃ m r a, Chooses st s modules m r a ∧ plan.Records m a ∧ s.ProvidedBy package a.logical

/-- A package provides a module that answers a requirement in part, but the requirement means
another external module. -/
def Spares (st : Storage) (s : SearchPath) (modules : List Record) (package : String) : Prop :=
  ∃ m r a name, Chooses st s modules m r a ∧ (answers st s r).2 = false ∧ name ≠ a.logical
    ∧ name.answers r.origin r.name false = true ∧ s.ProvidedBy package name

theorem answers_fst (r : Requirement) :
    (answers st s r).1 = s.find st r.origin r.name (answers st s r).2 := by
  unfold answers
  by_cases horigin : r.origin = []
  · simp [horigin]
  · by_cases hfound : s.find st r.origin r.name true = [] <;> simp [horigin, hfound]

theorem Chooses.answers (hs : s.Sound) (h : Chooses st s modules m r a) :
    s.Provides a.logical
      ∧ a.logical.answers r.origin r.name (Plan.answers st s r).2 = true := by
  have ha := (List.mem_filter.1 (mem_of_nearest? h.nearest)).1
  rw [answers_fst] at ha
  exact hs.external_answer ha h.external

theorem Chooses.hasVolume (h : Chooses st s modules m r a) : m.volume.isSome = true := by
  have hr := h.required
  unfold sourceText at hr
  rcases hv : m.volume with _ | v
  · rw [hv] at hr
    cases hr
  · rfl

theorem Chooses.target (h : Chooses st s modules m r a) : target? st s m r =
    some (.external a.dotted (s.providers r.origin r.name (Plan.answers st s r).2)) := by
  simp only [target?, h.nearest, Option.map_some, if_pos h.external]
  rfl

/-- What is required of external packages comes from external modules that are meant. -/
theorem exists_external {t : Target} (ht : t ∈ targets st s m (sourceText st m))
    (hp : package ∈ t.packages) (hm : m ∈ modules) (hsource : m.isSource = true) :
    ∃ r a, Chooses st s modules m r a ∧ target? st s m r = some t := by
  obtain ⟨r, hr, htarget⟩ := List.mem_filterMap.1 ht
  have hchosen := htarget
  simp only [target?, Option.map_eq_some_iff] at hchosen
  obtain ⟨a, ha, hta⟩ := hchosen
  refine ⟨r, a, ⟨hm, hsource, hr, ha, ?_⟩, htarget⟩
  by_contra hlocal
  rw [if_neg hlocal] at hta
  rw [← hta] at hp
  cases hp

theorem mem_external (h : ofSources st s modules = .ok plan) :
    package ∈ plan.external ↔ ∃ m r a, Chooses st s modules m r a
      ∧ ∃ name, name.answers r.origin r.name (answers st s r).2 = true
        ∧ s.ProvidedBy package name := by
  obtain ⟨required, hmade⟩ := ofSources_inv h
  have hmem : package ∈ plan.external ↔ ∃ m, (m ∈ modules ∧ m.isSource = true
      ∧ m.volume.isSome = true) ∧ ∃ t ∈ targets st s m (sourceText st m), package ∈ t.packages := by
    show package ∈ plan.external.toList ↔ _
    rw [hmade.external, NameSet.mem_toList_ofList, requirements_eq hmade.requirements]
    simp [List.mem_flatMap]
  rw [hmem]
  constructor
  · rintro ⟨m, ⟨hm, hsource, -⟩, t, ht, hp⟩
    obtain ⟨r, a, hchosen, htarget⟩ := exists_external ht hp hm hsource
    cases hchosen.target.symm.trans htarget
    exact ⟨m, r, a, hchosen, SearchPath.mem_providers.1 hp⟩
  · rintro ⟨m, r, a, hchosen, hname⟩
    exact ⟨m, ⟨hchosen.listed, hchosen.source, hchosen.hasVolume⟩, _,
      List.mem_filterMap.2 ⟨r, hchosen.required, hchosen.target⟩, SearchPath.mem_providers.2 hname⟩

theorem mem_addNames {n : String} : ∀ {more names : List String},
    n ∈ addNames names more ↔ n ∈ names ∨ n ∈ more
  | [], names => by simp [addNames]
  | x :: r, names => by
    show n ∈ addNames (if x ∈ names then names else names ++ [x]) r ↔ _
    rw [mem_addNames]
    split_ifs with hx
    · rw [List.mem_cons, ← or_assoc]
      have hin : n ∈ names ∨ n = x ↔ n ∈ names := or_iff_left_of_imp fun he => he ▸ hx
      rw [hin]
    · simp [or_assoc]

theorem Chooses.recorded (h : ofSources st s modules = .ok plan)
    (hc : Chooses st s modules m r a) : plan.Records m a := by
  have hname : a.dotted ∈ (modules.filter fun x =>
      x.isSource && x.volume.isSome && x.dotted = m.dotted).flatMap (targetNames st s) := by
    refine List.mem_flatMap.2 ⟨m, List.mem_filter.2 ⟨hc.listed, ?_⟩, ?_⟩
    · simp [hc.source, hc.hasVolume]
    · exact List.mem_map.2 ⟨_, List.mem_filterMap.2 ⟨r, hc.required, hc.target⟩, rfl⟩
  have hdeps := find?_deps h m.dotted
  rw [noted, if_neg (List.ne_nil_of_mem hname)] at hdeps
  exact ⟨_, hdeps, mem_addNames.2 (.inr hname)⟩

/-- The external packages of a plan provide the external modules that requirements mean, or other
external modules that answer them in part. All that are meant are recorded and provided. -/
theorem ofSources_external {seen : Storage → Prop} (hs : s.Reached seen)
    (h : ofSources st s modules = .ok plan) :
    (∀ package, package ∈ plan.external ↔
        Needs st s modules plan package ∨ Spares st s modules package)
      ∧ ∀ m r a, Chooses st s modules m r a → plan.Records m a
        ∧ ∃ package ∈ plan.external, s.ProvidedBy package a.logical := by
  refine ⟨fun package => ?_, fun m r a hc => ⟨hc.recorded h, ?_⟩⟩
  · rw [mem_external h]
    constructor
    · rintro ⟨m, r, a, hc, name, hname, hby⟩
      by_cases heq : name = a.logical
      · exact .inl ⟨m, r, a, hc, hc.recorded h, heq ▸ hby⟩
      · rcases hexact : (answers st s r).2 with _ | _
        · exact .inr ⟨m, r, a, name, hc, hexact, heq, hexact ▸ hname, hby⟩
        · -- Exact answers are all of one name.
          have ha := (hc.answers hs.sound).2
          rw [hexact, SearchPath.answers_exact] at ha hname
          exact absurd (hname.trans ha.symm) heq
    · rintro (⟨m, r, a, hc, -, hby⟩ | ⟨m, r, a, name, hc, hexact, -, hname, hby⟩)
      · exact ⟨m, r, a, hc, a.logical, (hc.answers hs.sound).2, hby⟩
      · exact ⟨m, r, a, hc, name, hexact ▸ hname, hby⟩
  · obtain ⟨hprovided, hanswers⟩ := hc.answers hs.sound
    obtain ⟨package, hby⟩ := SearchPath.provides_iff.1 hprovided
    exact ⟨package, (mem_external h).2 ⟨m, r, a, hc, a.logical, hanswers, hby⟩, hby⟩

/-- Two packages with modules that one requirement can mean. -/
def listsPath : SearchPath :=
  { pairPath with
    packages := some ((Packages.empty.add "pa" ["X.List"]).add "pb" ["Y.List"]) }

def listsPlan : Plan :=
  ⟨pairModules.reverse, .ofList ["pa", "pb"], .ofList [("A", ["X.List"])]⟩

theorem reached_listsPath (seen : Storage → Prop) : listsPath.Reached seen :=
  .provide (.add _ _ (.add _ _ .empty)) (.add _ (.new _))

theorem ofSources_external_lists :
    listsPath.Reached (· = pairStorage "Require List." "")
      ∧ ofSources (pairStorage "Require List." "") listsPath pairModules = .ok listsPlan
      ∧ (Needs (pairStorage "Require List." "") listsPath pairModules listsPlan "pb"
        ∨ Spares (pairStorage "Require List." "") listsPath pairModules "pb")
      ∧ ∀ m r a, Chooses (pairStorage "Require List." "") listsPath pairModules m r a →
        listsPlan.Records m a ∧ ∃ package ∈ listsPlan.external,
          listsPath.ProvidedBy package a.logical := by
  have hs := reached_listsPath (· = pairStorage "Require List." "")
  have h : ofSources (pairStorage "Require List." "") listsPath pairModules = .ok listsPlan := rfl
  obtain ⟨hexternal, hchosen⟩ := ofSources_external hs h
  have hpb : "pb" ∈ listsPlan.external.toList := by decide
  exact ⟨hs, h, (hexternal "pb").1 hpb, hchosen⟩

/-- The second package is loaded though the requirement means the module of the first. -/
theorem ofSources_external_spare :
    listsPath.Reached (· = pairStorage "Require List." "")
      ∧ ofSources (pairStorage "Require List." "") listsPath pairModules = .ok listsPlan
      ∧ "pb" ∈ listsPlan.external
      ∧ ¬ Needs (pairStorage "Require List." "") listsPath pairModules listsPlan "pb" := by
  have hpb : "pb" ∈ listsPlan.external.toList := by decide
  refine ⟨reached_listsPath _, rfl, hpb, ?_⟩
  rintro ⟨m, r, a, -, ⟨deps, hdeps, hmem⟩, p, hp, e, he, hname, hprovides⟩
  have hdotted : a.dotted = "X.List" := by
    obtain ⟨e, hfound, rfl⟩ := Option.map_eq_some_iff.1 hdeps
    obtain rfl := List.mem_singleton.1 (List.mem_of_find?_eq_some hfound)
    exact List.mem_singleton.1 hmem
  have hlogical : a.logical = ["Y", "List"] := by
    cases hp
    have hentries : ((Packages.empty.add "pa" ["X.List"]).add "pb" ["Y.List"]).modules.entries =
        [("pa", [["X", "List"]]), ("pb", [["Y", "List"]])] := by
      decide
    rw [hentries] at he
    simp only [List.mem_cons, List.not_mem_nil, or_false] at he
    rcases he with rfl | rfl
    · exact absurd hname (by decide)
    · exact List.mem_singleton.1 hprovides
  rw [Record.dotted, hlogical] at hdotted
  exact absurd hdotted (by decide)

end Plan

end Bindery
