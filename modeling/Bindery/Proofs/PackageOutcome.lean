import Bindery.Proofs.ManifestName
import Bindery.Proofs.PackageRoundTrip
import Bindery.Proofs.PlanOrder

/-!
# When there is a package

Nothing that an archive lacks prevents a package: parts that cannot be read change no member of it
and are skipped. The manifest is planned from the sources, though, so each source that a volume
lists must be readable, whether it is to be packaged or not: `package_outcome`.
-/

namespace Bindery

namespace Plan

variable {st : Storage} {s : SearchPath} {modules : List Record}

/-- Whether the sources can be read; one of no volume is not looked at. -/
def Reads (st : Storage) (modules : List Record) : Prop :=
  ∀ m ∈ modules, m.isSource = true → ∀ v, m.volume = some v →
    ∃ content, st.read v m.physical = .ok content

theorem reads_of_requirements : ∀ {modules : List Record} {required : List (Record × List Target)},
    requirements st s modules = .ok required → Reads st modules
  | [], _, _ => by
    simp [Reads]
  | x :: r, required, h => by
    have hcons : Reads st r → (x.isSource = true → ∀ v, x.volume = some v →
        ∃ content, st.read v x.physical = .ok content) → Reads st (x :: r) :=
      fun hr hx => List.forall_mem_cons.2 ⟨hx, hr⟩
    simp only [requirements] at h
    split at h
    · rename_i v hv
      split at h
      · rcases hread : st.read v x.physical with e | content
        · rw [Storage.readText, hread] at h
          cases h
        · rcases hrest : requirements st s r with e | rest
          · rw [Storage.readText, hread, hrest] at h
            cases h
          · refine hcons (reads_of_requirements hrest) fun _ w hw => ?_
            cases hv.symm.trans hw
            exact ⟨content, hread⟩
      · rename_i hsource
        exact hcons (reads_of_requirements h) fun hx => absurd hx hsource
    · rename_i hv
      refine hcons (reads_of_requirements h) fun _ w hw => ?_
      rw [hv] at hw
      cases hw

theorem exists_ofSources_iff : (∃ plan, ofSources st s modules = .ok plan) ↔
    Reads st modules ∧ ¬ ∃ n, Relation.TransGen (Requires st s modules) n n := by
  constructor
  · rintro ⟨plan, h⟩
    obtain ⟨required, hmade⟩ := ofSources_inv h
    rw [← edge_eq_requires hmade.requirements]
    exact ⟨reads_of_requirements hmade.requirements, not_exists.2 hmade.acyclic⟩
  · rintro ⟨hreads, hacyclic⟩
    obtain ⟨required, hr⟩ := exists_requirements (s := s) hreads
    rw [← edge_eq_requires hr] at hacyclic
    have ho := (orderOf_ok_iff modules (graph_closed hr)).2 ⟨hacyclic, rfl⟩
    rw [ofSources_eq hr, ho]
    exact ⟨_, rfl⟩

end Plan

/-- What a part gives an archive; none if it has no place there or cannot be read. -/
def Part.member? (st : Storage) (p : Part) : Option Zip.NewMember :=
  p.name?.bind fun name => (p.content st).toOption.map fun content => ⟨name, content⟩

theorem Part.member?_inv {st : Storage} {p : Part} {m : Zip.NewMember}
    (h : p.member? st = some m) : p.name? = some m.name ∧ p.content st = .ok m.content := by
  obtain ⟨name, hname, hcontent⟩ := Option.bind_eq_some_iff.1 h
  obtain ⟨content, hok, rfl⟩ := Option.map_eq_some_iff.1 hcontent
  rcases hread : p.content st with e | bytes
  · rw [hread] at hok
    cases hok
  · rw [hread] at hok
    cases hok
    exact ⟨hname, rfl⟩

namespace Contents

variable {st : Storage}

theorem add_of_member {p : Part} {m : Zip.NewMember} (h : p.member? st = some m) (c : Contents) :
    c.add st p = if m.name ∈ c.names then c else { c with members := c.members ++ [m] } := by
  obtain ⟨hname, hread⟩ := Part.member?_inv h
  simp only [add, hname, hread]

theorem add_of_no_member {p : Part} (h : p.member? st = none) (c : Contents) :
    (c.add st p = c ∧ ∃ name ∈ c.names, p.name? = some name) ∨ c.add st p = c.skip p := by
  unfold add
  split
  · exact .inr rfl
  · rename_i name hname
    split_ifs with hin
    · exact .inl ⟨rfl, name, hin, hname⟩
    · split
      · rename_i content hread
        rw [Part.member?, hname, hread] at h
        cases h
      · exact .inr rfl

theorem members_add_of_no_member {p : Part} (h : p.member? st = none) (c : Contents) :
    (c.add st p).members = c.members := by
  rcases add_of_no_member h c with ⟨hc, -⟩ | hc <;> rw [hc]
  rfl

theorem members_add_congr {c c' : Contents} (h : c.members = c'.members) (p : Part) :
    (c.add st p).members = (c'.add st p).members := by
  rcases hp : p.member? st with _ | m
  · rw [members_add_of_no_member hp, members_add_of_no_member hp, h]
  · rw [add_of_member hp, add_of_member hp, names, names, h]
    split_ifs
    · exact h
    · rfl

/-- Parts that an archive cannot hold make no difference to its members. -/
theorem members_foldl_add : ∀ (parts : List Part) {c c' : Contents}, c.members = c'.members →
    (parts.foldl (·.add st ·) c).members =
      ((parts.filter fun p => (p.member? st).isSome).foldl (·.add st ·) c').members
  | [], _, _, h => h
  | p :: r, c, c', h => by
    rcases hp : p.member? st with _ | m
    · rw [List.foldl_cons, List.filter_cons_of_neg (by simp [hp])]
      exact members_foldl_add r ((members_add_of_no_member hp c).trans h)
    · rw [List.foldl_cons, List.filter_cons_of_pos (by simp [hp]), List.foldl_cons]
      exact members_foldl_add r (members_add_congr h p)

theorem skipped_foldl_add : ∀ {parts : List Part} (c : Contents),
    (∀ p ∈ parts, (p.member? st).isSome = true) →
    (parts.foldl (·.add st ·) c).skipped = c.skipped
  | [], _, _ => rfl
  | p :: r, c, h => by
    obtain ⟨hp, hr⟩ := List.forall_mem_cons.1 h
    obtain ⟨m, hm⟩ := Option.isSome_iff_exists.1 hp
    rw [List.foldl_cons, skipped_foldl_add _ hr, add_of_member hm]
    split_ifs <;> rfl

/-- What adding parts does with those that an archive cannot hold. -/
structure Skips (st : Storage) (parts : List Part) (c c' : Contents) : Prop where
  names : c.names ⊆ c'.names
  skipped : ∃ more, c'.skipped = c.skipped ++ more
    ∧ more.Sublist ((parts.filter fun p => (p.member? st).isNone).map (·.record.physical))
  told : ∀ p ∈ parts, p.member? st = none →
    p.record.physical ∈ c'.skipped ∨ ∃ name ∈ c'.names, p.name? = some name

theorem Skips.refl (c : Contents) : Skips st [] c c :=
  ⟨List.Subset.refl _, ⟨[], by simp⟩, by simp⟩

theorem Skips.cons {c c₁ c₂ : Contents} {p : Part} {parts : List Part}
    (h₁ : Skips st [p] c c₁) (h₂ : Skips st parts c₁ c₂) : Skips st (p :: parts) c c₂ := by
  obtain ⟨more₁, hs₁, hsub₁⟩ := h₁.skipped
  obtain ⟨more₂, hs₂, hsub₂⟩ := h₂.skipped
  refine ⟨List.Subset.trans h₁.names h₂.names, ⟨more₁ ++ more₂, ?_, ?_⟩, ?_⟩
  · rw [hs₂, hs₁, List.append_assoc]
  · have happend := hsub₁.append hsub₂
    rwa [← List.map_append, ← List.filter_append] at happend
  · intro x hx hnone
    rcases List.mem_cons.1 hx with rfl | hx
    · rcases h₁.told x (by simp) hnone with hin | ⟨name, hin, hname⟩
      · exact .inl (hs₂ ▸ List.mem_append_left _ hin)
      · exact .inr ⟨name, h₂.names hin, hname⟩
    · exact h₂.told x hx hnone

theorem skips_add (c : Contents) (p : Part) : Skips st [p] c (c.add st p) := by
  rcases hp : p.member? st with _ | m
  · have hnames : (c.add st p).names = c.names := by
      rw [names, members_add_of_no_member hp, names]
    refine ⟨hnames ▸ List.Subset.refl _, ?_, ?_⟩
    · rcases add_of_no_member hp c with ⟨hc, -⟩ | hc
      · exact ⟨[], by simp [hc]⟩
      · exact ⟨[p.record.physical], by simp [hc, skip, hp]⟩
    · intro x hx _
      obtain rfl := List.mem_singleton.1 hx
      rcases add_of_no_member hp c with ⟨-, name, hin, hname⟩ | hc
      · exact .inr ⟨name, hnames ▸ hin, hname⟩
      · exact .inl (by simp [hc, skip])
  · rw [add_of_member hp]
    refine ⟨?_, ⟨[], ?_⟩, ?_⟩
    · split_ifs
      · exact List.Subset.refl _
      · rw [names, names, List.map_append]
        exact List.subset_append_left _ _
    · split_ifs <;> simp
    · intro x hx hnone
      rw [List.mem_singleton.1 hx, hp] at hnone
      cases hnone

theorem skips_foldl_add : ∀ (parts : List Part) (c : Contents),
    Skips st parts c (parts.foldl (·.add st ·) c)
  | [], c => .refl c
  | p :: r, c => (skips_add c p).cons (skips_foldl_add r (c.add st p))

end Contents

namespace Project

variable {st : Storage} {p : Project} {s : Selection} {style : Style}

/-- The parts that are to be packaged. -/
def packaged (st : Storage) (p : Project) (s : Selection) : List Part :=
  (p.modulesWith st s.extensions).flatMap s.parts

/-- A manifest and those parts that an archive can hold. -/
def held (st : Storage) (p : Project) (s : Selection) (manifest : String) : Contents :=
  ((p.packaged st s).filter fun x => (x.member? st).isSome).foldl (·.add st ·)
    ⟨[⟨Manifest.entryName, manifest.toUTF8⟩], []⟩

theorem exists_package_iff :
    (∃ pkg, p.package Plan.ofSources st s style = .ok pkg) ↔
      (∃ file, FileName.manifest (FileName.package (s.file.getD p.name)) = .ok file)
        ∧ Plan.Reads st (p.modules st)
        ∧ (¬ ∃ n, Relation.TransGen (Plan.Requires st p.search (p.modules st)) n n)
        ∧ style.time.IsValid := by
  constructor
  · rintro ⟨pkg, h⟩
    obtain ⟨m, stamp, hmanifest, hstamp, -⟩ := package_inv h
    obtain ⟨plan, hplan, -⟩ := exists_plan hmanifest
    obtain ⟨hreads, hacyclic⟩ := Plan.exists_ofSources_iff.1 ⟨plan, hplan⟩
    refine ⟨?_, hreads, hacyclic, ?_⟩
    · rcases hfile : FileName.manifest (FileName.package (s.file.getD p.name)) with err | file
      · simp only [package, hfile, bind, Except.bind, reduceCtorEq] at h
      · exact ⟨file, rfl⟩
    · unfold Style.stamp at hstamp
      split_ifs at hstamp with htime
      exact htime
  · rintro ⟨⟨file, hfile⟩, hreads, hacyclic, htime⟩
    obtain ⟨plan, hplan⟩ := Plan.exists_ofSources_iff.2 ⟨hreads, hacyclic⟩
    have hmanifest : p.manifest Plan.ofSources st = .ok (p.manifestOf st plan) := by
      rw [manifest, Project.plan, hplan]
      rfl
    simp only [package, hfile, hmanifest, Style.stamp, if_pos htime, bind, Except.bind, pure,
      Except.pure]
    exact ⟨_, rfl⟩

/-- There is a package unless a listed source cannot be read, the sources that can be read require
one another in a cycle, or the name or the time is not valid. It holds what can be read, and other
files have no effect on it. -/
theorem package_outcome (st : Storage) (p : Project) (s : Selection) (style : Style) :
    ((∃ pkg, p.package Plan.ofSources st s style = .ok pkg) ↔
      (∃ file, FileName.manifest (FileName.package (s.file.getD p.name)) = .ok file)
        ∧ Plan.Reads st (p.modules st)
        ∧ (¬ ∃ n, Relation.TransGen (Plan.Requires st p.search (p.modules st)) n n)
        ∧ style.time.IsValid)
      ∧ ∀ pkg, p.package Plan.ofSources st s style = .ok pkg →
        (p.held st s pkg.manifest).skipped = []
          ∧ (∃ stamp, style.stamp = .ok stamp
            ∧ pkg.archive = Zip.write stamp (p.held st s pkg.manifest).members)
          ∧ (∀ x ∈ p.packaged st s, ∀ m, x.member? st = some m →
            m.name ∈ (p.held st s pkg.manifest).names)
          ∧ pkg.skipped.Sublist (((p.packaged st s).filter fun x => (x.member? st).isNone).map
            (·.record.physical))
          ∧ ∀ x ∈ p.packaged st s, x.member? st = none → x.record.physical ∈ pkg.skipped
            ∨ ∃ name ∈ (p.held st s pkg.manifest).names, x.name? = some name := by
  refine ⟨exists_package_iff, fun pkg h => ?_⟩
  obtain ⟨m, stamp, -, hstamp, -, harchive, hskipped⟩ := package_inv h
  let start : Contents := ⟨[⟨Manifest.entryName, pkg.manifest.toUTF8⟩], []⟩
  have hcontents : p.contents st (some pkg.manifest) s.extensions s.parts =
      (p.packaged st s).foldl (·.add st ·) start := rfl
  have hmembers : ((p.packaged st s).foldl (·.add st ·) start).members =
      (p.held st s pkg.manifest).members := Contents.members_foldl_add _ rfl
  have hskips : Contents.Skips st (p.packaged st s) start _ :=
    Contents.skips_foldl_add (p.packaged st s) start
  rw [hcontents] at harchive hskipped
  have hheld : (p.held st s pkg.manifest).skipped = [] :=
    Contents.skipped_foldl_add start fun x hx => (List.mem_filter.1 hx).2
  refine ⟨hheld, ⟨stamp, hstamp, by rw [harchive, hmembers]⟩, fun x hx m hm => ?_, ?_,
    fun x hx hnone => ?_⟩
  · obtain ⟨-, hholds⟩ := Contents.holds_foldl_add hheld
    obtain ⟨name, hin, hname⟩ := hholds.named x (List.mem_filter.2 ⟨hx, by rw [hm]; rfl⟩)
    cases hname.symm.trans (Part.member?_inv hm).1
    exact hin
  · obtain ⟨more, hmore, hsub⟩ := hskips.skipped
    rw [hskipped, hmore, List.nil_append]
    exact hsub
  · have htold := hskips.told x hx hnone
    rwa [← hskipped, Contents.names, hmembers, ← Contents.names] at htold

open Plan (pairStorage pairVolume)

/-- A project of which only the source `A` can be read. -/
def gapProject (file : String) : Project :=
  (new "p" pairVolume).list [⟨some pairVolume, ["A"], "/A.v", some "p"⟩,
    ⟨some pairVolume, ["C"], file, some "p"⟩, ⟨none, ["D"], "/D.v", some "p"⟩]

def gapSelection : Selection := { Selection.standard with extensions := [".v", ".vo"] }

theorem modules_gap (st : Storage) (file : String) : (gapProject file).modules st =
    [⟨some pairVolume, ["A"], "/A.v", some "p"⟩, ⟨some pairVolume, ["C"], file, some "p"⟩,
      ⟨none, ["D"], "/D.v", some "p"⟩] := rfl

theorem acyclic_gap {file : String} (h : (pairStorage "" "").readText pairVolume file =
      .error (.notFound file)) :
    ¬ ∃ n, Relation.TransGen (Plan.Requires (pairStorage "" "") (gapProject file).search
      ((gapProject file).modules (pairStorage "" ""))) n n := by
  have hno : ∀ d n, ¬ Plan.Requires (pairStorage "" "") (gapProject file).search
      ((gapProject file).modules (pairStorage "" "")) d n := by
    rintro d n ⟨m, hm, -, -, v, source, r, answer, hv, hread, hr, -⟩
    simp only [modules_gap, List.mem_cons, List.not_mem_nil, or_false] at hm
    rcases hm with rfl | rfl | rfl <;> cases hv
    · have hempty : (pairStorage "" "").readText pairVolume "/A.v" = .ok "" := by decide +kernel
      cases hempty.symm.trans hread
      cases hr
    · rw [h] at hread
      cases hread
  rintro ⟨n, hn⟩
  cases hn with
  | single h => exact hno _ _ h
  | tail _ h => exact hno _ _ h

theorem package_outcome_gap :
    ∃ pkg, (gapProject "/C.vo").package Plan.ofSources (pairStorage "" "") gapSelection .standard =
        .ok pkg
      ∧ pkg.skipped.Sublist ["/C.vo", "/D.v"] ∧ "/C.vo" ∈ pkg.skipped := by
  obtain ⟨hok, hpkg⟩ := package_outcome (pairStorage "" "") (gapProject "/C.vo") gapSelection
    .standard
  have hfile : ∃ file, FileName.manifest (FileName.package "p") = .ok file :=
    FileName.exists_manifest (by decide)
  have hreads : Plan.Reads (pairStorage "" "")
      ((gapProject "/C.vo").modules (pairStorage "" "")) := by
    intro m hm hsource v hv
    simp only [modules_gap, List.mem_cons, List.not_mem_nil, or_false] at hm
    rcases hm with rfl | rfl | rfl <;> cases hv
    · exact ⟨_, rfl⟩
    · exact absurd hsource (by decide)
  obtain ⟨pkg, h⟩ := hok.2 ⟨hfile, hreads, acyclic_gap (by decide +kernel), by decide⟩
  obtain ⟨-, -, -, hsub, htold⟩ := hpkg pkg h
  refine ⟨pkg, h, hsub, ?_⟩
  rcases htold (.ofRecord ⟨some pairVolume, ["C"], "/C.vo", some "p"⟩) (by decide) (by decide) with
    hin | ⟨name, hin, hname⟩
  · exact hin
  · have hnames : ((gapProject "/C.vo").held (pairStorage "" "") gapSelection pkg.manifest).names =
        [Manifest.entryName, "A.v"] := rfl
    rw [hnames] at hin
    cases hname
    exact absurd hin (by decide)

theorem package_outcome_unread :
    (¬ ∃ n, Relation.TransGen (Plan.Requires (pairStorage "" "") (gapProject "/C.v").search
        ((gapProject "/C.v").modules (pairStorage "" ""))) n n)
      ∧ Style.standard.time.IsValid
      ∧ (gapProject "/C.v").package Plan.ofSources (pairStorage "" "") gapSelection .standard =
        .error (.notFound "/C.v") :=
  ⟨acyclic_gap (by decide +kernel), by decide, by rfl⟩

end Project

end Bindery
