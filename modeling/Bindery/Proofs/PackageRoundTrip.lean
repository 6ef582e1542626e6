import Bindery.Proofs.ManifestText
import Bindery.Proofs.ModuleTree
import Bindery.Proofs.PackageContents

/-!
# Packages that are opened again

The archive of a project over a tree of files holds the manifest and the files that carry its
modules, `Over.packs`. Opened as a volume it shows the tree of just these files, and the project
that is read from it is spread over that tree, `exists_opened`. So packing and opening keep the
name, the dependencies, and the modules with their places and contents: `package_roundTrip`.
-/

namespace Bindery

open Bindery.Path (IsStep AllSteps)
open Listing (Normal)

/-- The place of a module: its name, and the extension of its file. -/
def Record.place (m : Record) : Logical × Option String := (m.logical, Path.extension? m.physical)

namespace Project

variable {st : Storage} {v : Volume} {root : Bool} {base : List String}
  {file : List String → Prop} {exts dir : List String} {stem e : String} {p : Project}

/-- The members of an archive for a project over a tree. -/
structure Packs (st : Storage) (v : Volume) (root : Bool) (base : List String)
    (file : List String → Prop) (exts : List String) (manifest : String)
    (members : List Zip.NewMember) : Prop where
  nodup : (members.map (·.name)).Nodup
  names : ∀ n, n ∈ members.map (·.name) ↔ ∃ f, Packed file exts f ∧ n = Path.text false f
  manifest : ⟨Manifest.entryName, manifest.toUTF8⟩ ∈ members
  content : ∀ dir stem e, Carries file exts dir stem e →
    ∃ content, ⟨Path.text false (dir ++ [stem ++ e]), content⟩ ∈ members
      ∧ st.read v (Path.text root (base ++ (dir ++ [stem ++ e]))) = .ok content

section Packing

variable (h : p.Over st v root base file) (hx : exts ⊆ moduleExtensions)

include h hx

theorem Over.place_treeModule (hc : Carries file exts dir stem e) :
    (treeModule p.name v root base dir (stem ++ e) stem).place = (dir ++ [stem], some e) := by
  rw [Record.place, h.extension?_treeModule hx hc]
  rfl

theorem Over.exists_module_iff {q : Record → Prop} : (∃ m ∈ p.modulesWith st exts, q m) ↔
    ∃ dir stem e, Carries file exts dir stem e
      ∧ q (treeModule p.name v root base dir (stem ++ e) stem) := by
  constructor
  · rintro ⟨m, hm, hq⟩
    obtain ⟨dir, stem, e, hc, rfl⟩ := (h.mem_modulesWith hx m).1 hm
    exact ⟨dir, stem, e, hc, hq⟩
  · rintro ⟨dir, stem, e, hc, hq⟩
    exact ⟨_, (h.mem_modulesWith hx _).2 ⟨dir, stem, e, hc, rfl⟩, hq⟩

/-- The places of the modules are those of the files that carry them. -/
theorem Over.mem_places (x : Logical × Option String) :
    x ∈ (p.modulesWith st exts).map Record.place ↔
      ∃ dir stem e, Carries file exts dir stem e ∧ x = (dir ++ [stem], some e) := by
  rw [List.mem_map, h.exists_module_iff hx]
  refine exists_congr fun dir => exists_congr fun stem => exists_congr fun e =>
    and_congr_right fun hc => ?_
  rw [h.place_treeModule hx hc, eq_comm]

theorem Over.name?_ofRecord (hc : Carries file exts dir stem e) :
    (Part.ofRecord (treeModule p.name v root base dir (stem ++ e) stem)).name? =
      some (Path.text false (dir ++ [stem ++ e])) := by
  have hext := h.extension?_treeModule hx hc
  have hplace : (none <|> some e : Option String) = some e := rfl
  rw [Part.name?, Part.ofRecord, hext, hplace, Option.map_some]
  exact congrArg some logical_append_extension

theorem Over.mem_parts (x : Part) :
    x ∈ (p.modulesWith st exts).flatMap Selection.standard.parts ↔
      ∃ dir stem e, Carries file exts dir stem e
        ∧ x = Part.ofRecord (treeModule p.name v root base dir (stem ++ e) stem) := by
  rw [List.mem_flatMap, h.exists_module_iff hx]
  exact exists_congr fun dir => exists_congr fun stem => exists_congr fun e =>
    and_congr_right fun _ => List.mem_singleton

theorem Over.exists_part_iff (n : String) :
    (∃ x ∈ (p.modulesWith st exts).flatMap Selection.standard.parts, x.name? = some n) ↔
      ∃ dir stem e, Carries file exts dir stem e ∧ n = Path.text false (dir ++ [stem ++ e]) := by
  constructor
  · rintro ⟨x, hx', hn⟩
    obtain ⟨dir, stem, e, hc, rfl⟩ := (h.mem_parts hx x).1 hx'
    rw [h.name?_ofRecord hx hc] at hn
    exact ⟨dir, stem, e, hc, (Option.some.inj hn).symm⟩
  · rintro ⟨dir, stem, e, hc, rfl⟩
    exact ⟨_, (h.mem_parts hx _).2 ⟨dir, stem, e, hc, rfl⟩, h.name?_ofRecord hx hc⟩

/-- If nothing is skipped, the archive holds the packaged files of the tree. -/
theorem Over.packs {manifest : String}
    (hskip : (p.contents st (some manifest) exts Selection.standard.parts).skipped = []) :
    Packs st v root base file exts manifest
      (p.contents st (some manifest) exts Selection.standard.parts).members := by
  obtain ⟨-, hholds⟩ := Contents.holds_foldl_add hskip
  have hnames : ∀ n, n ∈ (p.contents st (some manifest) exts Selection.standard.parts).names ↔
      ∃ f, Packed file exts f ∧ n = Path.text false f := by
    intro n
    rw [contents, hholds.mem_names, h.exists_part_iff hx]
    constructor
    · rintro (hn | ⟨dir, stem, e, hc, rfl⟩)
      · exact ⟨_, .inl rfl, List.mem_singleton.1 hn⟩
      · exact ⟨_, .inr ⟨dir, stem, e, hc, rfl⟩, rfl⟩
    · rintro ⟨f, rfl | ⟨dir, stem, e, hc, rfl⟩, rfl⟩
      · exact .inl (List.mem_singleton.2 rfl)
      · exact .inr ⟨dir, stem, e, hc, rfl⟩
  refine ⟨hholds.nodup (List.nodup_singleton _), hnames, ?_, fun dir stem e hc => ?_⟩
  · obtain ⟨more, hmore, -⟩ := hholds.members
    rw [contents, hmore]
    exact List.mem_append_left _ (List.mem_singleton.2 rfl)
  · have hsteps := hc.allSteps h.shows.file_steps
    obtain ⟨x, hxm, hname⟩ := List.mem_map.1 ((hnames _).2 ⟨_, .inr ⟨dir, stem, e, hc, rfl⟩, rfl⟩)
    have hname : x.name = Path.text false (dir ++ [stem ++ e]) := hname
    rcases hholds.mem_members hxm with hm | ⟨part, hpart, hplace, hcontent⟩
    · -- No module has the place of the manifest.
      have hentry : x.name = Path.text false [Manifest.entryName] := by
        rw [List.mem_singleton.1 hm]
        rfl
      rw [hname] at hentry
      have hf : dir ++ [stem ++ e] = [] ++ [Manifest.entryName] :=
        (Path.text_injective hsteps isStep_entryName.allSteps hentry).2
      have hlast := (List.append_inj' hf rfl).2
      exact absurd (List.singleton_inj.1 hlast) (ne_entryName hx hc.stem_ne hc.ext)
    · obtain ⟨dir', stem', e', hc', rfl⟩ := (h.mem_parts hx part).1 hpart
      rw [h.name?_ofRecord hx hc', hname, Option.some.injEq] at hplace
      have hf := (Path.text_injective (hc'.allSteps h.shows.file_steps) hsteps hplace).2
      obtain ⟨rfl, rfl, rfl⟩ := hc'.unique hx hc hf
      exact ⟨x.content, hname ▸ hxm, hcontent⟩

end Packing

section Opening

variable {st' : Storage} {a : Archive} {w : Volume} {slot : Nat} {manifest : String}
  {members : List Zip.NewMember} (hs : ∀ f, file f → AllSteps f) (hx : exts ⊆ moduleExtensions)
  (hpacks : Packs st v root base file exts manifest members)
  (ha : a.members.map (·.name) = members.map (·.name))

include hx hpacks ha

/-- All that is packed is a file of the archive. -/
theorem files_packed : a.files = members.map (·.name) ∧ a.directories = [] := by
  have hname : ∀ n ∈ members.map (·.name), Archive.isDirectoryName n = false := by
    intro n hn
    obtain ⟨f, hf, rfl⟩ := (hpacks.names n).1 hn
    exact hf.isDirectoryName hx
  constructor
  · rw [Archive.files, ha, List.filter_eq_self]
    exact fun n hn => by simp [hname n hn]
  · rw [Archive.directories, ha, List.map_eq_nil_iff, List.filter_eq_nil_iff]
    exact fun n hn => by simp [hname n hn]

include hs

/-- The archive as a volume shows the tree of the packaged files. -/
theorem shows_packed (hw : w.medium = .archive slot) (hslot : st'.archive slot = a) :
    st'.Shows w false [] (Packed file exts) := by
  obtain ⟨hfiles, hdirs⟩ := files_packed hx hpacks ha
  have hn : Normal false a.files := by
    rw [hfiles]
    intro n hn
    obtain ⟨f, hf, rfl⟩ := (hpacks.names n).1 hn
    exact ⟨f, hf.allSteps hs, rfl⟩
  have hst := Storage.shows_archive hw hslot hdirs hn
  have htree : (fun f => AllSteps f ∧ Path.text false f ∈ a.files) = Packed file exts := by
    funext f
    rw [hfiles, hpacks.names, eq_iff_iff]
    constructor
    · rintro ⟨hsteps, f', hf', htext⟩
      rw [(Path.text_injective hsteps (hf'.allSteps hs) htext).2]
      exact hf'
    · exact fun hf => ⟨hf.allSteps hs, f, hf, rfl⟩
  rwa [htree] at hst

/-- The project that is read from the archive is spread over the packaged files. -/
theorem exists_opened {l : Json.Layout} {m : Manifest} (hw : w.medium = .archive slot)
    (hslot : st'.archive slot = a) (hmanifest : manifest = l.text m.toJson)
    (hread : a.read Manifest.entryName = .ok manifest.toUTF8) :
    ∃ q, ofArchive st' w = .ok q ∧ q.name = m.name ∧ q.deps = m.deps
      ∧ q.Over st' w false [] (Packed file exts) := by
  have hst := shows_packed hs hx hpacks ha hw hslot
  have htop : top m.name w "" = (top m.name w "").within false [] [] := rfl
  have hdepth : st'.depth w = Storage.longest (members.map (·.name)) + 2 := by
    rw [Storage.depth, hw, ← ha, ← hslot]
  -- A packaged file has no more steps than its name has letters.
  have hstop : (Scan.levels st' (st'.depth w) (top m.name w "")).stopped = none := by
    rw [htop]
    refine Storage.Shows.stopped_levels (e := top m.name w "") hst .nil (by omega) fun f hf => ?_
    have hlen := Storage.length_le_text false (hf.allSteps hs)
    have hmem := Storage.length_le_longest ((hpacks.names _).2 ⟨f, hf, rfl⟩)
    rw [hdepth, List.length_nil]
    omega
  rcases hl : Scan.levels st' (st'.depth w) (top m.name w "") with ⟨entries, stopped⟩
  rw [hl] at hstop
  cases hstop
  refine ⟨⟨m.name, w, ⟨w, entries, none, none⟩, m.deps, none⟩, ?_, rfl, rfl,
    over_of_levels hst hl rfl⟩
  have htext : st'.readText w Manifest.entryName = .ok manifest := by
    rw [Storage.readText, Storage.read_archive hw hslot, hread]
    exact congrArg Except.ok (Text.ofBytes_toUTF8 manifest)
  have hparse : Manifest.parse manifest = .ok m := by
    rw [hmanifest, Manifest.parse_layout_text]
  rw [ofArchive, htext]
  simp only [bind, Except.bind, hparse, Except.mapError, scan_eq_ok_iff.2 ⟨_, hl, rfl⟩]
  rfl

end Opening

section Packaged

variable {resolve : Resolver} {s : Selection} {style : Style} {pkg : Package}

theorem exists_plan {m : Manifest} (h : p.manifest resolve st = .ok m) :
    ∃ plan, p.plan resolve st = .ok plan ∧ m = p.manifestOf st plan := by
  rw [manifest] at h
  rcases hplan : p.plan resolve st with err | plan
  · rw [hplan] at h
    cases h
  · rw [hplan] at h
    cases h
    exact ⟨plan, rfl, rfl⟩

theorem manifest_inv {m : Manifest} (h : p.manifest resolve st = .ok m) :
    m.name = p.name ∧ m.deps = p.deps := by
  obtain ⟨plan, -, rfl⟩ := exists_plan h
  exact ⟨rfl, rfl⟩

/-- What the parts of a package are made of. -/
theorem package_parts (h : p.package resolve st s style = .ok pkg) :
    ∃ m stamp, p.manifest resolve st = .ok m ∧ style.stamp = .ok stamp
      ∧ FileName.manifest (FileName.package (s.file.getD p.name)) = .ok pkg.manifestFile
      ∧ pkg.file = FileName.package (s.file.getD p.name)
      ∧ pkg.manifest = style.layout.text (s.describe m (FileName.package (s.file.getD p.name)))
      ∧ pkg.archive =
        Zip.write stamp (p.contents st (some pkg.manifest) s.extensions s.parts).members
      ∧ pkg.skipped = (p.contents st (some pkg.manifest) s.extensions s.parts).skipped := by
  rw [package] at h
  rcases hfile : FileName.manifest (FileName.package (s.file.getD p.name)) with err | manifestFile
  · simp only [hfile, bind, Except.bind, reduceCtorEq] at h
  · rcases hm : p.manifest resolve st with err | m
    · simp only [hfile, hm, bind, Except.bind, reduceCtorEq] at h
    · rcases hstamp : style.stamp with err | stamp
      · simp only [hfile, hm, hstamp, bind, Except.bind, reduceCtorEq] at h
      · simp only [hfile, hm, hstamp, bind, Except.bind, pure, Except.pure, Except.ok.injEq] at h
        subst h
        dsimp only
        exact ⟨m, stamp, rfl, rfl, rfl, rfl, rfl, rfl, rfl⟩

theorem package_inv (h : p.package resolve st s style = .ok pkg) :
    ∃ m stamp, p.manifest resolve st = .ok m ∧ style.stamp = .ok stamp
      ∧ pkg.manifest = style.layout.text (s.describe m (FileName.package (s.file.getD p.name)))
      ∧ pkg.archive =
        Zip.write stamp (p.contents st (some pkg.manifest) s.extensions s.parts).members
      ∧ pkg.skipped = (p.contents st (some pkg.manifest) s.extensions s.parts).skipped := by
  obtain ⟨m, stamp, hm, hstamp, -, -, hparts⟩ := package_parts h
  exact ⟨m, stamp, hm, hstamp, hparts⟩

end Packaged

/-- The place of the manifest is no directory of a tree if it is none of the volume. -/
theorem not_isDirectory_entryName {d : String}
    (hst : st.Shows v (Path.isAbsolute [d]) (Path.steps d) file)
    (h : st.isDirectory v (Path.join [d, Manifest.entryName]) ≠ .ok true) :
    ¬ IsDirectory file [Manifest.entryName] := by
  intro hdir
  have hjoin : Path.join [d, Manifest.entryName] =
      Path.text (Path.isAbsolute [d]) (Path.steps d ++ [Manifest.entryName]) := by
    rw [Path.join_eq_text, Path.isAbsolute_before (Path.isAbsolute_step isStep_entryName),
      List.flatMap_cons, List.flatMap_singleton, isStep_entryName.steps]
  obtain ⟨c, r, hr⟩ := hdir.1.resolve_left (by simp)
  obtain ⟨b, hb, hfile⟩ := hst.isDirectory [] Manifest.entryName (c :: r) hr
  rw [hfile.2 (hdir.2 [Manifest.entryName] [] rfl (by simp)), List.nil_append, ← hjoin] at hb
  exact h hb

/-- A project that was scanned in memory and packaged without anything skipped is read back from
the archive: it has the name, the dependencies and the modules, each at its place and with its
content. -/
theorem package_roundTrip {slot : Nat} {d : String} {resolve : Resolver} {style : Style}
    {named : Option String} {pkg : Package} (st' : Storage) (hm : v.medium = .memory slot)
    (hk : ∀ k ∈ (st.files slot).keys, Path.join [k] = k ∧ Path.startsAtRoot k = true)
    (hp : p.Scanned st v d)
    (hreserved : st.isDirectory v (Path.join [d, Manifest.entryName]) ≠ .ok true)
    (hx : exts ⊆ moduleExtensions)
    (hpkg : p.package resolve st { Selection.standard with file := named, extensions := exts }
      style = .ok pkg)
    (hskip : pkg.skipped = [])
    (hzip : ∀ stamp, style.stamp = .ok stamp → Zip.GivesBack stamp
      (p.contents st (some pkg.manifest) exts Selection.standard.parts).members) :
    ∃ a q, Archive.ofBytes pkg.archive = .ok a
      ∧ ofArchive (st'.addArchive a).1 (st'.addArchive a).2 = .ok q
      ∧ q.name = p.name ∧ q.deps = p.deps
      ∧ (∀ x, x ∈ (q.modulesWith (st'.addArchive a).1 exts).map Record.place ↔
        x ∈ (p.modulesWith st exts).map Record.place)
      ∧ ∀ m ∈ p.modulesWith st exts, ∀ m' ∈ q.modulesWith (st'.addArchive a).1 exts,
        m'.place = m.place → ∃ content, (Part.ofRecord m).content st = .ok content
          ∧ (Part.ofRecord m').content (st'.addArchive a).1 = .ok content := by
  obtain ⟨file, hover, hread⟩ := hp.exists_tree hm (Listing.normal_of_join hk)
  obtain ⟨m, stamp, hm', hstamp, hmanifest, harchive, hskip'⟩ := package_inv hpkg
  obtain ⟨hname, hdeps⟩ := manifest_inv hm'
  have hpacks := hover.packs hx (hskip'.symm.trans hskip)
  have hfiles : ∀ dir stem e, Carries file exts dir stem e → file (dir ++ [stem ++ e]) := by
    intro dir stem e hc
    obtain ⟨content, -, hcontent⟩ := hpacks.content dir stem e hc
    exact (hread _ (hc.allSteps hover.shows.file_steps)).2 ⟨content, hcontent⟩
  have hcarries : ∀ dir stem e,
      Carries (Packed file exts) exts dir stem e ↔ Carries file exts dir stem e :=
    fun _ _ _ => carries_packed hx hfiles (not_isDirectory_entryName hover.shows hreserved)
  obtain ⟨a, hbytes, ha, hcontents⟩ := ofBytes_givesBack (hzip stamp hstamp) hpacks.nodup
  obtain ⟨w, hw⟩ : ∃ w, w = (st'.addArchive a).2 := ⟨_, rfl⟩
  have hslot : (st'.addArchive a).1.archive st'.archives.length = a := by
    simp [Storage.archive, Storage.addArchive, Storage.handle]
  have hmedium : w.medium = .archive st'.archives.length := by
    rw [hw]
    rfl
  have hentry : a.read Manifest.entryName = .ok pkg.manifest.toUTF8 := by
    have hself : Archive.memberName Manifest.entryName = Manifest.entryName := by decide
    exact hcontents _ hpacks.manifest Manifest.entryName hself
  obtain ⟨q, hq, hqname, hqdeps, hqover⟩ := exists_opened hover.shows.file_steps hx hpacks ha
    hmedium hslot hmanifest hentry
  refine ⟨a, q, harchive ▸ hbytes, hw ▸ hq, hqname.trans hname, hqdeps.trans hdeps, fun x => ?_,
    fun m₁ hm₁ m₂ hm₂ hplace => ?_⟩
  · simp only [hqover.mem_places hx, hover.mem_places hx, hcarries]
  · obtain ⟨dir, stem, e, hc, rfl⟩ := (hover.mem_modulesWith hx m₁).1 hm₁
    obtain ⟨dir', stem', e', hc', rfl⟩ := (hqover.mem_modulesWith hx m₂).1 hm₂
    rw [hover.place_treeModule hx hc, hqover.place_treeModule hx hc', Prod.mk.injEq] at hplace
    obtain ⟨hlogical, hext⟩ := hplace
    obtain ⟨rfl, hstem⟩ := List.append_inj' hlogical rfl
    cases hstem
    cases hext
    obtain ⟨content, hmem, hcontent⟩ := hpacks.content _ _ _ hc
    have hself := Storage.memberName_text (hc.allSteps hover.shows.file_steps)
    exact ⟨content, hcontent,
      (Storage.read_archive hmedium hslot _).trans (hcontents _ hmem _ hself)⟩

def dottedVolume : Volume := ⟨0, .memory 0⟩

/-- A source with a dot in its stem, and the file compiled from it. -/
def dottedStorage : Storage :=
  ⟨[.ofList [("/d/A.b.v", "".toUTF8), ("/d/A.b.vo", "1".toUTF8)]], [], default, 1⟩

def dottedProject : Project :=
  ⟨"p", dottedVolume, ⟨dottedVolume, [⟨dottedVolume, [], "/d", some "p"⟩], none, none⟩, ["q"],
    none⟩

def dottedStyle : Style := ⟨⟨0, 0, 0, 80⟩, .store, ⟨2000, 1, 1, 0, 0, 0⟩⟩

def dottedManifest : String :=
  "\x7b\"deps\":[\"q\"],\"modules\":\x7b\"A.b\":\x7b\x7d\x7d,\"name\":\"p\"\x7d"

def dottedMembers : List Zip.NewMember :=
  [⟨Manifest.entryName, dottedManifest.toUTF8⟩, ⟨"A.b.vo", "1".toUTF8⟩]

theorem package_roundTrip_dotted :
    ∃ pkg a q, dottedProject.package Plan.ofSources dottedStorage
        { Selection.standard with file := none, extensions := [".vo"] } dottedStyle = .ok pkg
      ∧ pkg.skipped = [] ∧ Archive.ofBytes pkg.archive = .ok a
      ∧ ofArchive (dottedStorage.addArchive a).1 (dottedStorage.addArchive a).2 = .ok q
      ∧ q.name = "p" ∧ q.deps = ["q"]
      ∧ ∀ x, x ∈ (q.modulesWith (dottedStorage.addArchive a).1 [".vo"]).map Record.place ↔
        x ∈ [((["A.b"] : Logical), some ".vo")] := by
  obtain ⟨pkg, hpkg, hskip, hmanifest⟩ : ∃ pkg, dottedProject.package Plan.ofSources dottedStorage
        { Selection.standard with file := none, extensions := [".vo"] } dottedStyle = .ok pkg
      ∧ pkg.skipped = [] ∧ pkg.manifest = dottedManifest := ⟨_, rfl, rfl, by decide +kernel⟩
  have hscan : dottedProject.Scanned dottedStorage dottedVolume "/d" := ⟨⟨_, rfl, rfl⟩, rfl⟩
  have hkeys : ∀ k ∈ (dottedStorage.files 0).keys,
      Path.join [k] = k ∧ Path.startsAtRoot k = true := by decide +kernel
  have hreserved : dottedStorage.isDirectory dottedVolume
      (Path.join ["/d", Manifest.entryName]) ≠ .ok true := fun h => by cases h
  have hmembers : (dottedProject.contents dottedStorage (some dottedManifest) [".vo"]
      Selection.standard.parts).members = dottedMembers := by decide +kernel
  have hzip : Zip.GivesBack ⟨.store, ⟨2000, 1, 1, 0, 0, 0⟩⟩ dottedMembers := by decide +kernel
  have hplace : (dottedProject.modulesWith dottedStorage [".vo"]).map Record.place =
      [(["A.b"], some ".vo")] := by decide +kernel
  obtain ⟨a, q, ha, hq, hname, hdeps, hplaces, -⟩ := package_roundTrip dottedStorage rfl hkeys
    hscan hreserved (by decide) hpkg hskip fun stamp hstamp => by
      cases hstamp
      rw [hmanifest, hmembers]
      exact hzip
  rw [hplace] at hplaces
  exact ⟨pkg, a, q, hpkg, hskip, ha, hq, hname, hdeps, hplaces⟩

end Project

end Bindery
