import Bindery.Proofs.DeclaredRoots
import Bindery.Proofs.OutputNames
import Bindery.Proofs.Registration
import Bindery.Proofs.SavedPackage

/-!
# Copies by logical path

A copy in memory has a file for each logical path of the sources, and where directories are not
called like files of modules it is scanned as a module of that path. Of sources with one logical
path the last is copied over the others, so the copy has the module that a lookup finds only if no
other source of its path follows: `Project.copyLogical_last`. There is a copy if the sources can be
read: `Project.exists_copyLogical`.
-/

namespace Bindery

open Bindery.Path (AllSteps)

namespace Project

section Sources

variable {target : Volume} {slot : Nat} {st st' : Storage}
  (hm : target.medium = .memory slot) (hslot : slot < st.memories.length)

/-- The sources among some modules that are in a volume. -/
def stored (records : List Record) : List Record := records.filter (·.volume.isSome)

theorem stored_cons_none {m : Record} (hv : m.volume = none) (r : List Record) :
    stored (m :: r) = stored r :=
  List.filter_cons_of_neg (by simp [hv])

theorem stored_cons_some {m : Record} {v : Volume} (hv : m.volume = some v) (r : List Record) :
    stored (m :: r) = m :: stored r :=
  List.filter_cons_of_pos (by simp [hv])

include hm hslot in
/-- A source that is in no volume is passed over; the file of any other is read, and written to the
target. -/
theorem copySources_cons {m : Record} {r : List Record}
    (h : copySources target st (m :: r) = (st', none)) :
    m.volume = none ∧ copySources target st r = (st', none)
      ∨ ∃ v content st₁, m.volume = some v ∧ st.read v m.physical = .ok content
        ∧ Storage.Adds slot [logicalFile m.logical] st st₁
        ∧ (∀ path, st₁.read target path =
          if path = logicalFile m.logical then .ok content else st.read target path)
        ∧ copySources target st₁ r = (st', none) := by
  unfold copySources at h
  rcases hv : m.volume with _ | v
  · rw [hv] at h
    exact .inl ⟨rfl, h⟩
  · rw [hv] at h
    rcases hread : st.read v m.physical with e | content
    · simp [hread, Except.bind] at h
    · obtain ⟨st₁, hwrite, -, hpaths⟩ :=
        Storage.exists_write (logicalFile m.logical) content hm hslot
      simp only [hread, Except.bind, hwrite] at h
      exact .inr ⟨v, content, st₁, rfl, hread, .of_write hm hslot hwrite, hpaths, h⟩

/-- The target gains the files of the sources, and no other volume changes. -/
theorem adds_copySources (hm : target.medium = .memory slot) : ∀ {records : List Record}
    {st : Storage}, slot < st.memories.length → copySources target st records = (st', none) →
      Storage.Adds slot ((stored records).map fun m => logicalFile m.logical) st st'
  | [], _, _, h => by
    cases h
    exact .refl _
  | m :: r, _, hslot, h => by
    rcases copySources_cons hm hslot h with ⟨hv, hr⟩ | ⟨v, content, st₁, hv, -, hadds, -, hr⟩
    · rw [stored_cons_none hv]
      exact adds_copySources hm hslot hr
    · rw [stored_cons_some hv, List.map_cons]
      exact hadds.trans (adds_copySources hm (hadds.length ▸ hslot) hr)

/-- Sources that lie elsewhere and can be read are copied. -/
theorem exists_copySources (hm : target.medium = .memory slot) : ∀ {records : List Record}
    {st : Storage}, slot < st.memories.length →
      (∀ m ∈ stored records, ∃ v content, m.volume = some v ∧ v.medium ≠ .memory slot
        ∧ st.read v m.physical = .ok content) →
      ∃ st', copySources target st records = (st', none)
  | [], st, _, _ => ⟨st, rfl⟩
  | m :: r, st, hslot, h => by
    unfold copySources
    rcases hv : m.volume with _ | v
    · rw [stored_cons_none hv] at h
      exact exists_copySources hm hslot h
    · rw [stored_cons_some hv, List.forall_mem_cons] at h
      obtain ⟨⟨w, content, hw, -, hread⟩, hr⟩ := h
      cases hv.symm.trans hw
      obtain ⟨st₁, hwrite, hslot₁, -⟩ :=
        Storage.exists_write (logicalFile m.logical) content hm hslot
      have hadds := Storage.Adds.of_write hm hslot hwrite
      simp only [hread, Except.bind, hwrite]
      refine exists_copySources hm hslot₁ fun m' hm' => ?_
      obtain ⟨w', content', hw', hne, hread'⟩ := hr m' hm'
      exact ⟨w', content', hw', hne, (hadds.read w' hne _).trans hread'⟩

/-- The last source that is copied to a file. -/
def lastSource (records : List Record) (path : String) : Option Record :=
  (stored records).reverse.find? (logicalFile ·.logical = path)

theorem lastSource_cons {m : Record} {v : Volume} (hv : m.volume = some v) (r : List Record)
    (path : String) : lastSource (m :: r) path =
      (lastSource r path).or (if logicalFile m.logical = path then some m else none) := by
  rw [lastSource, stored_cons_some hv, List.reverse_cons, List.find?_append, List.find?_singleton]
  simp only [decide_eq_true_eq]
  rfl

/-- From the target the last source of a file is read then; other files are as they were. -/
theorem read_copySources (hm : target.medium = .memory slot) (path : String) :
    ∀ {records : List Record} {st : Storage}, slot < st.memories.length →
      copySources target st records = (st', none) →
      (lastSource records path = none → st'.read target path = st.read target path)
        ∧ ∀ m v, lastSource records path = some m → m.volume = some v → v.medium ≠ .memory slot →
          ∃ content, st.read v m.physical = .ok content ∧ st'.read target path = .ok content
  | [], _, _, h => by
    cases h
    exact ⟨fun _ => rfl, fun _ _ hlast => nomatch hlast⟩
  | m :: r, st, hslot, h => by
    rcases copySources_cons hm hslot h with
      ⟨hv, hr⟩ | ⟨v, content, st₁, hv, hread, hadds, hpaths, hr⟩
    · rw [lastSource, stored_cons_none hv]
      exact read_copySources hm path hslot hr
    · obtain ⟨hnone, hsome⟩ := read_copySources hm path (hadds.length ▸ hslot) hr
      rw [lastSource_cons hv]
      rcases hlast : lastSource r path with _ | last
      · rw [Option.none_or]
        split
        · rename_i hpath
          refine ⟨fun h => (nomatch h), fun m' w hm' hw _ => ?_⟩
          cases hm'
          cases hv.symm.trans hw
          exact ⟨content, hread, (hnone hlast).trans ((hpaths _).trans (if_pos hpath.symm))⟩
        · rename_i hpath
          refine ⟨fun _ => ?_, fun m' w hm' => nomatch hm'⟩
          exact (hnone hlast).trans ((hpaths _).trans (if_neg (Ne.symm hpath)))
      · refine ⟨fun h => (nomatch h), fun m' w hm' hw hne => ?_⟩
        obtain ⟨content', hread', hcopy⟩ := hsome m' w (hlast.trans hm') hw hne
        exact ⟨content', (hadds.read w hne _).symm.trans hread', hcopy⟩

end Sources

theorem logicalFile_eq_text (front : Logical) (stem : String) :
    logicalFile (front ++ [stem]) = Path.text true (front ++ [stem ++ sourceExtension]) := by
  rw [text_append_extension]
  rfl

theorem logicalFile_inj {name name' : Logical} (h : name.Storable) (h' : name'.Storable) :
    logicalFile name = logicalFile name' ↔ name = name' := by
  refine ⟨fun he => ?_, congrArg logicalFile⟩
  have hv : sourceExtension ∈ moduleExtensions := by decide
  obtain ⟨front, stem, rfl, -⟩ := id h
  obtain ⟨front', stem', rfl, -⟩ := id h'
  rw [logicalFile_eq_text, logicalFile_eq_text] at he
  obtain ⟨-, hsteps⟩ := Path.text_injective (h.allSteps hv) (h'.allSteps hv) he
  obtain ⟨rfl, hlast⟩ := List.append_inj' hsteps rfl
  rw [(String.append_left_inj _).1 (List.singleton_inj.1 hlast)]

variable {st st' : Storage} {p q : Project} {target : Volume} {slot : Nat}

/-- The module as which a source is copied. -/
def copyOf (target : Volume) (package : String) (m : Record) : Record :=
  ⟨some target, m.logical, logicalFile m.logical, some package⟩

theorem copyLogical_eq_ok_iff : p.copyLogical st target = (st', .ok q) ↔
    copySources target st (p.sources st) = (st', none)
      ∧ ∃ entries, (top p.name target "/").scan st' = ⟨entries, none⟩
        ∧ q = ⟨p.name, target, ⟨target, entries, none, none⟩, p.deps, none⟩ := by
  have hregister : ∀ entries : List Entry, register { new p.name target with deps := p.deps }
      (entries.map (·.beneath [])) =
        ⟨p.name, target, ⟨target, entries, none, none⟩, p.deps, none⟩ := by
    intro entries
    have hsame : entries.map (·.beneath []) = entries := List.map_id _
    rw [hsame]
    rfl
  rw [copyLogical]
  rcases copySources target st (p.sources st) with ⟨st₁, _ | e⟩
  · simp only [Prod.mk.injEq, and_true, scan, addDirectory_eq_ok_iff, hregister]
    constructor
    · rintro ⟨rfl, hscan⟩
      exact ⟨rfl, hscan⟩
    · rintro ⟨rfl, hscan⟩
      exact ⟨rfl, hscan⟩
  · simp

section Copy

variable (hm : target.medium = .memory slot) (hslot : slot < st.memories.length)
  (hempty : (st.files slot).keys = [])
  (hnames : ∀ m ∈ stored (p.sources st), m.logical.Storable)

include hm hslot hempty hnames

section Copied

variable (hcopy : copySources target st (p.sources st) = (st', none))

include hcopy

/-- The store has the file of each name and no other. -/
theorem mem_keys_copySources (k : String) : k ∈ (st'.files slot).keys ↔
    ∃ f, NamedFile (stored (p.sources st)) sourceExtension f ∧ k = Path.text true ([] ++ f) := by
  have hadds := adds_copySources hm hslot hcopy
  rw [hadds.keys, hempty, List.mem_map]
  constructor
  · rintro (hk | ⟨m, hmem, rfl⟩)
    · exact absurd hk List.not_mem_nil
    · obtain ⟨front, stem, hname, -⟩ := hnames m hmem
      exact ⟨_, ⟨m, hmem, front, stem, hname, rfl⟩, hname ▸ logicalFile_eq_text front stem⟩
  · rintro ⟨f, ⟨m, hmem, front, stem, hname, rfl⟩, rfl⟩
    exact .inr ⟨m, hmem, hname ▸ logicalFile_eq_text front stem⟩

theorem shows_copySources :
    st'.Shows target true [] (NamedFile (stored (p.sources st)) sourceExtension) :=
  Storage.shows_of_keys hm .nil (fun _ hf => hf.allSteps hnames (by decide))
    (mem_keys_copySources hm hslot hempty hnames hcopy)

end Copied

/-- If all sources lie elsewhere and can be read, there is a copy. -/
theorem exists_copyLogical (hread : ∀ m ∈ stored (p.sources st), ∃ v content, m.volume = some v
      ∧ v.medium ≠ .memory slot ∧ st.read v m.physical = .ok content) :
    ∃ st' q, p.copyLogical st target = (st', .ok q) := by
  obtain ⟨st', hcopy⟩ := exists_copySources hm hslot hread
  have hnormal : Listing.Normal true (st'.files slot).keys :=
    Storage.normal_of_keys .nil (fun _ hf => hf.allSteps hnames (by decide))
      (mem_keys_copySources hm hslot hempty hnames hcopy)
  obtain ⟨entries, hlevels⟩ :=
    exists_levels_memory (e := top p.name target "/") hm hnormal AllSteps.nil
  have hscan : (top p.name target "/").scan st' = ⟨entries, none⟩ := hlevels _ (Nat.le_refl _)
  exact ⟨st', _, copyLogical_eq_ok_iff.2 ⟨hcopy, entries, hscan, rfl⟩⟩

variable (h : p.copyLogical st target = (st', .ok q))

include h

theorem mem_modules_copyLogical (x : Record) :
    x ∈ q.modules st' ↔ ∃ m ∈ stored (p.sources st), x = copyOf target p.name m := by
  have hv : sourceExtension ∈ moduleExtensions := by decide
  obtain ⟨hcopy, entries, hentries, rfl⟩ := copyLogical_eq_ok_iff.1 h
  rw [mem_modules_scan (p := ⟨p.name, target, ⟨target, entries, none, none⟩, p.deps, none⟩)
    (shows_copySources hm hslot hempty hnames hcopy) hentries rfl rfl]
  constructor
  · rintro ⟨dir, c, r, stem, -, hfile, hstem, rfl⟩
    obtain ⟨m, hmem, hname, rfl⟩ := exists_of_namedFile hnames hv hfile hstem
    exact ⟨m, hmem, by rw [copyOf, hname, logicalFile_eq_text]; rfl⟩
  · rintro ⟨m, hmem, rfl⟩
    obtain ⟨front, stem, hname, -⟩ := hnames m hmem
    have hstorable : Logical.Storable (front ++ [stem]) := hname ▸ hnames m hmem
    refine ⟨front, stem ++ sourceExtension, [], stem, isDirectory_named hnames hv hmem hname,
      ⟨m, hmem, front, stem, hname, rfl⟩,
      moduleStem?_append (List.Subset.refl _) hstorable.stem_ne hv, ?_⟩
    rw [copyOf, hname, logicalFile_eq_text]
    rfl

/-- In a copy to an empty memory each source that is in a volume is a module of its logical path,
and there are no others. What is read from it is the last of the sources of this path, though it is
the first that lookups find. -/
theorem copyLogical_last :
    (∀ x, x ∈ q.modules st' ↔ ∃ m ∈ stored (p.sources st), x = copyOf target p.name m)
      ∧ q.names st' = Record.names (stored (p.sources st))
      ∧ ∀ name m v, (stored (p.sources st)).reverse.find? (·.logical = name) = some m →
        m.volume = some v → v.medium ≠ .memory slot → ∃ content,
          st.read v m.physical = .ok content
            ∧ st'.read target (logicalFile name) = .ok content := by
  have hmodules := mem_modules_copyLogical hm hslot hempty hnames h
  refine ⟨hmodules, Record.names_eq_iff.2 fun n => ?_, fun name m v hlast hv hne => ?_⟩
  · constructor
    · rintro ⟨x, hx, rfl⟩
      obtain ⟨m, hmem, rfl⟩ := (hmodules x).1 hx
      exact ⟨m, hmem, rfl⟩
    · rintro ⟨m, hmem, rfl⟩
      exact ⟨_, (hmodules _).2 ⟨m, hmem, rfl⟩, rfl⟩
  · obtain rfl : m.logical = name := by simpa using List.find?_some hlast
    have hmem : m ∈ stored (p.sources st) :=
      List.mem_reverse.1 (List.mem_of_find?_eq_some hlast)
    have hsame : lastSource (p.sources st) (logicalFile m.logical) = some m := by
      rw [← hlast]
      refine List.find?_congr fun x hx => ?_
      simp only [logicalFile_inj (hnames x (List.mem_reverse.1 hx)) (hnames m hmem)]
    exact (read_copySources hm _ hslot (copyLogical_eq_ok_iff.1 h).1).2 m v hsame hv hne

end Copy

def layerVolume : Volume := ⟨0, .memory 0⟩

/-- An empty volume to copy to. -/
def copyVolume : Volume := ⟨1, .memory 1⟩

def layerStorage : Storage :=
  ⟨[.ofList [("/r/A.v", "1".toUTF8), ("/r/B/C.v", "2".toUTF8), ("/s/A.v", "3".toUTF8)], .empty],
    [], default, 2⟩

/-- Two roots that have a source of one logical path. -/
def layerProject : Project :=
  ⟨"p", layerVolume, ⟨layerVolume, [⟨layerVolume, [], "/r", some "p"⟩,
    ⟨layerVolume, ["B"], "/r/B", some "p"⟩, ⟨layerVolume, [], "/s", some "p"⟩], none, none⟩, [],
    none⟩

theorem stored_layer : stored (layerProject.sources layerStorage) =
    [⟨some layerVolume, ["A"], "/r/A.v", some "p"⟩,
      ⟨some layerVolume, ["B", "C"], "/r/B/C.v", some "p"⟩,
      ⟨some layerVolume, ["A"], "/s/A.v", some "p"⟩] := by decide +kernel

/-- A directory that is called like a compiled file. -/
def boxStorage : Storage := ⟨[.ofList [("/d/X.vo/Y.v", "1".toUTF8)], .empty], [], default, 2⟩

theorem copyLogical_last_layered :
    copyVolume.medium = .memory 1 ∧ 1 < layerStorage.memories.length
      ∧ (layerStorage.files 1).keys = []
      ∧ (∀ m ∈ stored (layerProject.sources layerStorage), m.logical.Storable)
      ∧ ∃ st' q, layerProject.copyLogical layerStorage copyVolume = (st', .ok q)
        ∧ (∀ x, x ∈ q.modules st' ↔ ∃ m ∈ stored (layerProject.sources layerStorage),
          x = copyOf copyVolume "p" m)
        ∧ (q.names st').toList = ["A", "B.C"]
        ∧ ∃ content, layerStorage.read layerVolume "/s/A.v" = .ok content
          ∧ st'.read copyVolume "/A.v" = .ok content := by
  have hslot : 1 < layerStorage.memories.length := by decide
  have hempty : (layerStorage.files 1).keys = [] := rfl
  have hb : AllSteps ["B"] := Path.IsStep.allSteps ⟨by decide, by decide, by decide⟩
  have hnames : ∀ m ∈ stored (layerProject.sources layerStorage), m.logical.Storable := by
    rw [stored_layer]
    simp only [List.forall_mem_cons]
    exact ⟨⟨[], "A", rfl, .nil, by decide, by decide, by decide⟩,
      ⟨["B"], "C", rfl, hb, by decide, by decide, by decide⟩,
      ⟨[], "A", rfl, .nil, by decide, by decide, by decide⟩, fun _ h => nomatch h⟩
  obtain ⟨st', q, h⟩ : ∃ st' q, layerProject.copyLogical layerStorage copyVolume = (st', .ok q) :=
    ⟨_, _, rfl⟩
  obtain ⟨hmodules, hset, hlast⟩ := copyLogical_last rfl hslot hempty hnames h
  refine ⟨rfl, hslot, hempty, hnames, st', q, h, hmodules, ?_, ?_⟩
  · rw [hset, stored_layer]
    decide +kernel
  · refine hlast ["A"] ⟨some layerVolume, ["A"], "/s/A.v", some "p"⟩ layerVolume ?_ rfl (by decide)
    rw [stored_layer]
    decide +kernel

/-- The first of two sources of one logical path is lost; and a directory that is called like a file
of a module is a module of the copy, though there is no source of its name. -/
theorem copyLogical_first_lost :
    (∃ st' q, layerProject.copyLogical layerStorage copyVolume = (st', .ok q)
      ∧ (stored (layerProject.sources layerStorage)).find? (·.logical = ["A"]) =
        some ⟨some layerVolume, ["A"], "/r/A.v", some "p"⟩
      ∧ layerProject.search.find layerStorage [] ["A"] true =
        [⟨some layerVolume, ["A"], "/r/A.v", some "p"⟩]
      ∧ layerStorage.read layerVolume "/r/A.v" = .ok "1".toUTF8
      ∧ st'.read copyVolume "/A.v" = .ok "3".toUTF8)
    ∧ ∃ p st' q, (new "p" layerVolume).scan boxStorage "/d" = .ok p
      ∧ p.copyLogical boxStorage copyVolume = (st', .ok q)
      ∧ (Record.names (stored (p.sources boxStorage))).toList = ["X.vo.Y"]
      ∧ (q.names st').toList = ["X", "X.vo.Y"] :=
  ⟨⟨_, _, rfl, by decide +kernel, by decide +kernel, rfl, rfl⟩,
    _, _, _, rfl, rfl, by decide +kernel, by decide +kernel⟩

end Project

end Bindery
