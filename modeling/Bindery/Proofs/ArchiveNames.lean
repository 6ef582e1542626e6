import Bindery.Proofs.ListingStat

/-!
# Names of archive members

An archive holds each name once, and reading a member never says that there is none, `Indexed`. A
path is looked for without the slashes that lead it, while the members keep theirs. So a file whose
name is not from the root is reached by its name, and one whose name is from the root is reached
just if a file has the name without those slashes, and then it is that file: `reaches_listed`.
-/

namespace Bindery

theorem exists_of_bind {ε α β : Type} {x : Except ε α} {f : α → Except ε β} {b : β}
    (h : x >>= f = .ok b) : ∃ a, x = .ok a ∧ f a = .ok b := by
  cases x with
  | error e => cases h
  | ok a => exact ⟨a, rfl, h⟩

namespace Zip

/-- Reading the member does not say that there is none. -/
def Member.Present (m : Member) : Prop := ∀ e, m.content = .error e → e.isNotFound = false

namespace Read

theorem content_error {method : Method} {flags sum : ℕ} {data : List UInt8} {e : Error}
    (h : content method flags sum data = .error e) :
    e ∈ [.archive .encrypted, .archive .method, .storage .checksum, .storage .corrupt] := by
  unfold content at h
  cases method with
  | store =>
    simp only [] at h
    split_ifs at h <;> cases h <;> simp
  | deflate =>
    simp only [] at h
    split at h
    · cases h
      simp
    · split at h
      · cases h
        simp
      · split_ifs at h
        cases h
        simp
  | other code =>
    simp only [] at h
    split_ifs at h <;> cases h <;> simp

variable {bytes : List UInt8} {d : Directory}

theorem present_of_member {place next : ℕ} {m : Member}
    (h : member bytes d place = .ok (m, next)) : m.Present := by
  obtain ⟨method, flags, sum, data, hm⟩ : ∃ method flags sum data,
      m.content = content method flags sum data := by
    unfold member at h
    obtain ⟨head, -, h⟩ := exists_of_bind h
    simp only [] at h
    split at h
    · cases h
    · obtain ⟨data, -, h⟩ := exists_of_bind h
      split at h
      · cases h
      · cases h
        exact ⟨_, _, _, _, rfl⟩
  intro e he
  have hfault := content_error (hm.symm.trans he)
  simp only [List.mem_cons, List.not_mem_nil, or_false] at hfault
  rcases hfault with rfl | rfl | rfl | rfl <;> rfl

theorem present_of_members : ∀ {count place : ℕ} {ms : List Member},
    members bytes d count place = .ok ms → ∀ m ∈ ms, m.Present
  | 0, _, _, h, m, hm => by
    cases h
    cases hm
  | count + 1, place, ms, h, m, hm => by
    obtain ⟨⟨first, next⟩, hfirst, h⟩ := exists_of_bind h
    obtain ⟨rest, hrest, h⟩ := exists_of_bind h
    cases h
    rcases List.mem_cons.1 hm with rfl | hm
    · exact present_of_member hfirst
    · exact present_of_members hrest m hm

theorem present_of_places : ∀ {places : List ℕ} {e : Error} {ms : List Member},
    fromPlaces bytes e places = .ok ms → ∀ m ∈ ms, m.Present
  | [], _, _, h => by cases h
  | place :: earlier, e, ms, h => by
    rw [fromPlaces] at h
    split at h
    · cases h
    · exact present_of_places h
    · exact present_of_places h
    · split at h
      · rename_i hms
        cases h
        split_ifs at hms
        exact present_of_members hms
      · exact present_of_places h

end Read

end Zip

namespace Archive

/-- Each name has one member, which does not say that there is none. -/
structure Indexed (ms : List Zip.Member) : Prop where
  distinct : (ms.map (·.name)).Nodup
  present : ∀ m ∈ ms, m.Present

theorem mem_addMember {m n : Zip.Member} : ∀ {ms : List Zip.Member},
    n ∈ addMember m ms → n = m ∨ n ∈ ms
  | [], h => .inl (List.mem_singleton.1 h)
  | x :: r, h => by
    rw [addMember] at h
    split_ifs at h
    · exact (List.mem_cons.1 h).imp_right (List.mem_cons_of_mem x)
    · rcases List.mem_cons.1 h with rfl | h
      · exact .inr List.mem_cons_self
      · exact (mem_addMember h).imp_right (List.mem_cons_of_mem x)

/-- A member of a name that is there takes the place of the other. -/
theorem map_name_addMember {m : Zip.Member} : ∀ {ms : List Zip.Member},
    m.name ∈ ms.map (·.name) → (addMember m ms).map (·.name) = ms.map (·.name)
  | x :: r, h => by
    rw [addMember]
    split_ifs with hname
    · rw [List.map_cons, List.map_cons, hname]
    · have hr : m.name ∈ r.map (·.name) := (List.mem_cons.1 h).resolve_left (Ne.symm hname)
      rw [List.map_cons, List.map_cons, map_name_addMember hr]

theorem Indexed.add {ms : List Zip.Member} {m : Zip.Member} (h : Indexed ms) (hm : m.Present) :
    Indexed (addMember m ms) where
  distinct := by
    by_cases hname : m.name ∈ ms.map (·.name)
    · rw [map_name_addMember hname]
      exact h.distinct
    · rw [addMember_append hname, List.map_append, List.nodup_append]
      refine ⟨h.distinct, by simp, ?_⟩
      rintro n hn _ hmem rfl
      rw [List.map_singleton, List.mem_singleton] at hmem
      exact hname (hmem ▸ hn)
  present n hn := by
    rcases mem_addMember hn with rfl | hn
    · exact hm
    · exact h.present n hn

theorem Indexed.addAll : ∀ {more ms : List Zip.Member}, (∀ m ∈ more, m.Present) → Indexed ms →
    Indexed (more.foldl (fun ms m => addMember m ms) ms)
  | [], _, _, h => h
  | m :: r, ms, hmore, h => by
    obtain ⟨hm, hr⟩ := List.forall_mem_cons.1 hmore
    rw [List.foldl_cons]
    exact addAll hr (h.add hm)

theorem indexed_ofBytes {bytes : ByteArray} {a : Archive} (h : ofBytes bytes = .ok a) :
    Indexed a.members := by
  rcases hread : Zip.read bytes with e | ms
  · rw [ofBytes, hread] at h
    cases h
  · rw [ofBytes, hread] at h
    cases h
    exact .addAll (Zip.Read.present_of_places hread) ⟨List.nodup_nil, fun _ hm => by cases hm⟩

/-- Without the slashes that lead it, the name of a file does not become that of a directory. -/
theorem isDirectoryName_memberName {name : String} (h : isDirectoryName name = false) :
    isDirectoryName (memberName name) = false := by
  obtain ⟨front, hfront⟩ := List.dropWhile_suffix (l := name.toList) (· = '/')
  rcases hrest : name.toList.dropWhile (· = '/') with _ | ⟨c, r⟩
  · simp [isDirectoryName, memberName, hrest]
  · -- Something is left of the name, so it ends as before.
    have hlast : name.toList.getLast? = (c :: r).getLast? := by
      rw [← hfront, hrest, List.getLast?_append_of_ne_nil _ (List.cons_ne_nil c r)]
    rw [isDirectoryName, hlast] at h
    rw [isDirectoryName, memberName, String.toList_ofList, hrest, h]

theorem mem_files {a : Archive} {name : String} :
    name ∈ a.files ↔ (∃ m ∈ a.members, m.name = name) ∧ isDirectoryName name = false := by
  simp [files, List.mem_filter]

theorem mem_files_memberName {a : Archive} {name : String} (h : name ∈ a.files) :
    memberName name ∈ a.files ↔ ∃ m ∈ a.members, m.name = memberName name := by
  rw [mem_files, isDirectoryName_memberName (mem_files.1 h).2]
  simp

/-- A path reads as the member of its name does. -/
theorem Indexed.read {a : Archive} (h : Indexed a.members) {m : Zip.Member} (hm : m ∈ a.members)
    {path : String} (hpath : memberName path = m.name) : a.read path = m.content := by
  rw [Archive.read, hpath, find?_key_of_nodup h.distinct hm]

theorem read_missing {a : Archive} {path : String} (h : ∀ m ∈ a.members, m.name ≠ memberName path) :
    a.read path = .error (.notFound path) := by
  have hnone : a.members.find? (·.name = memberName path) = none := by
    simpa using h
  rw [Archive.read, hnone]

end Archive

namespace Storage

/-- A file is found by its name. -/
structure Reaches (st : Storage) (v : Volume) (name : String) : Prop where
  stat : st.stat v name = .ok .file
  read : ∀ e, st.read v name = .error e → e.isNotFound = false

section Archive

variable {st : Storage} {v : Volume} {slot : ℕ} {a : Archive} (hv : v.medium = .archive slot)
  (hslot : st.archive slot = a)

include hv hslot

theorem stat_eq_file_iff (path : String) :
    st.stat v path = .ok .file ↔ Archive.memberName path ∈ a.files := by
  have hdisk : v.medium ≠ .disk := by simp [hv]
  rw [stat_eq hdisk]
  simp only [fileNames, nameIn, hv, hslot]
  split_ifs with hfile hdir <;> simp [found, hfile]

theorem read_lost {name : String} (hname : name ∈ a.files)
    (hlost : Archive.memberName name ∉ a.files) : st.read v name = .error (.notFound name) := by
  rw [Archive.mem_files_memberName hname] at hlost
  push Not at hlost
  rw [read_archive hv hslot, Archive.read_missing hlost]

theorem reaches_iff (hindexed : Archive.Indexed a.members) {name : String}
    (hname : name ∈ a.files) : st.Reaches v name ↔ Archive.memberName name ∈ a.files := by
  have hstat := stat_eq_file_iff hv hslot name
  refine ⟨fun h => hstat.1 h.stat, fun h => ⟨hstat.2 h, ?_⟩⟩
  obtain ⟨m, hm, hmname⟩ := (Archive.mem_files_memberName hname).1 h
  rw [read_archive hv hslot, hindexed.read hm hmname.symm]
  exact hindexed.present m hm

end Archive

/-- In every archive that is opened a file whose name is not from the root is found by its name, and
one whose name is from the root just if there is a file of the name without the slashes that lead
it; otherwise its name reads as that of no file. What a path reads is the member of its name without
those slashes. -/
theorem reaches_listed {bytes : ByteArray} {a : Archive} (ha : Archive.ofBytes bytes = .ok a)
    {st : Storage} {v : Volume} {slot : ℕ} (hv : v.medium = .archive slot)
    (hslot : st.archive slot = a) :
    (∀ name ∈ a.files, Path.startsAtRoot name = false → st.Reaches v name)
      ∧ (∀ name ∈ a.files, Path.startsAtRoot name = true →
          (st.Reaches v name ↔ Archive.memberName name ∈ a.files)
            ∧ (Archive.memberName name ∉ a.files → st.read v name = .error (.notFound name)))
      ∧ ∀ m ∈ a.members, ∀ path, Archive.memberName path = m.name → st.read v path = m.content := by
  have hindexed := Archive.indexed_ofBytes ha
  refine ⟨fun name hname hroot => ?_, fun name hname _ => ?_, fun m hm path hpath => ?_⟩
  · rw [reaches_iff hv hslot hindexed hname, memberName_relative hroot]
    exact hname
  · exact ⟨reaches_iff hv hslot hindexed hname, read_lost hv hslot hname⟩
  · rw [read_archive hv hslot, hindexed.read hm hpath]

def plainStamp : Zip.Stamp := ⟨.store, ⟨2000, 1, 1, 0, 0, 0⟩⟩

/-- The storage of one archive. -/
def shelved (a : Archive) : Storage := ⟨[], [a], default, 1⟩

def shelvedVolume : Volume := ⟨0, .archive 0⟩

theorem shelvedVolume_medium : shelvedVolume.medium = .archive 0 := rfl

theorem archive_shelved (a : Archive) : (shelved a).archive 0 = a := rfl

/-- Files with names from the root and not. The first has the name of the second behind a slash. -/
def rootedMembers : List Zip.NewMember :=
  [⟨"/a.v", "1".toUTF8⟩, ⟨"a.v", "2".toUTF8⟩, ⟨"b//c.v", "3".toUTF8⟩, ⟨"/d.v", "4".toUTF8⟩]

theorem reaches_listed_rooted : ∃ a, Archive.ofBytes (Zip.write plainStamp rootedMembers) = .ok a
    ∧ a.files = ["/a.v", "a.v", "b//c.v", "/d.v"]
    ∧ (shelved a).Reaches shelvedVolume "b//c.v" ∧ (shelved a).Reaches shelvedVolume "/a.v"
    ∧ (shelved a).read shelvedVolume "/a.v" = .ok "2".toUTF8
    ∧ (shelved a).read shelvedVolume "/d.v" = .error (.notFound "/d.v") := by
  have hgives : Zip.GivesBack plainStamp rootedMembers := by decide +kernel
  have hdistinct : (rootedMembers.map (·.name)).Nodup := by decide
  obtain ⟨a, ha, hnames, hreads⟩ := ofBytes_givesBack hgives hdistinct
  have hfiles : a.files = ["/a.v", "a.v", "b//c.v", "/d.v"] := by
    rw [Archive.files, hnames]
    decide
  obtain ⟨hrelative, hrooted, -⟩ := reaches_listed ha shelvedVolume_medium (archive_shelved a)
  rw [hfiles] at hrelative hrooted
  refine ⟨a, ha, hfiles, hrelative _ (by decide) (by decide), ?_, ?_, ?_⟩
  · exact (hrooted _ (by decide) (by decide)).1.2 (by decide)
  · rw [read_archive shelvedVolume_medium (archive_shelved a)]
    exact hreads ⟨"a.v", "2".toUTF8⟩ (by simp [rootedMembers]) _ (by decide)
  · exact (hrooted _ (by decide) (by decide)).2 (by decide)

/-- An archive of one file, at whose listed name there is nothing. -/
theorem reaches_listed_lost : ∃ a,
    Archive.ofBytes (Zip.write plainStamp [⟨"/a.v", "1".toUTF8⟩]) = .ok a ∧ a.files = ["/a.v"]
      ∧ (shelved a).stat shelvedVolume "/a.v" = .error (.notFound "/a.v")
      ∧ (shelved a).read shelvedVolume "/a.v" = .error (.notFound "/a.v") := by
  have hgives : Zip.GivesBack plainStamp [⟨"/a.v", "1".toUTF8⟩] := by decide +kernel
  obtain ⟨a, ha, hnames, -⟩ := ofBytes_givesBack hgives (by decide)
  have hfiles : a.files = ["/a.v"] := by
    rw [Archive.files, hnames]
    decide
  have hdirs : a.directories = [] := by
    rw [Archive.directories, hnames]
    decide
  refine ⟨a, ha, hfiles, ?_, ?_⟩
  · have hname : Archive.memberName "/a.v" = "a.v" := by decide
    have hbelow : Listing.isDirectory ["/a.v"] "a.v" = false := by decide
    rw [Storage.stat, shelvedVolume]
    simp [shelved, archive, Archive.stat?, Archive.isFile, Archive.isDirectory, hname, hfiles,
      hdirs, hbelow, found]
  · have hlisted : "/a.v" ∈ a.files := by
      rw [hfiles]
      decide
    have hlost : Archive.memberName "/a.v" ∉ a.files := by
      rw [hfiles]
      decide
    exact read_lost shelvedVolume_medium (archive_shelved a) hlisted hlost

end Storage

end Bindery
