import Bindery.Proofs.PackageContents
import Bindery.Proofs.TextParts

/-!
# What is listed and what is there

Volumes in memory and archives tell directories by the names of their files. A name shows a child in
a listing also if more slashes than one stand before the child, or nothing follows the slash behind
it, but only without these is there something at the path of the child, and a directory of an
archive that has a member of its own is there without being listed: `mem_list_iff`. A memory and an
archive of the same files are one tree, `archive_eq_memory`.
-/

namespace Bindery

open Bindery.Path (IsStep AllSteps)

namespace Listing

variable {dir c name : String} {names : List String}

/-- A name goes on from a directory, perhaps after more slashes, with a child and what follows. -/
def GoesOn (dir c : String) (slashes : Nat) (rest name : String) : Prop :=
  name = under dir ++ String.ofList (List.replicate slashes '/') ++ c ++ rest
    ∧ (rest = "" ∨ Path.startsAtRoot rest = true)

theorem find?_pieces {s : String} : (Text.pieces '/' s).find? (· ≠ "") = some c ↔
    (s.toList.splitOnP (· == '/')).find? (· ≠ []) = some c.toList := by
  have hempty : ((fun p : String => decide (p ≠ "")) ∘ String.ofList) =
      fun p : List Char => decide (p ≠ []) := by
    funext p
    simp
  rw [Text.pieces, List.splitOn, List.find?_map, hempty, Option.map_eq_some_iff]
  constructor
  · rintro ⟨p, hp, rfl⟩
    rw [hp, String.toList_ofList]
  · exact fun h => ⟨_, h, String.ofList_toList⟩

/-- The first part of a text that is not empty stands behind slashes and ends before one. -/
theorem find?_pieces_eq_some {s : String} : (Text.pieces '/' s).find? (· ≠ "") = some c ↔
    c ≠ "" ∧ '/' ∉ c.toList ∧ ∃ slashes rest,
      s = String.ofList (List.replicate slashes '/') ++ c ++ rest
        ∧ (rest = "" ∨ Path.startsAtRoot rest = true) := by
  rw [find?_pieces, Text.find?_splitOnP_eq_some]
  refine and_congr (not_congr String.toList_eq_nil_iff) (and_congr ?_ ?_)
  · exact ⟨fun h hmem => by simpa using h _ hmem, fun h x hx => by
      rw [beq_eq_false_iff_ne]
      rintro rfl
      exact h hx⟩
  · constructor
    · rintro ⟨front, rest, hs, hfront, hrest⟩
      refine ⟨front.length, String.ofList rest, ?_, ?_⟩
      · have hslashes : List.replicate front.length '/' = front :=
          (List.eq_replicate_of_mem fun x hx => by simpa using hfront x hx).symm
        rw [hslashes, ← String.toList_inj]
        simp [hs]
      · rcases rest with _ | ⟨x, r⟩
        · exact .inl rfl
        · have hx : x = '/' := by simpa using hrest x rfl
          exact .inr (by simp [Path.startsAtRoot, hx])
    · rintro ⟨n, rest, rfl, hrest⟩
      refine ⟨List.replicate n '/', rest.toList, by simp, ?_, fun x hx => ?_⟩
      · intro x hx
        rw [List.eq_of_mem_replicate hx]
        rfl
      · rcases hrest with rfl | hrest
        · cases hx
        · rw [Path.startsAtRoot, decide_eq_true_eq, Option.mem_def.1 hx] at hrest
          rw [Option.some.inj hrest]
          rfl

theorem childOf?_eq_some : childOf? dir name = some c ↔
    c ≠ "" ∧ '/' ∉ c.toList ∧ ∃ slashes rest, GoesOn dir c slashes rest name := by
  simp only [childOf?, bind, Option.bind_eq_some_iff, find?_pieces_eq_some, Text.after?_eq_some]
  constructor
  · rintro ⟨s, rfl, hne, hslash, n, rest, rfl, hrest⟩
    exact ⟨hne, hslash, n, rest, by simp only [String.append_assoc], hrest⟩
  · rintro ⟨hne, hslash, n, rest, rfl, hrest⟩
    exact ⟨_, by simp only [String.append_assoc], hne, hslash, n, rest, rfl, hrest⟩

theorem mem_children_iff (hc : IsStep c) :
    c ∈ children names dir ↔ ∃ n ∈ names, ∃ slashes rest, GoesOn dir c slashes rest n := by
  rw [children, List.mem_eraseDups, List.mem_filterMap]
  simp only [childOf?_eq_some, ne_eq, hc.1, not_false_eq_true, hc.2.2, true_and]

theorem isDirectory_eq_true : isDirectory names dir = true ↔
    ∃ n ∈ names, ∃ rest, rest ≠ "" ∧ n = under dir ++ rest := by
  simp only [isDirectory, below, List.any_eq_true, Option.any_eq_true, Text.after?_eq_some,
    decide_eq_true_eq, and_comm]

section Normal

variable {root : Bool} {base : List String} (hb : AllSteps base) (hc : IsStep c)

include hb

theorem under_append_child :
    under (Path.text root base) ++ c = Path.text root (base ++ [c]) := by
  rw [under_text root hb, text_append (List.cons_ne_nil c []), String.intercalate_singleton]

include hc

theorem under_child :
    under (Path.text root (base ++ [c])) = Path.text root (base ++ [c]) ++ "/" := by
  rw [under_text root (hb.append hc.allSteps), if_neg (by simp)]

/-- A file or a directory is at the path of a child if a name goes on with the child at once, and
then ends or goes on behind a slash. -/
theorem exists_at_child :
    (Path.text root (base ++ [c]) ∈ names
        ∨ isDirectory names (Path.text root (base ++ [c])) = true) ↔
      ∃ n ∈ names, ∃ rest, rest ≠ "/" ∧ GoesOn (Path.text root base) c 0 rest n := by
  have hgoes : ∀ rest n, GoesOn (Path.text root base) c 0 rest n ↔
      n = Path.text root (base ++ [c]) ++ rest ∧ (rest = "" ∨ Path.startsAtRoot rest = true) := by
    intro rest n
    rw [GoesOn, List.replicate_zero, String.ofList_nil, String.append_empty,
      under_append_child hb]
  simp only [isDirectory_eq_true, under_child hb hc, hgoes]
  constructor
  · rintro (hmem | ⟨n, hmem, rest, hne, rfl⟩)
    · exact ⟨_, hmem, "", by decide, String.append_empty.symm, .inl rfl⟩
    · refine ⟨_, hmem, "/" ++ rest, fun he => hne ?_, String.append_assoc, .inr ?_⟩
      · have hlist := congrArg String.toList he
        rw [String.toList_append] at hlist
        simpa using hlist
      · simp [Path.startsAtRoot]
  · rintro ⟨n, hmem, rest, hne, rfl, rfl | hrest⟩
    · rw [String.append_empty] at hmem
      exact .inl hmem
    · rw [Path.startsAtRoot, decide_eq_true_eq, List.head?_eq_some_iff] at hrest
      obtain ⟨r, hr⟩ := hrest
      refine .inr ⟨_, hmem, String.ofList r, fun he => hne ?_, ?_⟩
      · have hnil : r = [] := by simpa using he
        rw [← String.toList_inj, hr, hnil]
        rfl
      · rw [← String.toList_inj]
        simp [hr]

omit hc in
theorem startsAtRoot_under (hne : Path.text root base ≠ "") (rest : String) :
    Path.startsAtRoot (under (Path.text root base) ++ rest) = root := by
  rw [under_text root hb]
  rcases hl : (Path.text root base).toList with _ | ⟨x, r⟩
  · exact absurd (String.toList_eq_nil_iff.1 hl) hne
  · have hstart := Path.startsAtRoot_text root hb
    rw [Path.startsAtRoot, hl] at hstart
    rw [Path.startsAtRoot, String.toList_append, String.toList_append, hl]
    exact hstart

/-- A path in normal form goes on from a directory without more slashes. -/
theorem GoesOn.normal {slashes : Nat} {rest : String} (hname : Path.join [name] = name)
    (hroot : Path.text root base = "" → Path.startsAtRoot name = false)
    (h : GoesOn (Path.text root base) c slashes rest name) : slashes = 0 ∧ rest ≠ "/" := by
  have htext := Path.eq_text_of_join hname
  have hsteps := Path.allSteps_steps name
  have hfrom : Path.startsAtRoot name = root := by
    by_cases hempty : Path.text root base = ""
    · rw [hroot hempty, (Path.text_eq_empty hb hempty).1]
    · rw [h.1, String.append_assoc, String.append_assoc]
      exact startsAtRoot_under hb hempty _
  have habs : Path.isAbsolute [name] = root := by
    have hstart := Path.startsAtRoot_text (Path.isAbsolute [name]) hsteps
    rw [← htext, hfrom] at hstart
    exact hstart.symm
  have hafter : Text.after? (under (Path.text root base)) (Path.text root (Path.steps name)) =
      some (String.ofList (List.replicate slashes '/') ++ c ++ rest) := by
    rw [← habs, ← htext, Text.after?_eq_some, habs, h.1]
    simp only [String.append_assoc]
  obtain ⟨ds, hds, hmore, -⟩ := (after?_under hb hsteps).1 hafter
  rw [hds] at hsteps
  have hmore : String.ofList (List.replicate slashes '/') ++ c ++ rest = Path.text false ds := by
    rw [hmore, Path.text, if_neg (by simp), String.empty_append]
  have hzero : slashes = 0 := by
    have hstart := Path.startsAtRoot_text false hsteps.right
    rw [← hmore, Path.startsAtRoot] at hstart
    rcases slashes with _ | n
    · rfl
    · simp [List.replicate_succ] at hstart
  refine ⟨hzero, ?_⟩
  rintro rfl
  rw [hzero, List.replicate_zero, String.ofList_nil, String.empty_append] at hmore
  have hds : ds = [c] := by
    have hnil : Path.steps "" = [] := rfl
    rw [← Path.steps_text false hsteps.right, ← hmore, ← String.append_empty (s := c ++ "/"),
      steps_append_slash, hc.steps, hnil, List.append_nil]
  rw [hds] at hmore
  simp [Path.text, ← String.toList_inj] at hmore

end Normal

end Listing

namespace Storage

variable {st : Storage} {v : Volume}

/-- The names by which a volume tells files and directories. -/
def fileNames (st : Storage) (v : Volume) : List String :=
  match v.medium with
  | .memory slot => (st.files slot).keys
  | .archive slot => (st.archive slot).files
  | .disk => []

/-- The directories that have a member of their own. -/
def ownDirectories (st : Storage) (v : Volume) : List String :=
  match v.medium with
  | .archive slot => (st.archive slot).directories
  | _ => []

/-- What a path is called among the names. -/
def nameIn (v : Volume) (path : String) : String :=
  match v.medium with
  | .archive _ => Archive.memberName path
  | _ => path

theorem list_eq (hv : v.medium ≠ .disk) (path : String) :
    st.list v path = .ok (Listing.children (st.fileNames v) (nameIn v path)) := by
  rcases hm : v.medium with slot | slot | _
  · simp only [list, fileNames, nameIn, hm, Files.list]
  · simp only [list, fileNames, nameIn, hm, Archive.list]
  · exact absurd hm hv

theorem stat_eq (hv : v.medium ≠ .disk) (path : String) :
    st.stat v path = found path (if nameIn v path ∈ st.fileNames v then some .file
      else if Archive.withoutSlashes (nameIn v path) ∈ st.ownDirectories v
        ∨ Listing.isDirectory (st.fileNames v) (nameIn v path) = true then some .directory
      else none) := by
  rcases hm : v.medium with slot | slot | _
  · simp only [stat, fileNames, ownDirectories, nameIn, hm, Files.stat?, Files.isFile,
      decide_eq_true_eq, List.not_mem_nil, false_or]
  · simp only [stat, fileNames, ownDirectories, nameIn, hm, Archive.stat?, Archive.isFile,
      Archive.isDirectory, decide_eq_true_eq, Bool.or_eq_true]
  · exact absurd hm hv

theorem exists_stat_iff (hv : v.medium ≠ .disk) (path : String) :
    (∃ kind, st.stat v path = .ok kind) ↔
      (nameIn v path ∈ st.fileNames v
          ∨ Listing.isDirectory (st.fileNames v) (nameIn v path) = true)
        ∨ Archive.withoutSlashes (nameIn v path) ∈ st.ownDirectories v := by
  rw [stat_eq hv]
  split_ifs with hfile hdir
  · simp [found, hfile]
  · simp only [found, Except.ok.injEq, exists_eq', true_iff]
    exact hdir.symm.imp_left .inr
  · simp only [found, reduceCtorEq, exists_false, false_iff]
    rintro ((hmem | hmem) | hmem)
    · exact hfile hmem
    · exact hdir (.inr hmem)
    · exact hdir (.inl hmem)

theorem memberName_root {cs : List String} (h : AllSteps cs) :
    Archive.memberName (Path.text true cs) = Path.text false cs := by
  have hroot : (Path.text true cs).toList = '/' :: (Path.text false cs).toList := by
    simp [Path.text]
  have hrest : Archive.memberName (Path.text true cs) =
      Archive.memberName (Path.text false cs) := by
    rw [Archive.memberName, Archive.memberName, hroot, List.dropWhile_cons_of_pos (by simp)]
  rw [hrest, memberName_text h]

theorem nameIn_text (v : Volume) (root : Bool) : ∃ root', ∀ cs, AllSteps cs →
    nameIn v (Path.text root cs) = Path.text root' cs := by
  rcases hm : v.medium with slot | slot | _
  · exact ⟨root, fun _ _ => by simp only [nameIn, hm]⟩
  · refine ⟨false, fun cs h => ?_⟩
    simp only [nameIn, hm]
    cases root
    · exact memberName_text h
    · exact memberName_root h
  · exact ⟨root, fun _ _ => by simp only [nameIn, hm]⟩

theorem withoutSlashes_child {root : Bool} {base : List String} {c : String} (hc : IsStep c) :
    Archive.withoutSlashes (Path.text root (base ++ [c])) = Path.text root (base ++ [c]) := by
  have htrimmed : Archive.withoutSlashes (Path.text root (base ++ [c])) =
      String.ofList (Path.trimmed (Path.text root (base ++ [c]))) := rfl
  rw [htrimmed, Path.trimmed_text root hc, String.ofList_toList]

/-- A child is listed if a name goes on with it, however many slashes stand around it, and there is
something at its path if a name goes on with it at once and not only up to a slash, or a member
stands for the directory. For names in normal form and directories with files these are the
same. -/
theorem mem_list_iff (hv : v.medium ≠ .disk) {d c : String} (hd : Path.join [d] = d)
    (hc : IsStep c) :
    ∃ names, st.list v d = .ok names
      ∧ (c ∈ names ↔
          ∃ n ∈ st.fileNames v, ∃ slashes rest, Listing.GoesOn (nameIn v d) c slashes rest n)
      ∧ ((∃ kind, st.stat v (Path.join [d, c]) = .ok kind) ↔
          (∃ n ∈ st.fileNames v, ∃ rest, rest ≠ "/" ∧ Listing.GoesOn (nameIn v d) c 0 rest n)
            ∨ nameIn v (Path.join [d, c]) ∈ st.ownDirectories v)
      ∧ ((∀ n ∈ st.fileNames v, Path.join [n] = n
            ∧ (nameIn v d = "" → Path.startsAtRoot n = false)) →
          (∀ own ∈ st.ownDirectories v, Listing.isDirectory (st.fileNames v) own = true) →
          (c ∈ names ↔ ∃ kind, st.stat v (Path.join [d, c]) = .ok kind)) := by
  obtain ⟨root, base, hb, rfl⟩ : ∃ root base, AllSteps base ∧ d = Path.text root base :=
    ⟨_, _, Path.allSteps_steps d, Path.eq_text_of_join hd⟩
  obtain ⟨root', hroot⟩ := nameIn_text v root
  have hsteps : AllSteps (base ++ [c]) := hb.append hc.allSteps
  rw [Path.join_text_step root hb hc, hroot _ hb, hroot _ hsteps]
  have hlisted : c ∈ Listing.children (st.fileNames v) (Path.text root' base) ↔
      ∃ n ∈ st.fileNames v, ∃ slashes rest,
        Listing.GoesOn (Path.text root' base) c slashes rest n := Listing.mem_children_iff hc
  have hthere : (∃ kind, st.stat v (Path.text root (base ++ [c])) = .ok kind) ↔
      (∃ n ∈ st.fileNames v, ∃ rest, rest ≠ "/"
          ∧ Listing.GoesOn (Path.text root' base) c 0 rest n)
        ∨ Path.text root' (base ++ [c]) ∈ st.ownDirectories v := by
    rw [exists_stat_iff hv, hroot _ hsteps, withoutSlashes_child hc, Listing.exists_at_child hb hc]
  refine ⟨_, by rw [list_eq hv, hroot _ hb], hlisted, hthere, fun hnormal hown => ?_⟩
  rw [hlisted, hthere]
  constructor
  · rintro ⟨n, hn, slashes, rest, hgoes⟩
    obtain ⟨rfl, hrest⟩ := hgoes.normal hb hc (hnormal n hn).1 (hnormal n hn).2
    exact .inl ⟨n, hn, rest, hrest, hgoes⟩
  · rintro (⟨n, hn, rest, -, hgoes⟩ | hmem)
    · exact ⟨n, hn, 0, rest, hgoes⟩
    · obtain ⟨n, hn, rest, -, hgoes⟩ := (Listing.exists_at_child hb hc).1 (.inr (hown _ hmem))
      exact ⟨n, hn, 0, rest, hgoes⟩

/-- An archive member without content. -/
def bareMember (name : String) : Zip.Member := ⟨name, .store, ⟨2000, 1, 1, 0, 0, 0⟩, .ok .empty⟩

/-- A memory that holds one file from the root and one behind two slashes, an archive with a
directory and a file in it, and one with a directory alone. -/
def spareStorage : Storage where
  memories := [.ofList [("/a//b.v", .empty), ("/x.v", .empty)]]
  archives := [⟨[bareMember "a/", bareMember "a/b.v"]⟩, ⟨[bareMember "d/"]⟩]
  disk := default
  handles := 3

def spareMemory : Volume := ⟨0, .memory 0⟩

def spareArchive (slot : Nat) : Volume := ⟨slot + 1, .archive slot⟩

theorem mem_list_iff_spare :
    (spareArchive 0).medium ≠ .disk ∧ Path.join ["/"] = "/" ∧ IsStep "a"
      ∧ (∀ n ∈ spareStorage.fileNames (spareArchive 0), Path.join [n] = n
        ∧ (nameIn (spareArchive 0) "/" = "" → Path.startsAtRoot n = false))
      ∧ (∀ own ∈ spareStorage.ownDirectories (spareArchive 0),
        Listing.isDirectory (spareStorage.fileNames (spareArchive 0)) own = true)
      ∧ ∃ names, spareStorage.list (spareArchive 0) "/" = .ok names
        ∧ ("a" ∈ names ↔
          ∃ kind, spareStorage.stat (spareArchive 0) (Path.join ["/", "a"]) = .ok kind) := by
  have hv : (spareArchive 0).medium ≠ .disk := by decide
  have hd : Path.join ["/"] = "/" := by decide
  have hc : IsStep "a" := ⟨by decide, by decide, by decide⟩
  have hnormal : ∀ n ∈ spareStorage.fileNames (spareArchive 0), Path.join [n] = n
      ∧ (nameIn (spareArchive 0) "/" = "" → Path.startsAtRoot n = false) := by decide
  have hown : ∀ own ∈ spareStorage.ownDirectories (spareArchive 0),
      Listing.isDirectory (spareStorage.fileNames (spareArchive 0)) own = true := by decide
  obtain ⟨names, hl, -, -, hsame⟩ : ∃ names,
      spareStorage.list (spareArchive 0) "/" = .ok names ∧ _ := mem_list_iff hv hd hc
  exact ⟨hv, hd, hc, hnormal, hown, names, hl, hsame hnormal hown⟩

/-- A name from the root is listed where there is nothing, as is one behind two slashes, and a
directory without files is not listed. -/
theorem mem_list_iff_astray :
    (spareStorage.list spareMemory "" = .ok ["a", "x.v"]
        ∧ spareStorage.stat spareMemory (Path.join ["", "x.v"]) = .error (.notFound "x.v"))
      ∧ (spareStorage.list spareMemory "/a" = .ok ["b.v"]
        ∧ spareStorage.stat spareMemory (Path.join ["/a", "b.v"]) = .error (.notFound "/a/b.v"))
      ∧ (spareStorage.list (spareArchive 1) "" = .ok []
        ∧ spareStorage.stat (spareArchive 1) (Path.join ["", "d"]) = .ok .directory) := by
  refine ⟨⟨?_, ?_⟩, ⟨?_, ?_⟩, ?_, ?_⟩ <;> rfl

end Storage

theorem Path.getLast?_ne_slash {n : String} (h : join [n] = n) (hroot : startsAtRoot n = false) :
    n.toList.getLast? ≠ some '/' := by
  rw [eq_text_of_join h] at hroot ⊢
  rw [startsAtRoot_text _ (allSteps_steps n)] at hroot
  rw [hroot]
  rcases List.eq_nil_or_concat (steps n) with hnil | ⟨cs, c, hcs⟩
  · rw [hnil]
    simp [text]
  · rw [List.concat_eq_append] at hcs
    have hc : IsStep c := allSteps_steps n c (by simp [hcs])
    obtain ⟨front, x, hx, hne⟩ : ∃ front x,
        (text false (cs ++ [c])).toList = front ++ [x] ∧ x ≠ '/' := exists_last_text false hc
    rw [hcs, hx, List.getLast?_concat]
    simpa using hne

/-- The archive in some bytes has the files as its members, in the order of their names. -/
def Files.ZippedIn (f : Files) (bytes : ByteArray) : Prop :=
  ∃ ms, Zip.read bytes = .ok ms
    ∧ ms.map (fun m => (m.name, m.content)) =
      f.entries.map fun e => (e.1, (.ok e.2 : Except Error ByteArray))

namespace Files

variable {f : Files} {bytes : ByteArray}

theorem ZippedIn.exists_archive (h : f.ZippedIn bytes) :
    ∃ a, Archive.ofBytes bytes = .ok a ∧ a.members.map (·.name) = f.keys
      ∧ ∀ name, (a.members.find? (·.name = name)).map (·.content) =
        (f.find? name).map Except.ok := by
  obtain ⟨ms, hread, hms⟩ := h
  have hnames : ms.map (·.name) = f.keys := by
    have hfst := congrArg (List.map Prod.fst) hms
    simpa [List.map_map, Function.comp_def, Table.keys] using hfst
  have hnodup : (ms.map (·.name)).Nodup := by
    rw [hnames]
    refine List.Pairwise.imp ?_ f.increasing
    rintro k _ hlt rfl
    exact String.lt_irrefl k hlt
  refine ⟨⟨ms⟩, ?_, hnames, fun name => ?_⟩
  · rw [Archive.ofBytes, hread]
    exact congrArg Except.ok (Archive.ofMembers_eq hnodup)
  · have hfind := congrArg (List.find? (·.1 = name)) hms
    rw [List.find?_map, List.find?_map] at hfind
    have hcontent := congrArg (Option.map Prod.snd) hfind
    rw [Option.map_map, Option.map_map] at hcontent
    rw [Table.find?, Option.map_map]
    exact hcontent

/-- A memory and an archive that hold the same files, none of whose paths is from the root or ends
like a directory, list, tell apart and read the same at every path that is not from the root. -/
theorem archive_eq_memory
    (hf : ∀ n ∈ f.keys, Path.join [n] = n ∧ Path.startsAtRoot n = false
      ∧ n.toList.getLast? ≠ some '\\') (hz : f.ZippedIn bytes) :
    ∃ a, Archive.ofBytes bytes = .ok a
      ∧ ∀ (st : Storage) (v w : Volume) (slot slot' : Nat), v.medium = .memory slot →
        st.files slot = f → w.medium = .archive slot' → st.archive slot' = a →
        ∀ path, Path.startsAtRoot path = false →
          st.list v path = st.list w path ∧ st.stat v path = st.stat w path
            ∧ st.read v path = st.read w path := by
  obtain ⟨a, ha, hnames, hfind⟩ := hz.exists_archive
  have hfile : ∀ n ∈ f.keys, Archive.isDirectoryName n = false := by
    intro n hn
    obtain ⟨hjoin, hroot, hback⟩ := hf n hn
    have hslash := Path.getLast?_ne_slash hjoin hroot
    simp [Archive.isDirectoryName, hslash, hback]
  have hfiles : a.files = f.keys := by
    rw [Archive.files, hnames, List.filter_eq_self]
    exact fun n hn => by simp [hfile n hn]
  have hdirs : a.directories = [] := by
    rw [Archive.directories, hnames, List.map_eq_nil_iff, List.filter_eq_nil_iff]
    exact fun n hn => by simp [hfile n hn]
  refine ⟨a, ha, fun st v w slot slot' hv hslot hw hslot' path hpath => ?_⟩
  have hname : Archive.memberName path = path := Storage.memberName_relative hpath
  refine ⟨?_, ?_, ?_⟩
  · rw [Storage.list_eq (by simp [hv]), Storage.list_eq (by simp [hw])]
    simp only [Storage.fileNames, Storage.nameIn, hv, hw, hslot, hslot', hfiles, hname]
  · rw [Storage.stat_eq (by simp [hv]), Storage.stat_eq (by simp [hw])]
    simp only [Storage.fileNames, Storage.ownDirectories, Storage.nameIn, hv, hw, hslot, hslot',
      hfiles, hdirs, hname]
  · have hcontent := hfind path
    simp only [Storage.read, hv, hw, hslot, hslot', Archive.read, hname]
    rcases hm : a.members.find? (·.name = path) with _ | m
    · rw [hm, Option.map_none] at hcontent
      simp only [Option.map_eq_none_iff.1 hcontent.symm, hm]
    · rw [hm, Option.map_some] at hcontent
      obtain ⟨content, hcontent, hread⟩ := Option.map_eq_some_iff.1 hcontent.symm
      simp only [hcontent, hread, hm]

/-- A file, and files in a directory of the same name. -/
def twinFiles : Files :=
  .ofList [("A", "1".toUTF8), ("A.v", "2".toUTF8), ("A/B.v", "3".toUTF8)]

def twinBytes : ByteArray :=
  Zip.write ⟨.store, ⟨2000, 1, 1, 0, 0, 0⟩⟩ (twinFiles.entries.map fun e => ⟨e.1, e.2⟩)

theorem archive_eq_memory_twin :
    (∀ n ∈ twinFiles.keys, Path.join [n] = n ∧ Path.startsAtRoot n = false
        ∧ n.toList.getLast? ≠ some '\\')
      ∧ twinFiles.ZippedIn twinBytes
      ∧ ∃ a, Archive.ofBytes twinBytes = .ok a
        ∧ (⟨[twinFiles], [a], default, 2⟩ : Storage).list ⟨1, .archive 0⟩ "A/" = .ok ["B.v"] := by
  have hf : ∀ n ∈ twinFiles.keys, Path.join [n] = n ∧ Path.startsAtRoot n = false
      ∧ n.toList.getLast? ≠ some '\\' := by decide +kernel
  have hgives : Zip.GivesBack ⟨.store, ⟨2000, 1, 1, 0, 0, 0⟩⟩
      (twinFiles.entries.map fun e => ⟨e.1, e.2⟩) := by decide +kernel
  have hz : twinFiles.ZippedIn twinBytes := by
    obtain ⟨ms, hread, hms⟩ := hgives
    exact ⟨ms, hread, by rw [hms, List.map_map]; rfl⟩
  obtain ⟨a, ha, hsame⟩ := archive_eq_memory hf hz
  obtain ⟨hl, -, -⟩ := hsame ⟨[twinFiles], [a], default, 2⟩ ⟨0, .memory 0⟩ ⟨1, .archive 0⟩ 0 0
    rfl rfl rfl rfl "A/" (by decide)
  exact ⟨hf, hz, a, ha, hl.symm⟩

end Files

end Bindery
