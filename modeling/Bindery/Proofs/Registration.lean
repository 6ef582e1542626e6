import Bindery.Proofs.PlanOrder
import Bindery.Proofs.VolumeTree
import Mathlib.Data.Set.List

/-!
# Recursive registration

A scan that nothing stops is the same with more levels, `levels_mono`, and registers no directory
after one that it holds, `levels_holdersFirst`. Where the files of a memory are named from the root,
registering a directory recursively appends the directories that the names imply below it, each
once and after the one that holds it: `addRecursive_memory`.
-/

namespace Bindery

open Bindery.Path (AllSteps)

namespace Scan

variable {st : Storage}

theorem children_mono {scan scan' : Entry → Scan} {e : Entry}
    (h : ∀ x es, scan x = ⟨es, none⟩ → scan' x = ⟨es, none⟩) :
    ∀ {names : List String} {entries : List Entry},
      children st scan e names = ⟨entries, none⟩ → children st scan' e names = ⟨entries, none⟩
  | [], _, hc => hc
  | c :: r, entries, hc => by
    obtain ⟨hd, hr⟩ | ⟨es, rest, hd, hs, hr, rfl⟩ := children_cons_inv hc
    · rw [children, hd]
      exact children_mono h hr
    · simp only [children, hd, h _ _ hs, children_mono h hr]

theorem levels_succ : ∀ {n : Nat} {e : Entry} {entries : List Entry},
    levels st n e = ⟨entries, none⟩ → levels st (n + 1) e = ⟨entries, none⟩
  | 0, _, _, h => by cases h
  | n + 1, e, entries, h => by
    obtain ⟨names, below, hl, hc, rfl⟩ := levels_eq h
    have hmore := children_mono (fun _ _ => levels_succ) hc
    have hv : e.normal.volume = e.volume := rfl
    rw [levels]
    simp only [hv, hl, hmore]

/-- A scan that nothing stops does not hang on how many more levels it may take. -/
theorem levels_mono {n n' : Nat} (hle : n ≤ n') {e : Entry} {entries : List Entry}
    (h : levels st n e = ⟨entries, none⟩) : levels st n' e = ⟨entries, none⟩ := by
  induction hle with
  | refl => exact h
  | step _ ih => exact levels_succ ih

/-- The logical path of what lies below goes on from that of the directory. -/
theorem Below.logical {e x : Entry} (h : Below st e x) : e.logical <+: x.logical := by
  induction h with
  | here e => exact List.prefix_rfl
  | child _ _ _ _ ih => exact (List.prefix_append _ _).trans ih

/-- No entry stands after one that its directory holds. -/
def HoldersFirst (entries : List Entry) : Prop :=
  entries.Pairwise fun x y => ¬ y.logical <+: x.logical

theorem children_holdersFirst {scan : Entry → Scan} {e : Entry} :
    ∀ {names : List String} {entries : List Entry}, names.Nodup →
      (∀ c ∈ names, ∀ es, scan (e.child c) = ⟨es, none⟩ →
        HoldersFirst es ∧ ∀ x ∈ es, e.logical ++ [c] <+: x.logical) →
      children st scan e names = ⟨entries, none⟩ → HoldersFirst entries
  | [], _, _, _, h => by
    cases h
    exact List.Pairwise.nil
  | c :: r, entries, hnd, hscan, h => by
    obtain ⟨hfresh, hnd⟩ := List.nodup_cons.1 hnd
    obtain ⟨hc, hscan⟩ := List.forall_mem_cons.1 hscan
    obtain ⟨-, hr⟩ | ⟨es, rest, -, hs, hr, rfl⟩ := children_cons_inv h
    · exact children_holdersFirst hnd hscan hr
    · obtain ⟨hes, hbelow⟩ := hc es hs
      refine List.pairwise_append.2 ⟨hes, children_holdersFirst hnd hscan hr, ?_⟩
      intro x hx y hy hyx
      -- What lies below two children of one name would be below one child.
      obtain ⟨c', hc', -, es', hs', hy⟩ := (children_inv hr).2 y hy
      have hyc : e.logical ++ [c'] <+: x.logical := ((hscan c' hc' es' hs').2 y hy).trans hyx
      have hcc := (List.prefix_of_prefix_length_le (hbelow x hx) hyc (by simp)).eq_of_length
        (by simp)
      cases List.append_cancel_left hcc
      exact hfresh hc'

/-- A scan of a volume that lists no name twice registers no directory after one that it holds, nor
one twice. -/
theorem levels_holdersFirst {v : Volume}
    (hl : ∀ path names, st.list v path = .ok names → names.Nodup) {n : Nat} {e : Entry}
    {entries : List Entry} (hv : e.volume = v) (h : levels st n e = ⟨entries, none⟩) :
    HoldersFirst entries := by
  induction n generalizing e entries with
  | zero => cases h
  | succ n ih =>
    obtain ⟨names, below, hlist, hc, rfl⟩ := levels_eq h
    have hscan : ∀ c ∈ names, ∀ es, levels st n (e.normal.child c) = ⟨es, none⟩ →
        HoldersFirst es ∧ ∀ x ∈ es, e.normal.logical ++ [c] <+: x.logical :=
      fun c _ es hs =>
        ⟨ih (e := e.normal.child c) hv hs, fun x hx => ((mem_levels hs).1 hx).logical⟩
    refine List.Pairwise.cons (fun y hy hle => ?_)
      (children_holdersFirst (hl _ _ (hv ▸ hlist)) hscan hc)
    obtain ⟨c, hname, -, es, hs, hy⟩ := (children_inv hc).2 y hy
    have hlen := (((hscan c hname es hs).2 y hy).trans hle).length_le
    rw [List.length_append, List.length_singleton] at hlen
    omega

end Scan

/-- Among some names a path is a directory if it is none of them and one of them goes on from it
after a slash. -/
def HasDirectory (names : List String) (path : String) : Prop :=
  path ∉ names ∧ ∃ rest, path ++ "/" ++ rest ∈ names

section Names

variable {names base cs : List String} (hn : Listing.Normal true names)

/-- The steps below a directory are added to its path. -/
theorem Path.join_text_cons (hb : AllSteps base) (hc : AllSteps cs) :
    Path.join (Path.text true base :: cs) = Path.text true (base ++ cs) := by
  have hne : Path.text true base ≠ "" := fun he => Bool.noConfusion (Path.text_eq_empty hb he).1
  rw [Path.join_eq_text, Path.isAbsolute_cons hne, Path.startsAtRoot_text true hb,
    List.flatMap_cons, Path.steps_text true hb, List.flatMap_congr fun c h => (hc c h).steps,
    List.flatMap_singleton']

include hn

theorem hasDirectory_text (hc : AllSteps cs) (hne : cs ≠ []) :
    HasDirectory names (Path.text true cs) ↔ Path.text true cs ∉ names
      ∧ ∃ c r, AllSteps (cs ++ c :: r) ∧ Path.text true (cs ++ c :: r) ∈ names := by
  refine and_congr_right fun hno => ⟨?_, ?_⟩
  · rintro ⟨rest, hmem⟩
    obtain ⟨ds, hds, he⟩ := hn _ hmem
    have hsteps : ds = cs ++ Path.steps rest := by
      rw [← Path.steps_text true hds, ← he, Listing.steps_append_slash, Path.steps_text true hc]
    rcases hr : Path.steps rest with _ | ⟨c, r⟩
    · -- Nothing goes on after the slash, so the name has the steps of the path, and is the path.
      rw [he, hsteps, hr, List.append_nil] at hmem
      exact absurd hmem hno
    · rw [hr] at hsteps
      exact ⟨c, r, hsteps ▸ hds, hsteps ▸ he ▸ hmem⟩
  · rintro ⟨c, r, -, hmem⟩
    rw [Listing.text_append (List.cons_ne_nil c r), if_neg hne] at hmem
    exact ⟨_, hmem⟩

/-- The directories of the tree are those of the names on all steps of the way. -/
theorem isDirectory_iff (hb : AllSteps base) :
    IsDirectory (fun f => AllSteps f ∧ Path.text true (base ++ f) ∈ names) cs ↔ AllSteps cs
      ∧ ∀ front, front <+: cs → front ≠ [] →
        HasDirectory names (Path.join (Path.text true base :: front)) := by
  have hasDirectory {front : List String} (hf : AllSteps front) (hne : front ≠ []) :
      HasDirectory names (Path.join (Path.text true base :: front)) ↔
        Path.text true (base ++ front) ∉ names ∧ ∃ c r, AllSteps (base ++ front ++ c :: r)
          ∧ Path.text true (base ++ front ++ c :: r) ∈ names := by
    rw [Path.join_text_cons hb hf]
    exact hasDirectory_text hn (hb.append hf) (by simp [hne])
  constructor
  · intro h
    have hcs : AllSteps cs := h.allSteps fun _ hf => hf.1
    refine ⟨hcs, ?_⟩
    rintro front ⟨back, rfl⟩ hne
    have hfront := h.front
    refine (hasDirectory hcs.left hne).2 ⟨fun hmem => ?_, ?_⟩
    · exact hfront.2 front [] (by simp) hne ⟨hcs.left, hmem⟩
    · obtain hnil | ⟨c, r, hsteps, hmem⟩ := hfront.1
      · exact absurd hnil hne
      · rw [← List.append_assoc] at hmem
        exact ⟨c, r, List.append_assoc base _ _ ▸ hb.append hsteps, hmem⟩
  · rintro ⟨hcs, h⟩
    refine ⟨?_, ?_⟩
    · rcases cs with _ | ⟨x, xs⟩
      · exact .inl rfl
      · obtain ⟨-, c, r, hsteps, hmem⟩ :=
          (hasDirectory hcs (by simp)).1 (h _ List.prefix_rfl (by simp))
        rw [List.append_assoc] at hsteps hmem
        exact .inr ⟨c, r, hsteps.right, hmem⟩
    · rintro front back rfl hne ⟨hf, hmem⟩
      exact ((hasDirectory hf hne).1 (h front (List.prefix_append _ _) hne)).1 hmem

end Names

section Memory

variable {st : Storage} {slot : Nat} {base : List String} {e : Entry}
  (hm : e.volume.medium = .memory slot) (hn : Listing.Normal true (st.files slot).keys)
  (hb : AllSteps base)

theorem within_injective {root : Bool} : Function.Injective (e.within root base) :=
  fun _ _ h => List.append_cancel_left (congrArg Entry.logical h)

include hm hn hb

/-- The levels that a scan may take are enough for a memory. -/
theorem exists_levels_memory :
    ∃ entries, ∀ n, st.depth e.volume ≤ n →
      Scan.levels st n (e.within true base []) = ⟨entries, none⟩ := by
  have hst := Storage.shows_memory hm hn hb
  have hstop : (Scan.levels st (st.depth e.volume) (e.within true base [])).stopped = none := by
    have hdepth : st.depth e.volume = Storage.longest (st.files slot).keys + 2 := by
      rw [Storage.depth, hm]
    refine Storage.Shows.stopped_levels hst .nil (by omega) fun f hf => ?_
    -- A file has no more steps than its path has characters.
    have hshort := Storage.length_le_text true (hb.append hf.1)
    have hlong := Storage.length_le_longest hf.2
    rw [List.length_append] at hshort
    rw [List.length_nil]
    omega
  rcases hs : Scan.levels st (st.depth e.volume) (e.within true base []) with ⟨entries, stopped⟩
  obtain rfl : stopped = none := by rwa [hs] at hstop
  exact ⟨entries, fun n hle => Scan.levels_mono hle hs⟩

/-- A scan of a memory registers the directories of the tree, each once and after the one that
holds it. -/
theorem exists_dirs_memory :
    ∃ dirs : List (List String),
      (∀ n, st.depth e.volume ≤ n →
        Scan.levels st n (e.within true base []) = ⟨dirs.map (e.within true base), none⟩)
      ∧ (∀ cs, cs ∈ dirs ↔ IsDirectory
          (fun f => AllSteps f ∧ Path.text true (base ++ f) ∈ (st.files slot).keys) cs)
      ∧ dirs.Pairwise fun cs cs' => ¬ cs' <+: cs := by
  obtain ⟨entries, hlevels⟩ := exists_levels_memory hm hn hb
  have hs := hlevels _ (Nat.le_refl _)
  have hmem := Storage.Shows.mem_levels (Storage.shows_memory hm hn hb) hs
  obtain ⟨dirs, rfl⟩ : entries ∈ Set.range (List.map (e.within true base)) := by
    rw [Set.range_list_map]
    intro y hy
    obtain ⟨cs, -, rfl⟩ := (hmem y).1 hy
    exact ⟨cs, rfl⟩
  refine ⟨dirs, hlevels, fun cs => ?_, ?_⟩
  · rw [← List.mem_map_of_injective within_injective, hmem]
    constructor
    · rintro ⟨dir, hdir, heq⟩
      exact within_injective heq ▸ hdir
    · exact fun h => ⟨cs, h, rfl⟩
  · have hlist : ∀ path names, st.list e.volume path = .ok names → names.Nodup := by
      intro path names hl
      rw [Storage.list_memory hm] at hl
      cases hl
      exact Plan.nodup_eraseDups _
    have hfirst := List.pairwise_map.1
      (Scan.levels_holdersFirst (e := e.within true base []) hlist rfl hs)
    exact hfirst.imp fun h hle => h ((List.prefix_append_right_inj _).2 hle)

end Memory

namespace SearchPath

/-- Registering a directory of a memory recursively appends it and the directories below it, with
the steps to each added to the logical path and to the path, each once and after the one that holds
it. More levels would change nothing. -/
theorem addRecursive_memory {st : Storage} {v : Volume} {slot : Nat} (hm : v.medium = .memory slot)
    (hk : ∀ k ∈ (st.files slot).keys, Path.join [k] = k ∧ Path.startsAtRoot k = true)
    {d : String} (hd : Path.join [d] = d ∧ Path.startsAtRoot d = true) (s : SearchPath)
    (logical : Logical) (package : Option String) :
    ∃ dirs : List (List String),
      s.addRecursive st ⟨v, logical, d, package⟩
        = (s.append (dirs.map fun cs => ⟨v, logical ++ cs, Path.join (d :: cs), package⟩), none)
      ∧ (∀ cs, cs ∈ dirs ↔ AllSteps cs ∧ ∀ front, front <+: cs → front ≠ [] →
          HasDirectory (st.files slot).keys (Path.join (d :: front)))
      ∧ dirs.Nodup ∧ dirs.Pairwise (fun cs cs' => ¬ cs' <+: cs)
      ∧ ∀ n, st.depth v ≤ n → Scan.levels st n ⟨v, logical, d, package⟩
          = Entry.scan st ⟨v, logical, d, package⟩ := by
  have hn := Listing.normal_of_join hk
  obtain ⟨base, hb, rfl⟩ := Listing.normal_of_join (List.forall_mem_singleton.2 hd) d (by simp)
  let e : Entry := ⟨v, logical, Path.text true base, package⟩
  have he : e = e.within true base [] := by simp [e, Entry.within]
  obtain ⟨dirs, hlevels, hdirs, hfirst⟩ := exists_dirs_memory (e := e) hm hn hb
  rw [← he] at hlevels
  have hscan : e.scan st = ⟨dirs.map (e.within true base), none⟩ := hlevels _ (Nat.le_refl _)
  have hplaced : dirs.map (e.within true base) =
      dirs.map fun cs => ⟨v, logical ++ cs, Path.join (Path.text true base :: cs), package⟩ := by
    refine List.map_congr_left fun cs hcs => ?_
    rw [Path.join_text_cons hb (((hdirs cs).1 hcs).allSteps fun _ hf => hf.1)]
    rfl
  refine ⟨dirs, ?_, fun cs => ?_, hfirst.imp ?_, hfirst, fun n hle => ?_⟩
  · have hne : dirs ≠ [] := List.ne_nil_of_mem ((hdirs []).2 .nil)
    simp only [addRecursive]
    rw [hscan]
    simp only [List.map_eq_nil_iff, if_neg hne, hplaced]
  · rw [hdirs, isDirectory_iff hn hb]
  · rintro cs _ h rfl
    exact h List.prefix_rfl
  · exact (hlevels n hle).trans hscan.symm

/-- A memory where `/d` holds a file beside directories, one of them two levels deep. -/
def shelfVolume : Volume := ⟨0, .memory 0⟩

def shelfStorage : Storage :=
  ⟨[.ofList [("/d/A/B/x.v", .empty), ("/d/f", .empty), ("/e/y.v", .empty), ("/d/C/y.v", .empty)]],
    [], default, 1⟩

example : ((SearchPath.new shelfVolume).addRecursive shelfStorage
      ⟨shelfVolume, ["L"], "/d", none⟩).1.entries
    = [⟨shelfVolume, ["L"], "/d", none⟩, ⟨shelfVolume, ["L", "A"], "/d/A", none⟩,
      ⟨shelfVolume, ["L", "A", "B"], "/d/A/B", none⟩, ⟨shelfVolume, ["L", "C"], "/d/C", none⟩] := by
  decide

theorem addRecursive_memory_shelf :
    shelfVolume.medium = .memory 0
      ∧ (∀ k ∈ (shelfStorage.files 0).keys, Path.join [k] = k ∧ Path.startsAtRoot k = true)
      ∧ (Path.join ["/d"] = "/d" ∧ Path.startsAtRoot "/d" = true)
      ∧ ∃ dirs : List (List String),
        (SearchPath.new shelfVolume).addRecursive shelfStorage ⟨shelfVolume, ["L"], "/d", none⟩
          = ((SearchPath.new shelfVolume).append
              (dirs.map fun cs => ⟨shelfVolume, ["L"] ++ cs, Path.join ("/d" :: cs), none⟩), none)
        ∧ (∀ cs, cs ∈ dirs ↔ AllSteps cs ∧ ∀ front, front <+: cs → front ≠ [] →
            HasDirectory (shelfStorage.files 0).keys (Path.join ("/d" :: front)))
        ∧ dirs.Nodup ∧ dirs.Pairwise (fun cs cs' => ¬ cs' <+: cs)
        ∧ ∀ n, shelfStorage.depth shelfVolume ≤ n →
            Scan.levels shelfStorage n ⟨shelfVolume, ["L"], "/d", none⟩
              = Entry.scan shelfStorage ⟨shelfVolume, ["L"], "/d", none⟩ := by
  have hm : shelfVolume.medium = .memory 0 := rfl
  have hk : ∀ k ∈ (shelfStorage.files 0).keys,
      Path.join [k] = k ∧ Path.startsAtRoot k = true := by
    decide
  have hd : Path.join ["/d"] = "/d" ∧ Path.startsAtRoot "/d" = true := by decide
  exact ⟨hm, hk, hd, addRecursive_memory hm hk hd (SearchPath.new shelfVolume) ["L"] none⟩

end SearchPath

end Bindery
