import Bindery.Proofs.NameTree
import Bindery.Project.Basic

/-!
# What a scan registers

A scan that is not stopped registers what lies below its directory, level by level: `mem_levels`.
Where a volume shows a tree of files, these are the directories of the tree, `Shows.mem_levels`,
and levels for the longest path are enough, `stopped_levels`. The modules of a scanned project are
then the files of the tree, and the directories, that carry the name of a module:
`mem_modules_scan`.
-/

namespace Bindery

open Bindery.Path (IsStep AllSteps)

namespace Scan

variable {st : Storage}

/-- A scan of children that nothing stops passes over a file, and puts what the scan of a directory
registers before what the children after it give. -/
theorem children_cons_inv {scan : Entry → Scan} {e : Entry} {c : String} {r : List String}
    {entries : List Entry} (h : children st scan e (c :: r) = ⟨entries, none⟩) :
    (st.isDirectory e.volume (e.child c).physical = .ok false
      ∧ children st scan e r = ⟨entries, none⟩)
    ∨ ∃ es rest, st.isDirectory e.volume (e.child c).physical = .ok true
      ∧ scan (e.child c) = ⟨es, none⟩ ∧ children st scan e r = ⟨rest, none⟩
      ∧ entries = es ++ rest := by
  rw [children] at h
  rcases hd : st.isDirectory e.volume (e.child c).physical with err | _ | _
  · rw [hd] at h
    cases h
  · rw [hd] at h
    exact .inl ⟨rfl, h⟩
  · rw [hd] at h
    rcases hs : scan (e.child c) with ⟨es, _ | err⟩
    · simp only [hs] at h
      rcases hr : children st scan e r with ⟨rest, stopped⟩
      rw [hr] at h
      cases h
      exact .inr ⟨es, rest, rfl, rfl, rfl, rfl⟩
    · simp only [hs] at h
      cases h

/-- Where no child stops the scan, all of them can be told apart, and what is registered is what the
scans of the directories among them register. -/
theorem children_inv {scan : Entry → Scan} {e : Entry} :
    ∀ {names : List String} {entries : List Entry},
      children st scan e names = ⟨entries, none⟩ →
      (∀ c ∈ names, ∃ b, st.isDirectory e.volume (e.child c).physical = .ok b
        ∧ (b = true → ∃ es, scan (e.child c) = ⟨es, none⟩ ∧ es ⊆ entries))
      ∧ ∀ e' ∈ entries, ∃ c ∈ names, st.isDirectory e.volume (e.child c).physical = .ok true
        ∧ ∃ es, scan (e.child c) = ⟨es, none⟩ ∧ e' ∈ es
  | [], _, h => by
    cases h
    simp
  | c :: r, entries, h => by
    obtain ⟨hd, hr⟩ | ⟨es, rest, hd, hs, hr, rfl⟩ := children_cons_inv h
    · obtain ⟨hall, hmem⟩ := children_inv hr
      refine ⟨List.forall_mem_cons.2 ⟨⟨false, hd, fun h => by cases h⟩, hall⟩, fun e' he => ?_⟩
      obtain ⟨x, hx, hrest⟩ := hmem e' he
      exact ⟨x, List.mem_cons_of_mem _ hx, hrest⟩
    · obtain ⟨hall, hmem⟩ := children_inv hr
      refine ⟨List.forall_mem_cons.2 ⟨?_, fun x hx => ?_⟩, fun e' he => ?_⟩
      · exact ⟨true, hd, fun _ => ⟨es, hs, List.subset_append_left _ _⟩⟩
      · obtain ⟨b, hxd, hscan⟩ := hall x hx
        refine ⟨b, hxd, fun hb => ?_⟩
        obtain ⟨es', hxs, hsub⟩ := hscan hb
        exact ⟨es', hxs, List.Subset.trans hsub (List.subset_append_right _ _)⟩
      · rcases List.mem_append.1 he with he | he
        · exact ⟨c, List.mem_cons_self, hd, es, hs, he⟩
        · obtain ⟨x, hx, hrest⟩ := hmem e' he
          exact ⟨x, List.mem_cons_of_mem _ hx, hrest⟩

theorem stopped_children {scan : Entry → Scan} {e : Entry} : ∀ {names : List String},
    (∀ c ∈ names, ∃ b, st.isDirectory e.volume (e.child c).physical = .ok b
      ∧ (b = true → (scan (e.child c)).stopped = none)) →
    (children st scan e names).stopped = none
  | [], _ => rfl
  | c :: r, h => by
    have hrest := stopped_children fun x hx => h x (List.mem_cons_of_mem _ hx)
    obtain ⟨b, hd, hb⟩ := h c (by simp)
    rw [children, hd]
    rcases b with _ | _
    · exact hrest
    · have hstop := hb rfl
      rcases hs : scan (e.child c) with ⟨es, stopped⟩
      rw [hs] at hstop
      cases hstop
      exact hrest

/-- The directory of an entry and, level by level, the directories that are listed in it. -/
inductive Below (st : Storage) : Entry → Entry → Prop where
  | here (e : Entry) : Below st e e.normal
  | child {e e' : Entry} {names : List String} {c : String}
      (hl : st.list e.volume e.normal.physical = .ok names) (hc : c ∈ names)
      (hd : st.isDirectory e.volume (e.normal.child c).physical = .ok true)
      (h : Below st (e.normal.child c) e') : Below st e e'

theorem levels_eq {n : Nat} {e : Entry} {entries : List Entry}
    (h : levels st (n + 1) e = ⟨entries, none⟩) :
    ∃ names below, st.list e.volume e.normal.physical = .ok names
      ∧ children st (levels st n) e.normal names = ⟨below, none⟩ ∧ entries = e.normal :: below := by
  rw [levels] at h
  have hv : e.normal.volume = e.volume := rfl
  simp only [hv] at h
  rcases hl : st.list e.volume e.normal.physical with err | names
  · rw [hl] at h
    cases h
  · rw [hl] at h
    rcases hc : children st (levels st n) e.normal names with ⟨below, stopped⟩
    simp only [hc] at h
    cases h
    exact ⟨names, below, rfl, hc, rfl⟩

/-- Spellings of one directory are scanned alike. -/
theorem levels_congr {e e' : Entry} (h : e.normal = e'.normal) (n : Nat) :
    levels st n e = levels st n e' := by
  cases n with
  | zero => rfl
  | succ n => rw [levels, levels, h]

/-- A scan that ends registers what lies below, however many levels it may take. -/
theorem mem_levels {e' : Entry} : ∀ {n : Nat} {e : Entry} {entries : List Entry},
    levels st n e = ⟨entries, none⟩ → (e' ∈ entries ↔ Below st e e')
  | 0, _, _, h => by cases h
  | n + 1, e, entries, h => by
    obtain ⟨names, below, hl, hc, rfl⟩ := levels_eq h
    obtain ⟨hall, hmem⟩ := children_inv hc
    rw [List.mem_cons]
    constructor
    · rintro (rfl | he)
      · exact .here e
      · obtain ⟨c, hname, hd, es, hs, he⟩ := hmem e' he
        exact .child hl hname hd ((mem_levels hs).1 he)
    · intro hb
      rcases hb with _ | ⟨hl', hname, hd, hb⟩
      · exact .inl rfl
      · rw [hl] at hl'
        cases hl'
        obtain ⟨b, hd', hscan⟩ := hall _ hname
        cases hd.symm.trans hd'
        obtain ⟨es, hs, hsub⟩ := hscan rfl
        exact .inr (hsub ((mem_levels hs).2 hb))

end Scan

/-- Below one of its directories a volume shows the files of a tree, given by their steps, and
nothing else. -/
structure Storage.Shows (st : Storage) (v : Volume) (root : Bool) (base : List String)
    (file : List String → Prop) : Prop where
  base_steps : AllSteps base
  file_steps : ∀ f, file f → AllSteps f
  list : ∀ dir, AllSteps dir → ∃ names, st.list v (Path.text root (base ++ dir)) = .ok names
    ∧ ∀ c, c ∈ names ↔ ∃ r, file (dir ++ c :: r)
  isDirectory : ∀ dir c r, file (dir ++ c :: r) →
    ∃ b, st.isDirectory v (Path.text root (base ++ (dir ++ [c]))) = .ok b
      ∧ (b = true ↔ ¬ file (dir ++ [c]))

/-- The top of a tree is a directory, and so is what a file of the tree is below, unless a file
stands on the way. -/
def IsDirectory (file : List String → Prop) (dir : List String) : Prop :=
  (dir = [] ∨ ∃ c r, file (dir ++ c :: r))
    ∧ ∀ front back, dir = front ++ back → front ≠ [] → ¬ file front

namespace IsDirectory

variable {file : List String → Prop} {dir back : List String} {c : String}

theorem nil : IsDirectory file [] := by
  refine ⟨.inl rfl, fun front back h hne => ?_⟩
  exact absurd (List.append_eq_nil_iff.1 h.symm).1 hne

theorem front (h : IsDirectory file (dir ++ back)) : IsDirectory file dir := by
  obtain ⟨hbelow, hway⟩ := h
  refine ⟨?_, fun f b hf hne => hway f (b ++ back) (by rw [hf, List.append_assoc]) hne⟩
  by_cases hd : dir = []
  · exact .inl hd
  · rcases hbelow with he | ⟨c, r, hfile⟩
    · exact absurd (List.append_eq_nil_iff.1 he).1 hd
    · refine .inr ?_
      rw [List.append_assoc] at hfile
      rcases hb : back ++ c :: r with _ | ⟨x, r'⟩
      · simp at hb
      · exact ⟨x, r', hb ▸ hfile⟩

theorem child (h : IsDirectory file dir) {r : List String} (hr : file (dir ++ c :: r))
    (hc : ¬ file (dir ++ [c])) : IsDirectory file (dir ++ [c]) := by
  refine ⟨.inr ?_, fun front back he hne => ?_⟩
  · rcases r with _ | ⟨x, r⟩
    · exact absurd hr hc
    · exact ⟨x, r, by simpa using hr⟩
  · rcases List.eq_nil_or_concat back with rfl | ⟨init, last, rfl⟩
    · rw [List.append_nil] at he
      exact he ▸ hc
    · rw [List.concat_eq_append, ← List.append_assoc] at he
      obtain ⟨hdir, -⟩ := List.append_inj' he rfl
      exact h.2 front init hdir hne

theorem allSteps (hs : ∀ f, file f → AllSteps f) (h : IsDirectory file dir) : AllSteps dir := by
  rcases h.1 with rfl | ⟨c, r, hfile⟩
  · exact .nil
  · exact (hs _ hfile).left

end IsDirectory

/-- The entry of a directory of the tree below an entry. -/
def Entry.within (e : Entry) (root : Bool) (base dir : List String) : Entry :=
  { e with logical := e.logical ++ dir, physical := Path.text root (base ++ dir) }

section Within

variable {e : Entry} {root : Bool} {base dir : List String}

theorem normal_within (hb : AllSteps base) (hd : AllSteps dir) :
    (e.within root base dir).normal = e.within root base dir := by
  rw [Entry.within, Entry.normal, Path.join_text root (hb.append hd)]

theorem child_within {c : String} (hb : AllSteps base) (hd : AllSteps dir) (hc : IsStep c) :
    (e.within root base dir).child c = e.within root base (dir ++ [c]) := by
  simp only [Entry.within, Entry.child]
  rw [Path.join_text_step root (hb.append hd) hc]
  simp only [List.append_assoc]

end Within

namespace Storage.Shows

variable {st : Storage} {e : Entry} {root : Bool} {base : List String}
  {file : List String → Prop} (hst : st.Shows e.volume root base file)

include hst

theorem isStep {dir r : List String} {c : String} (h : file (dir ++ c :: r)) : IsStep c :=
  hst.file_steps _ h c (by simp)

theorem exists_of_below {x y : Entry} (h : Scan.Below st x y) : ∀ {dir : List String},
    x = e.within root base dir → IsDirectory file dir →
    ∃ back, IsDirectory file (dir ++ back) ∧ y = e.within root base (dir ++ back) := by
  induction h with
  | here x =>
    rintro dir rfl hdir
    refine ⟨[], by rwa [List.append_nil], ?_⟩
    rw [normal_within hst.base_steps (hdir.allSteps hst.file_steps), List.append_nil]
  | @child x y names c hl hc hd _ ih =>
    rintro dir rfl hdir
    have hsteps := hdir.allSteps hst.file_steps
    rw [normal_within hst.base_steps hsteps] at hl hd ih
    obtain ⟨names', hl', hnames⟩ := hst.list dir hsteps
    cases hl.symm.trans hl'
    obtain ⟨r, hr⟩ := (hnames c).1 hc
    have hchild : (e.within root base dir).child c = e.within root base (dir ++ [c]) :=
      child_within hst.base_steps hsteps (hst.isStep hr)
    rw [hchild] at hd
    obtain ⟨b, hd', hb⟩ := hst.isDirectory dir c r hr
    cases hd.symm.trans hd'
    obtain ⟨back, hback, hy⟩ := ih hchild (hdir.child hr (hb.1 rfl))
    rw [List.append_assoc] at hback hy
    exact ⟨c :: back, hback, hy⟩

theorem below_of_isDirectory : ∀ {back dir : List String}, IsDirectory file (dir ++ back) →
    Scan.Below st (e.within root base dir) (e.within root base (dir ++ back))
  | [], dir, h => by
    have hsteps := h.front.allSteps hst.file_steps
    have hhere : Scan.Below st (e.within root base dir) (e.within root base dir).normal := .here _
    rw [normal_within hst.base_steps hsteps] at hhere
    rwa [List.append_nil]
  | c :: back, dir, h => by
    have hdir : IsDirectory file dir := h.front
    have hsteps := hdir.allSteps hst.file_steps
    obtain ⟨r, hr⟩ : ∃ r, file (dir ++ c :: r) := by
      rcases h.1 with he | ⟨x, r, hfile⟩
      · simp at he
      · exact ⟨back ++ x :: r, by simpa using hfile⟩
    have hno : ¬ file (dir ++ [c]) := h.2 (dir ++ [c]) back (by simp) (by simp)
    obtain ⟨names, hl, hnames⟩ := hst.list dir hsteps
    obtain ⟨b, hd, hb⟩ := hst.isDirectory dir c r hr
    rw [hb.2 hno] at hd
    have hchild : (e.within root base dir).child c = e.within root base (dir ++ [c]) :=
      child_within hst.base_steps hsteps (hst.isStep hr)
    have hstep : dir ++ c :: back = dir ++ [c] ++ back := by simp
    rw [hstep] at h ⊢
    have hrest := below_of_isDirectory h
    have hnormal : (e.within root base dir).normal = e.within root base dir :=
      normal_within hst.base_steps hsteps
    refine .child ?_ ((hnames c).2 ⟨r, hr⟩) ?_ ?_
    · rw [hnormal]
      exact hl
    · rw [hnormal, hchild]
      exact hd
    · rw [hnormal, hchild]
      exact hrest

/-- A scan that ends registers the directories of the tree. -/
theorem mem_levels {n : Nat} {entries : List Entry}
    (h : Scan.levels st n (e.within root base []) = ⟨entries, none⟩) (y : Entry) :
    y ∈ entries ↔ ∃ dir, IsDirectory file dir ∧ y = e.within root base dir := by
  rw [Scan.mem_levels h]
  constructor
  · intro hb
    obtain ⟨back, hback, hy⟩ := hst.exists_of_below hb rfl .nil
    exact ⟨back, hback, hy⟩
  · rintro ⟨dir, hdir, rfl⟩
    have hdir' : IsDirectory file ([] ++ dir) := hdir
    exact hst.below_of_isDirectory hdir'

/-- Nothing stops a scan with a level for each step of a path. -/
theorem stopped_levels : ∀ {n : Nat} {dir : List String}, AllSteps dir → 0 < n →
    (∀ f, file f → f.length < n + dir.length) →
    (Scan.levels st n (e.within root base dir)).stopped = none
  | 0, _, _, h, _ => absurd h (Nat.lt_irrefl 0)
  | n + 1, dir, hsteps, _, hlen => by
    obtain ⟨names, hl, hnames⟩ := hst.list dir hsteps
    have hl' : st.list (e.within root base dir).volume (e.within root base dir).physical =
        .ok names := hl
    rw [Scan.levels, normal_within hst.base_steps hsteps]
    simp only [hl']
    refine Scan.stopped_children fun c hc => ?_
    obtain ⟨r, hr⟩ := (hnames c).1 hc
    rw [child_within hst.base_steps hsteps (hst.isStep hr)]
    obtain ⟨b, hd, hb⟩ := hst.isDirectory dir c r hr
    refine ⟨b, hd, fun hbt => ?_⟩
    -- A file deeper than this directory leaves a level for it.
    have hdeep : dir.length + 2 ≤ (dir ++ c :: r).length := by
      rcases r with _ | ⟨x, r⟩
      · exact absurd hr (hb.1 hbt)
      · simp only [List.length_append, List.length_cons]
        omega
    have hlt := hlen _ hr
    refine stopped_levels (hsteps.append (hst.isStep hr).allSteps) (by omega) fun f hf => ?_
    have := hlen f hf
    simp only [List.length_append, List.length_cons, List.length_nil]
    omega

/-- The modules of a directory of the tree. -/
theorem mem_modules_within {dir : List String} (hd : AllSteps dir) (m : Record) :
    m ∈ (e.within root base dir).modules st ↔ ∃ c r stem, file (dir ++ c :: r)
      ∧ moduleStem? c = some stem
      ∧ m = ⟨some e.volume, e.logical ++ (dir ++ [stem]),
          Path.text root (base ++ (dir ++ [c])), e.package⟩ := by
  obtain ⟨names, hl, hnames⟩ := hst.list dir hd
  have hl' : st.list (e.within root base dir).volume (e.within root base dir).physical =
      .ok names := hl
  rw [Entry.modules, hl']
  simp only [List.mem_filterMap, Entry.module?, Option.map_eq_some_iff]
  constructor
  · rintro ⟨c, hc, stem, hstem, rfl⟩
    obtain ⟨r, hr⟩ := (hnames c).1 hc
    refine ⟨c, r, stem, hr, hstem, ?_⟩
    simp only [Entry.within]
    rw [Path.join_text_step root (hst.base_steps.append hd) (hst.isStep hr)]
    simp only [List.append_assoc]
  · rintro ⟨c, r, stem, hr, hstem, rfl⟩
    refine ⟨c, (hnames c).2 ⟨r, hr⟩, stem, hstem, ?_⟩
    simp only [Entry.within]
    rw [Path.join_text_step root (hst.base_steps.append hd) (hst.isStep hr)]
    simp only [List.append_assoc]

end Storage.Shows

/-- A scan gives a search path without directories all its own. -/
theorem SearchPath.addRecursive_new (st : Storage) (v : Volume) (e : Entry) :
    (SearchPath.new v).addRecursive st e =
      (⟨v, (e.scan st).entries, none, none⟩, (e.scan st).stopped) := by
  rw [addRecursive]
  by_cases he : (e.scan st).entries = []
  · simp [he, new]
  · simp [he, new, append]

namespace Project

variable {st : Storage} {name : String} {v : Volume} {d : String} {p : Project}

/-- The entry that a scan of a project starts from. -/
def top (name : String) (v : Volume) (d : String) : Entry := ⟨v, [], d, some name⟩

theorem scan_eq_ok_iff {q : Project} : (new name v).scan st d = .ok q ↔
    ∃ entries, (top name v d).scan st = ⟨entries, none⟩
      ∧ q = ⟨name, v, ⟨v, entries, none, none⟩, [], none⟩ := by
  rcases hs : (top name v d).scan st with ⟨entries, stopped⟩
  have hscan : (⟨v, [], d, some name⟩ : Entry).scan st = ⟨entries, stopped⟩ := hs
  simp only [scan, addDirectory, new, SearchPath.addRecursive_new, hscan]
  rcases stopped with _ | err
  · simp [eq_comm]
  · simp

variable {root : Bool} {base : List String} {file : List String → Prop}

/-- The module of a file in a directory of a tree. -/
def treeModule (name : String) (v : Volume) (root : Bool) (base dir : List String)
    (c stem : String) : Record :=
  ⟨some v, dir ++ [stem], Path.text root (base ++ (dir ++ [c])), some name⟩

/-- The modules of a scanned project are what carries the name of a module in the directories of
the tree. -/
theorem mem_modules_scan (hst : st.Shows v root base file) {n : Nat} {entries : List Entry}
    (h : Scan.levels st n (top p.name v (Path.text root base)) = ⟨entries, none⟩)
    (he : p.search.entries = entries) (hl : p.listed = none) (m : Record) :
    m ∈ p.modules st ↔
      ∃ dir c r stem, IsDirectory file dir ∧ file (dir ++ c :: r) ∧ moduleStem? c = some stem
        ∧ m = treeModule p.name v root base dir c stem := by
  have htop : top p.name v (Path.text root base) =
      (top p.name v (Path.text root base)).within root base [] := by
    simp [top, Entry.within]
  rw [htop] at h
  have hentries := Storage.Shows.mem_levels (e := top p.name v (Path.text root base)) hst h
  simp only [modules, hl, SearchPath.modulesOf, SearchPath.modules, he, List.mem_filter,
    List.mem_flatMap]
  constructor
  · rintro ⟨⟨y, hy, hm⟩, -⟩
    obtain ⟨dir, hdir, rfl⟩ := (hentries y).1 hy
    have hsteps := hdir.allSteps hst.file_steps
    obtain ⟨c, r, stem, hr, hstem, rfl⟩ := (Storage.Shows.mem_modules_within
      (e := top p.name v (Path.text root base)) hst hsteps m).1 hm
    exact ⟨dir, c, r, stem, hdir, hr, hstem, rfl⟩
  · rintro ⟨dir, c, r, stem, hdir, hr, hstem, rfl⟩
    have hsteps := hdir.allSteps hst.file_steps
    refine ⟨⟨_, (hentries _).2 ⟨dir, hdir, rfl⟩, ?_⟩, by simp [treeModule]⟩
    exact (Storage.Shows.mem_modules_within hst hsteps _).2 ⟨c, r, stem, hr, hstem, rfl⟩

end Project

end Bindery
