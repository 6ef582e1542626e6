import Bindery.Proofs.CurrentIndex
import Bindery.Proofs.ScanTree

/-!
# Declared roots

A scan beneath a logical path registers the directories that it registers without one, each with
that path before its own, and is stopped by the same error: `Scan.levels_beneath`. So declared roots
are put together from scans of their directories, and there is no project of them if one of these
scans fails: `addRoots_eq_ok_iff`.
-/

namespace Bindery

/-- The entry of the same directory beneath a logical path. -/
def Entry.beneath (front : Logical) (e : Entry) : Entry := { e with logical := front ++ e.logical }

theorem Entry.normal_beneath (front : Logical) (e : Entry) :
    (e.beneath front).normal = e.normal.beneath front := rfl

theorem Entry.child_beneath (front : Logical) (e : Entry) (name : String) :
    (e.beneath front).child name = (e.child name).beneath front := by
  simp only [beneath, child, List.append_assoc]

namespace Scan

variable {st : Storage} {front : Logical}

/-- The scan of the same directories beneath a logical path. -/
def beneath (front : Logical) (s : Scan) : Scan := ⟨s.entries.map (·.beneath front), s.stopped⟩

theorem children_beneath {scan : Entry → Scan}
    (hscan : ∀ e, scan (e.beneath front) = (scan e).beneath front) (e : Entry) :
    ∀ names : List String,
      children st scan (e.beneath front) names = (children st scan e names).beneath front
  | [] => rfl
  | c :: r => by
    have hr := children_beneath hscan e r
    have hd : st.isDirectory (e.beneath front).volume ((e.child c).beneath front).physical =
        st.isDirectory e.volume (e.child c).physical := rfl
    rw [children, children, e.child_beneath, hd]
    rcases st.isDirectory e.volume (e.child c).physical with err | _ | _
    · rfl
    · exact hr
    · simp only [hscan, hr]
      rcases scan (e.child c) with ⟨entries, _ | err⟩
      · simp only [beneath, List.map_append]
      · rfl

/-- A scan does not depend on the logical path beneath which it takes place. -/
theorem levels_beneath : ∀ (n : Nat) (e : Entry),
    levels st n (e.beneath front) = (levels st n e).beneath front
  | 0, _ => rfl
  | n + 1, e => by
    have hl : st.list (e.normal.beneath front).volume (e.normal.beneath front).physical =
        st.list e.normal.volume e.normal.physical := rfl
    rw [levels, levels, e.normal_beneath]
    simp only [hl]
    rcases st.list e.normal.volume e.normal.physical with err | names
    · rfl
    · simp only [children_beneath (levels_beneath n)]
      rfl

theorem ne_nil_of_levels {n : Nat} {e : Entry} {entries : List Entry}
    (h : levels st n e = ⟨entries, none⟩) : entries ≠ [] := by
  cases n with
  | zero => cases h
  | succ n =>
    obtain ⟨names, below, -, -, rfl⟩ := levels_eq h
    exact List.cons_ne_nil _ _

end Scan

namespace Project

variable {st : Storage} {p p' : Project} {name : String} {v : Volume} {d : String}

/-- The project with more entries in its search path. -/
def register (p : Project) (entries : List Entry) : Project :=
  { p with search := p.search.append entries }

theorem register_register (p : Project) (es fs : List Entry) :
    (p.register es).register fs = p.register (es ++ fs) := by
  simp only [register, SearchPath.append_append]

/-- A directory is registered beneath a logical path as it is scanned without one. -/
theorem addDirectory_eq_ok_iff {logical : Logical} : p.addDirectory st d logical = .ok p' ↔
    ∃ entries, (top p.name p.volume d).scan st = ⟨entries, none⟩
      ∧ p' = p.register (entries.map (·.beneath logical)) := by
  have hentry : (⟨p.volume, logical, d, some p.name⟩ : Entry) =
      (top p.name p.volume d).beneath logical := by
    simp only [Entry.beneath, top, List.append_nil]
  have hmoved : ((top p.name p.volume d).beneath logical).scan st =
      ((top p.name p.volume d).scan st).beneath logical := Scan.levels_beneath _ _
  rcases hs : (top p.name p.volume d).scan st with ⟨entries, _ | err⟩
  · have hne : entries.map (·.beneath logical) ≠ [] := by
      simpa using Scan.ne_nil_of_levels hs
    rw [hs] at hmoved
    simp only [addDirectory, SearchPath.addRecursive, hentry, hmoved, Scan.beneath, if_neg hne,
      Except.ok.injEq, Scan.mk.injEq, and_true, exists_eq_left', register]
    exact eq_comm
  · rw [hs] at hmoved
    simp [addDirectory, SearchPath.addRecursive, hentry, hmoved, Scan.beneath]

/-- The entries of a project that is a scan of a directory; none if the scan fails. -/
def scanned (st : Storage) (name : String) (v : Volume) (d : String) : List Entry :=
  match (new name v).scan st d with
  | .ok q => q.search.entries
  | .error _ => []

theorem foldlM_addDirectory : ∀ {ds : List (String × Logical)} {p p' : Project},
    p.search.index = none →
    (ds.foldlM (fun p d => p.addDirectory st d.1 d.2) p = .ok p' ↔
      (∀ d ∈ ds, ∃ q, (new p.name p.volume).scan st d.1 = .ok q)
        ∧ p' = p.register
          (ds.flatMap fun d => (scanned st p.name p.volume d.1).map (·.beneath d.2)))
  | [], p, p', hi => by
    have hsame : p.register [] = p := by
      simp only [register, SearchPath.append, List.append_nil, ← hi]
    simp [hsame, pure, Except.pure, eq_comm]
  | d :: r, p, p', hi => by
    rw [List.foldlM_cons]
    constructor
    · intro h
      rcases ha : p.addDirectory st d.1 d.2 with err | p₁
      · rw [ha] at h
        cases h
      · rw [ha] at h
        obtain ⟨entries, hs, rfl⟩ := addDirectory_eq_ok_iff.1 ha
        obtain ⟨hr, rfl⟩ := (foldlM_addDirectory rfl).1 h
        have hscan := scan_eq_ok_iff.2 ⟨entries, hs, rfl⟩
        refine ⟨List.forall_mem_cons.2 ⟨⟨_, hscan⟩, hr⟩, ?_⟩
        have hentries : scanned st p.name p.volume d.1 = entries := by rw [scanned, hscan]
        rw [List.flatMap_cons, hentries, register_register]
        rfl
    · rintro ⟨hall, rfl⟩
      obtain ⟨⟨q, hscan⟩, hr⟩ := List.forall_mem_cons.1 hall
      obtain ⟨entries, hs, rfl⟩ := scan_eq_ok_iff.1 hscan
      have hentries : scanned st p.name p.volume d.1 = entries := by rw [scanned, hscan]
      rw [addDirectory_eq_ok_iff.2 ⟨entries, hs, rfl⟩]
      refine (foldlM_addDirectory rfl).2 ⟨hr, ?_⟩
      rw [List.flatMap_cons, hentries, register_register]
      rfl

/-- There is a project of declared roots just if each directory that they declare can be scanned.
It has the entries of these scans in the order in which the roots and their directories are
declared, each beneath what its root states and the directory. -/
theorem addRoots_eq_ok_iff (st : Storage) (name : String) (v : Volume) (roots : Roots)
    (base : String) (p : Project) :
    (new name v).addRoots st roots base = .ok p ↔
      (∀ x ∈ roots.entries, ∀ d ∈ x.2.directories,
        ∃ q, (new name v).scan st (Path.join ([base, x.1] ++ Logical.ofDotted d)) = .ok q)
      ∧ p = (new name v).register (roots.entries.flatMap fun x => x.2.directories.flatMap fun d =>
          (scanned st name v (Path.join ([base, x.1] ++ Logical.ofDotted d))).map
            (·.beneath ((x.2.leading.map Logical.ofDotted).getD [] ++ Logical.ofDotted d))) := by
  rw [addRoots, foldlM_addDirectory rfl]
  simp only [declared, List.forall_mem_flatMap, List.forall_mem_map, List.flatMap_assoc,
    List.flatMap_map]
  rfl

/-- A root with two directories, and one that is a directory itself. -/
def bookRoots : Roots :=
  .ofList [("theories", ⟨some "Lib", ["Core", "Data.List"]⟩), ("./extra/", ⟨none, [""]⟩)]

def bookStorage : Storage :=
  ⟨[.ofList [("w/theories/Core/A.v", .empty), ("w/theories/Data/List/T/L.v", .empty),
    ("w/extra/X.v", .empty)]], [], default, 1⟩

example : ((new "p" ⟨0, .memory 0⟩).addRoots bookStorage bookRoots "w").map
      (·.search.entries.map fun e => (e.logical, e.physical))
    = .ok [([], "w/extra"), (["Lib", "Core"], "w/theories/Core"),
      (["Lib", "Data", "List"], "w/theories/Data/List"),
      (["Lib", "Data", "List", "T"], "w/theories/Data/List/T")] := by
  rfl

end Project

end Bindery
